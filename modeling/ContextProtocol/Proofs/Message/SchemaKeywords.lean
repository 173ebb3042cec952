import ContextProtocol.Proofs.Message.SchemaTrip
import ContextProtocol.Proofs.Message.SchemaViolations
import ContextProtocol.Proofs.Shape.Inversion
import ContextProtocol.Proofs.Shape.Rawless
import ContextProtocol.Proofs.Shape.Sparse

/-!
# The keywords of a schema

Each node of a schema is an object of its own, which stands in the object of the node above it: under
the name of a property inside `properties`, or under `items`. The members of that object are the
keywords of the node that are set. A list or a map without anything in it is a keyword that is not
set. The values of an enumeration are JSON of any shape, so an object among them may begin with the
reserved name, and then it is read as something else.

Results:
* `Schema.node?_encode`: what stands at the address of a node is what is written for that node.
* `Schema.exists_members`: the members there are the keywords that are set.
* `Schema.writable_encode`: a schema with finite bounds is written as it is.
* `Schema.bare_of_decode`: what comes back lists no object that begins with the reserved name.
* `Schema.keywords_come_back`: when a schema is read back, from memory at any depth.
* `Schema.embedded_value_lost`: a schema that is not.
-/
namespace ContextProtocol

namespace SchemaNode

variable {α : Type}

/-- All keywords in the order they are written, and whether they are left out. -/
def marks (s : SchemaNode α) : List (String × Bool) :=
  [("type", false), ("properties", s.properties.isEmpty), ("required", s.required.isEmpty),
    ("items", s.items.isNone), ("enum", s.enum.isEmpty), ("minLength", s.minLength.isNone),
    ("maxLength", s.maxLength.isNone), ("pattern", s.pattern.isNone),
    ("minimum", s.minimum.isNone), ("maximum", s.maximum.isNone)]

/-- The keywords that are set. -/
def keywords (s : SchemaNode α) : List String :=
  (s.marks.filter fun keyword => !keyword.2).map (·.1)

end SchemaNode

namespace Form

/-- The member of an object under a name. -/
def member? (name : String) : Form → Option Form
  | .object members => members.lookup name
  | _ => none

/-- The part of a form that stands where a schema has the node at the address. -/
def node? : SchemaAddress → Form → Option Form
  | [], f => some f
  | .property name :: rest, f =>
    ((f.member? "properties").bind (member? name)).bind (node? rest)
  | .items :: rest, f => (f.member? "items").bind (node? rest)

/-- In any order, the members of an object are found under their names. -/
theorem member?_arrange {members : List (String × Form)} (hkeys : (members.map (·.1)).Nodup)
    (a : Arrangement) (name : String) :
    ((Form.object members).arrange a).member? name = (members.lookup name).map (arrange a) := by
  cases a with
  | written => exact Option.map_id'.symm
  | byName =>
    have hsame : ((Entries.mapValues sorted members).map (·.1)).Nodup := by
      rwa [Entries.mapValues, List.map_map]
    show (Entries.ofList (sortedMembers members)).lookup name = _
    rw [sortedMembers_eq, Entries.lookup_ofList hsame, Entries.lookup_mapValues]
    rfl

/-- In any order, the members of an object have the same names. -/
theorem exists_arrange {members : List (String × Form)} (hkeys : (members.map (·.1)).Nodup)
    (a : Arrangement) : ∃ ms, (Form.object members).arrange a = .object ms ∧
      (ms.map (·.1)).Perm (members.map (·.1)) := by
  cases a with
  | written => exact ⟨members, rfl, .refl _⟩
  | byName =>
    have hsame : (Entries.mapValues sorted members).map (·.1) = members.map (·.1) :=
      List.map_map ..
    refine ⟨Entries.ofList (sortedMembers members), rfl, ?_⟩
    rw [sortedMembers_eq, ← hsame]
    exact (Entries.perm_ofList (hsame ▸ hkeys)).map _

/-- What a written object holds under a name is what was written there, in any order. -/
theorem lookup_of_holds {members : List (String × Form)} (hkeys : (members.map (·.1)).Nodup)
    {a : Arrangement} {name : String} {d : Sourced Doc}
    (h : (Doc.ofForm ((Form.object members).arrange a)).Holds name d) :
    ∃ f, members.lookup name = some f ∧ d = Sourced.ofForm (f.arrange a) := by
  obtain ⟨ms, hms, hperm⟩ := exists_arrange hkeys a
  have hmember := member?_arrange hkeys a name
  rw [hms] at h hmember
  obtain ⟨g, hg, rfl⟩ := Doc.holds_ofForm.mp h
  have hlookup : ms.lookup name = some g := Entries.lookup_of_mem (hperm.nodup_iff.mpr hkeys) hg
  obtain ⟨f, hf, rfl⟩ := Option.map_eq_some_iff.mp (hmember.symm.trans hlookup)
  exact ⟨f, hf, rfl⟩

/-- The form of a value in memory is in order already. -/
theorem arrange_ofJson {v : Json} (hv : v.Canonical) (a : Arrangement) :
    (ofJson v).arrange a = ofJson v := by
  cases a with
  | written => rfl
  | byName => exact sorted_ofJson v hv

end Form

namespace Schema

variable {s t : Schema} {address : SchemaAddress}

/-! ## What is written for a node -/

/-- The members of a node. -/
def writtenMembers (s : Schema) : List (String × Form) :=
  (record codec).fields.encode ((record codec).toRow s)

theorem encode_eq_object (s : Schema) : codec.encode s = .object s.writtenMembers := encode_codec s

theorem nodup_writtenMembers (s : Schema) : (s.writtenMembers.map (·.1)).Nodup :=
  (Fields.encode_sublist _ _).nodup (nodup_record_names codec)

theorem map_fst_writtenMembers (s : Schema) : s.writtenMembers.map (·.1) = s.root.keywords := by
  rw [writtenMembers, Fields.map_fst_encode]
  cases s
  rfl

/-- The properties of a node stand in a member of their own, if there are any. -/
theorem lookup_properties (h : Entries.Sorted s.root.properties) (a : Arrangement) (name : String) :
    ((s.writtenMembers.lookup "properties").map (Form.arrange a)).bind (Form.member? name) =
      (s.root.properties.lookup name).map fun t => (codec.encode t).arrange a := by
  by_cases hnil : s.root.properties = []
  · have hunset : "properties" ∉ s.writtenMembers.map (·.1) := by
      rw [map_fst_writtenMembers, SchemaNode.keywords, SchemaNode.marks, hnil]
      simp
    rw [Entries.lookup_eq_none_iff.mpr hunset, hnil]
    rfl
  · have hkeys : ((Entries.mapValues codec.encode s.root.properties).map (·.1)).Nodup :=
      Entries.nodup_keys_of_sorted (List.pairwise_map.mpr h)
    rw [Entries.lookup_of_mem s.nodup_writtenMembers (mem_encode_properties hnil)]
    refine (Form.member?_arrange hkeys a name).trans ?_
    rw [Entries.lookup_mapValues, Option.map_map]
    rfl

/-- The items of a node stand in a member of their own, if they are described. -/
theorem lookup_items (s : Schema) :
    s.writtenMembers.lookup "items" = s.root.items.map codec.encode := by
  cases h : s.root.items with
  | none =>
    refine Entries.lookup_eq_none_iff.mpr ?_
    rw [map_fst_writtenMembers, SchemaNode.keywords, SchemaNode.marks, h]
    simp
  | some item => exact Entries.lookup_of_mem s.nodup_writtenMembers (mem_encode_items h)

/-! ## What is written under an address -/

/-- What stands at the address of a node is what is written for that node. -/
theorem node?_encode (h : s.Ordered) (a : Arrangement) (address : SchemaAddress) :
    ((codec.encode s).arrange a).node? address =
      (s.at? address).map fun t => (codec.encode t).arrange a := by
  induction address generalizing s with
  | nil => rfl
  | cons step rest ih =>
    have hmember := Form.member?_arrange s.nodup_writtenMembers a
    rw [← encode_eq_object] at hmember
    cases step with
    | property name =>
      rw [Form.node?, hmember, lookup_properties (everywhere_iff.mp h).1, at?]
      cases ht : s.root.properties.lookup name with
      | none => rfl
      | some t => exact ih (h.of_property ht)
    | items =>
      rw [Form.node?, hmember, lookup_items, at?]
      cases ht : s.root.items with
      | none => rfl
      | some t => exact ih (h.of_items ht)

/-- The members of a node are the keywords that are set. -/
theorem exists_members (h : s.Ordered) (ht : s.at? address = some t) (a : Arrangement) :
    ∃ members, ((codec.encode s).arrange a).node? address = some (.object members) ∧
      (members.map (·.1)).Perm t.root.keywords := by
  obtain ⟨members, hmembers, hperm⟩ := Form.exists_arrange t.nodup_writtenMembers a
  refine ⟨members, ?_, map_fst_writtenMembers t ▸ hperm⟩
  rw [node?_encode h, ht, Option.map_some, encode_eq_object, hmembers]

/-! ## Reading it back -/

theorem rawless_record {c : Codec Schema} (h : c.Rawless) : (record c).codec.Rawless :=
  Record.rawless ⟨.word _, .entries h, .list .string, .option h, .list .json, .option .uint64,
    .option .uint64, .option .string, .option .float, .option .float, trivial⟩

theorem rawless_codecWithin (n : Nat) : (codecWithin n).Rawless := by
  induction n with
  | zero => exact fun _ => rfl
  | succ n ih => exact rawless_record ih

theorem rawless : codec.Rawless := fun s => rawless_codecWithin s.depth s

/-- A schema with finite bounds is written as it is. -/
theorem writable_encode (h : s.Everywhere SchemaNode.Finite) : (codec.encode s).Writable := by
  induction h with
  | @intro s root _ _ hproperties hitems =>
    obtain ⟨type, properties, required, items, enum, minLength, maxLength, pattern, minimum,
      maximum⟩ := s
    have hwritten : (record codec).fields.Written (fun _ f => f.Writable)
        ((record codec).toRow (.node type properties required items enum minLength maxLength pattern
          minimum maximum)) := by
      refine ⟨fun _ => trivial, fun _ => ?_, fun _ => ?_, ?_, fun _ => ?_, ?_, ?_, ?_, ?_, ?_,
        trivial⟩
      · refine Form.writableMembers_iff.mpr fun m hm => ?_
        obtain ⟨e, he, rfl⟩ := List.mem_map.mp hm
        exact hproperties e he
      · exact (Codec.RoundTrips.list fun name _ => .string name).writable
      · exact Field.written_optional hitems
      · refine Form.writableItems_iff.mpr fun f hf => ?_
        obtain ⟨v, -, rfl⟩ := List.mem_map.mp hf
        exact Form.writable_ofJson v
      · exact Field.written_optional fun n _ => (Codec.RoundTrips.uint64 n).writable
      · exact Field.written_optional fun n _ => (Codec.RoundTrips.uint64 n).writable
      · exact Field.written_optional fun _ _ => trivial
      · exact Field.written_optional root.minimum
      · exact Field.written_optional root.maximum
    rw [encode_codec]
    exact Form.writableMembers_iff.mpr hwritten.members

/-- A schema with finite bounds makes the round trip. -/
theorem roundTrips (h : s.Everywhere SchemaNode.Faithful)
    (hfinite : s.Everywhere SchemaNode.Finite) : codec.RoundTrips s where
  writable := writable_encode hfinite
  reads := by
    have harrives := (codec_arrives h).reads
    rwa [arriving_eq_self_iff.mpr hfinite] at harrives

/-! ## What does not come back -/

section

variable {a : Arrangement} {origin : Origin}

/-- What is read for a keyword is what was written for it. -/
theorem lookup_of_holds {keyword : String} {d : Sourced Doc}
    (h : (Doc.ofForm ((codec.encode s).arrange a)).Holds keyword d) :
    ∃ f, s.writtenMembers.lookup keyword = some f ∧ d = Sourced.ofForm (f.arrange a) := by
  rw [encode_eq_object] at h
  exact Form.lookup_of_holds s.nodup_writtenMembers h

/-- An enumeration that is read as itself begins no object with the reserved name. -/
theorem bare_of_enum (hs : s.root.Stored)
    (h : (Field.listed "enum" .json).ReadFrom origin
      (Doc.ofForm ((codec.encode s).arrange a)).Holds s.root.enum) : s.root.Bare := by
  intro v hv
  obtain ⟨d, hd, hread⟩ := h
  obtain ⟨f, hf, rfl⟩ := lookup_of_holds hd
  have hwritten := Entries.lookup_of_mem s.nodup_writtenMembers
    (mem_encode_enum (List.ne_nil_of_mem hv))
  obtain rfl : f = Form.array (s.root.enum.map Form.ofJson) :=
    Option.some.inj (hf.symm.trans hwritten)
  have hdocs : (Sourced.ofForm (Form.arrange a (.array (s.root.enum.map Form.ofJson)))).value =
      .array (((s.root.enum.map Form.ofJson).map (Form.arrange a)).map Sourced.ofForm) none := by
    rw [Form.arrange_array, Sourced.ofForm, Doc.ofForm, Doc.ofFormItems_eq]
  obtain ⟨inner, hitems⟩ := Decoder.forall₂_of_list hdocs hread
  simp only [List.map_map, List.forall₂_map_left_iff, List.forall₂_same] at hitems
  have hvalue : Json.ofDoc inner (Doc.ofForm ((Form.ofJson v).arrange a)) = .ok v := hitems v hv
  rw [Form.arrange_ofJson (hs.canonical v hv)] at hvalue
  exact ((Json.ofDoc_eq_self_iff (hs.canonical v hv)).mp hvalue).1

/-- Properties that are read as themselves are read from what was written for each. -/
theorem reads_of_properties {c : Codec Schema} (hs : s.root.Stored)
    (h : (Field.mk "properties" c.entries (.defaulted []) List.isEmpty).ReadFrom origin
      (Doc.ofForm ((codec.encode s).arrange a)).Holds s.root.properties) :
    ∀ e ∈ s.root.properties, ∃ inner,
      (c.decode inner (Sourced.ofForm ((codec.encode e.2).arrange a))).result = .ok e.2 := by
  intro e he
  obtain ⟨d, hd, hread⟩ := h
  obtain ⟨f, hf, rfl⟩ := lookup_of_holds hd
  have hwritten := Entries.lookup_of_mem s.nodup_writtenMembers
    (mem_encode_properties (List.ne_nil_of_mem he))
  obtain rfl : f = Form.object (Entries.mapValues codec.encode s.root.properties) :=
    Option.some.inj (hf.symm.trans hwritten)
  obtain ⟨l, hl, hsame⟩ := Traced.map_eq_ok_iff.mp hread
  obtain ⟨inner, d', hd', hvalue⟩ := Decoder.holds_of_entries hl (Entries.mem_ofList (hsame ▸ he))
  have hkeys : ((Entries.mapValues codec.encode s.root.properties).map (·.1)).Nodup :=
    Entries.nodup_keys_of_sorted (List.pairwise_map.mpr hs.ordered)
  obtain ⟨g, hg, rfl⟩ := Form.lookup_of_holds hkeys hd'
  rw [Entries.lookup_mapValues,
    Entries.lookup_of_mem (Entries.nodup_keys_of_sorted hs.ordered) he] at hg
  obtain rfl := Option.some.inj hg
  exact ⟨inner, hvalue⟩

/-- Items that are read as themselves are read from what was written for them. -/
theorem reads_of_items {c : Codec Schema} {item : Schema} (hitem : s.root.items = some item)
    (h : (Field.optional "items" c).ReadFrom origin
      (Doc.ofForm ((codec.encode s).arrange a)).Holds s.root.items) :
    (c.decode origin (Sourced.ofForm ((codec.encode item).arrange a))).result = .ok item := by
  obtain ⟨d, hd, hread⟩ := h
  obtain ⟨f, hf, rfl⟩ := lookup_of_holds hd
  have hwritten := lookup_items s
  rw [hitem] at hwritten hread
  obtain rfl := Option.some.inj (hf.symm.trans hwritten)
  exact Decoder.result_of_option hread

/-- What a node holds in lists and in nodes under it was read, unless there is nothing. -/
theorem readFrom_of_from {c : Codec Schema} {source : String → Sourced Doc → Prop}
    {row : Row (record c).columns} (h : (record c).fields.From origin source row)
    (hrow : (record c).ofRow row = s) :
    (s.root.properties ≠ [] →
      (Field.mk "properties" c.entries (.defaulted []) List.isEmpty).ReadFrom origin source
        s.root.properties) ∧
    (s.root.items ≠ none → (Field.optional "items" c).ReadFrom origin source s.root.items) ∧
    (s.root.enum ≠ [] → (Field.listed "enum" .json).ReadFrom origin source s.root.enum) := by
  obtain ⟨type, properties, required, items, enum, _, _, _, minimum, maximum, _⟩ := row
  subst hrow
  obtain ⟨-, hproperties, -, hitems, henum, -⟩ := h
  exact ⟨fun hne => hproperties.resolve_right fun habsent => hne (Option.some.inj habsent).symm,
    fun hne => hitems.resolve_right fun habsent => hne (Option.some.inj habsent).symm,
    fun hne => henum.resolve_right fun habsent => hne (Option.some.inj habsent).symm⟩

/-- The induction is on the levels of the reader, one for each node on the way down. -/
theorem bare_of_codecWithin {n : Nat} (h : s.Everywhere SchemaNode.Stored)
    (hread : ((codecWithin n).decode origin
      (Sourced.ofForm ((codec.encode s).arrange a))).result = .ok s) :
    s.Everywhere SchemaNode.Bare := by
  induction n generalizing s origin with
  | zero => cases hread
  | succ n ih =>
    obtain ⟨hroot, hproperties, hitems⟩ := everywhere_iff.mp h
    obtain ⟨inner, row, -, hrow, hfrom⟩ := Record.from_of_decode hread
    obtain ⟨hp, hi, he⟩ := readFrom_of_from hfrom hrow
    refine .intro (fun v hv => ?_) (fun e hmem => ?_) fun item hitem => ?_
    · exact bare_of_enum hroot (he (List.ne_nil_of_mem hv)) v hv
    · obtain ⟨inside, hread'⟩ := reads_of_properties hroot (hp (List.ne_nil_of_mem hmem)) e hmem
      exact ih (hproperties e hmem) hread'
    · have hset : s.root.items ≠ none := Option.ne_none_iff_exists'.mpr ⟨item, hitem⟩
      exact ih (hitems item hitem) (reads_of_items hitem (hi hset))

/-- What comes back lists no object that begins with the reserved name. -/
theorem bare_of_decode (h : s.Everywhere SchemaNode.Stored)
    (hread : (codec.decode origin (Sourced.ofForm ((codec.encode s).arrange a))).result = .ok s) :
    s.Everywhere SchemaNode.Bare :=
  bare_of_codecWithin (n := (Sourced.ofForm ((codec.encode s).arrange a)).value.depth + 1) h hread

end

/-! ## When it is read back -/

theorem faithful_iff : s.Everywhere SchemaNode.Faithful ↔
    s.Everywhere SchemaNode.Stored ∧ s.Everywhere SchemaNode.Bare :=
  ⟨fun h => ⟨h.mono fun _ hnode => hnode.toStored, h.mono fun _ hnode => hnode.bare⟩,
    fun ⟨hstored, hbare⟩ => (hstored.and hbare).mono fun _ hnode => ⟨hnode.1, hnode.2⟩⟩

/-- A schema with finite bounds comes back from memory just when no object in its enumerations
begins with the reserved name, and so it does from a text with room for it. In both, each node is an
object with a member for each keyword that is set and no others, whatever the enumerations hold. -/
theorem keywords_come_back (h : s.Everywhere SchemaNode.Stored)
    (hfinite : s.Everywhere SchemaNode.Finite) :
    ∃ v, (codec.encode s).toJson = .ok v ∧
      ((codec.decode.runValue v).result = .ok s ↔ s.Everywhere SchemaNode.Bare) ∧
      ((codec.encode s).depth ≤ Origin.maxDepth →
        ((codec.decode.run (codec.encode s).text.toUTF8).result = .ok s ↔
            s.Everywhere SchemaNode.Bare) ∧
          ((codec.decode.runString (codec.encode s).text).result = .ok s ↔
            s.Everywhere SchemaNode.Bare)) ∧
      ∀ address t, s.at? address = some t → ∀ f ∈ [codec.encode s, Form.ofJson v],
        ∃ members, f.node? address = some (.object members) ∧
          (members.map (·.1)).Perm t.root.keywords := by
  have hordered : s.Ordered := h.mono fun _ => SchemaNode.Stored.ordered
  have hwritable := writable_encode hfinite
  have hround : s.Everywhere SchemaNode.Bare → codec.RoundTrips s := fun hbare =>
    roundTrips (faithful_iff.mpr ⟨h, hbare⟩) hfinite
  obtain ⟨v, hv⟩ := Form.exists_toJson (rawless s)
  have hsorted : Form.ofJson v = (codec.encode s).arrange .byName :=
    Form.ofJson_eq_sorted hwritable (rawless s) hv
  refine ⟨v, hv, ⟨fun hread => ?_, fun hbare => (hround hbare).runValue (rawless s) hv⟩,
    fun hdepth => ⟨⟨fun hread => ?_, fun hbare => (hround hbare).run hdepth⟩,
      fun hread => ?_, fun hbare => (hround hbare).runString hdepth⟩, fun address t ht f hf => ?_⟩
  · rw [Decoder.runValue, Doc.sourced_eq, hsorted] at hread
    exact bare_of_decode h hread
  · have hdecode := (Decoder.runDocument_eq_ok_iff.mp hread).1
    rw [Document.ofBytes_text hwritable] at hdecode
    exact bare_of_decode (a := .written) h hdecode
  · have hdecode := (Decoder.runDocument_eq_ok_iff.mp hread).1
    rw [Document.ofString_text hwritable] at hdecode
    exact bare_of_decode (a := .written) h hdecode
  · rcases List.mem_pair.mp hf with rfl | rfl
    · exact exists_members hordered ht .written
    · exact hsorted ▸ exists_members hordered ht .byName

/-- A text with a bound, which is not well-shaped, among the items of a property. -/
theorem keywords_come_back_misplaced :
    let words : Schema := .node .string [] [] none [.object [("b", .null)]] (some 1) none (some "^a")
      (some 0.5) none
    let s : Schema := (Schema.ofType .object).withProperty "words" (.array words)
    s.Everywhere SchemaNode.Stored ∧ s.Everywhere SchemaNode.Finite ∧
      s.at? [.property "words", .items] = some words ∧
      (codec.decode.run (codec.encode s).text.toUTF8).result = .ok s ∧
      ∃ v, (codec.encode s).toJson = .ok v ∧ (codec.decode.runValue v).result = .ok s ∧
        ∃ members, (Form.ofJson v).node? [.property "words", .items] = some (.object members) ∧
          (members.map (·.1)).Perm ["type", "enum", "minLength", "pattern", "minimum"] := by
  intro words s
  have hwords : words.Everywhere SchemaNode.Faithful := by
    refine .intro ⟨⟨.nil, fun v hv => ?_⟩, fun v hv => ?_⟩ nofun nofun
    · exact List.mem_singleton.mp hv ▸ (by decide)
    · exact List.mem_singleton.mp hv ▸ (by decide)
  have hlist : (Schema.array words).Everywhere SchemaNode.Faithful :=
    .intro ⟨⟨.nil, nofun⟩, nofun⟩ nofun fun item hitem => Option.some.inj hitem ▸ hwords
  have hs : s.Everywhere SchemaNode.Faithful :=
    .intro ⟨⟨List.pairwise_singleton .., nofun⟩, nofun⟩
      (fun e he => List.mem_singleton.mp he ▸ hlist) nofun
  have hbound : words.Everywhere SchemaNode.Finite :=
    .intro ⟨fun x hx => Option.some.inj hx ▸ (by decide +kernel), nofun⟩ nofun nofun
  have hbounds : (Schema.array words).Everywhere SchemaNode.Finite :=
    .intro ⟨nofun, nofun⟩ nofun fun item hitem => Option.some.inj hitem ▸ hbound
  have hfinite : s.Everywhere SchemaNode.Finite :=
    .intro ⟨nofun, nofun⟩ (fun e he => List.mem_singleton.mp he ▸ hbounds) nofun
  have hat : s.at? [.property "words", .items] = some words := rfl
  obtain ⟨hstored, hbare⟩ := faithful_iff.mp hs
  obtain ⟨v, hv, hmemory, htext, hmembers⟩ := keywords_come_back hstored hfinite
  exact ⟨hstored, hfinite, hat, (htext (by decide)).1.mpr hbare, v, hv, hmemory.mpr hbare,
    hmembers _ words hat _ (List.mem_cons_of_mem _ List.mem_cons_self)⟩

/-- An enumeration with an object that begins with the reserved name is written, and not read back:
not from memory, and not from its text. -/
theorem embedded_value_lost :
    let value : Json := .object [(Doc.embeddedName, .number (.integer 5 (by decide))),
      ("a", .number (.integer 1 (by decide)))]
    let s : Schema := .node .string [] [] none [value] none none none none none
    s.Everywhere SchemaNode.Stored ∧ s.Everywhere SchemaNode.Finite ∧
      (codec.encode s).depth ≤ Origin.maxDepth ∧
      (∃ v e, (codec.encode s).toJson = .ok v ∧ (codec.decode.runValue v).result = .error e) ∧
      (codec.decode.runString (codec.encode s).text).found = none := by
  intro value s
  have hstored : s.Everywhere SchemaNode.Stored :=
    .intro ⟨.nil, fun v hv => List.mem_singleton.mp hv ▸ (by decide)⟩ nofun nofun
  exact ⟨hstored, .intro ⟨nofun, nofun⟩ nofun nofun, by decide, ⟨_, _, rfl, rfl⟩,
    Option.isNone_iff_eq_none.mp (by decide +kernel)⟩

end Schema

end ContextProtocol
