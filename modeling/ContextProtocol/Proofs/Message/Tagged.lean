import ContextProtocol.Message.Tagged
import ContextProtocol.Proofs.Json.Recovered
import ContextProtocol.Proofs.Shape.RecordTrip

/-!
# Tagged objects that read what they write

A variant is written with its tag first and its members after it. In memory the tag stands among
the members, in the order of the names, and the variant is read from the whole object, where the
tag is a member that no field has the name of.

Results:
* `tagging_taggedObject`: what becomes of every tag and body, and `taggedObject_eq_ok_iff`: what it
  takes to go under a tag.
* `encodeTagged_eq_ok`: what is written is the tag and then the members of the body.
* `toJson_taggedForm`: the written object is the object in memory.
* `erase_taggedObject`: without the tag, the object in memory is the body.
* `recovered_taggedObject`: the object comes back from its text when the body does.
* `Record.Taggable`: records that may go under a tag, with `taggedObject_ok`.
* `splitTag_taggedObject`, `requireTag_taggedObject`, `Record.Taggable.decodeVariant`: the tag is
  found again, and under it the variant.
-/
namespace ContextProtocol

variable {field tag : String} {body : Form} {object : Dict Json}

/-- What becomes of a tag and a body. No two of the four cases have a tag and a body in common. -/
inductive Tagging (field tag : String) (body : Form) : Except EncodeError (Dict Json) → Prop
  | nameless (htag : tag = "") : Tagging field tag body (.error (.unpopulatedVariant field))
  | shapeless {e : ShapeError} (htag : tag ≠ "")
      (hbody : ∀ members, body.toJson ≠ .ok (.object members)) :
      Tagging field tag body (.error (.json e))
  | collides {members : List (String × Json)} (htag : tag ≠ "")
      (hbody : body.toJson = .ok (.object members)) (hfield : field ∈ members.map (·.1)) :
      Tagging field tag body (.error (.discriminatorMismatch field tag))
  | tagged {members : List (String × Json)} (htag : tag ≠ "")
      (hbody : body.toJson = .ok (.object members)) (hfield : field ∉ members.map (·.1)) :
      Tagging field tag body (.ok (.ofList ((field, .string tag) :: members)))

theorem tagging_taggedObject (field tag : String) (body : Form) :
    Tagging field tag body (taggedObject field tag body) := by
  unfold taggedObject
  split
  · rename_i htag
    exact .nameless (String.isEmpty_iff.mp htag)
  · rename_i htag
    have hne : tag ≠ "" := fun h => htag (String.isEmpty_iff.mpr h)
    split
    · rename_i e h
      exact .shapeless hne fun members hbody => by cases h.symm.trans hbody
    · rename_i members h
      split
      · rename_i hlookup
        refine .collides hne h (Decidable.byContradiction fun hfield => ?_)
        rw [Entries.lookup_eq_none_iff.mpr hfield] at hlookup
        cases hlookup
      · rename_i hlookup
        exact .tagged hne h (Entries.lookup_eq_none_iff.mp (Option.not_isSome_iff_eq_none.mp hlookup))
    · rename_i v hv h
      refine .shapeless hne fun members hbody => ?_
      cases h.symm.trans hbody
      exact hv members rfl

theorem taggedObject_eq_ok_iff : taggedObject field tag body = .ok object ↔
    tag ≠ "" ∧ ∃ members, body.toJson = .ok (.object members) ∧ members.lookup field = none ∧
      object = .ofList ((field, .string tag) :: members) := by
  have houtcome := tagging_taggedObject field tag body
  generalize taggedObject field tag body = outcome at houtcome
  constructor
  · rintro rfl
    cases houtcome with
    | tagged htag hbody hfield =>
      exact ⟨htag, _, hbody, Entries.lookup_eq_none_iff.mpr hfield, rfl⟩
  · rintro ⟨htag, members, hbody, hlookup, rfl⟩
    cases houtcome with
    | nameless h => exact absurd h htag
    | shapeless _ h => exact absurd hbody (h members)
    | collides _ h hfield =>
      cases h.symm.trans hbody
      exact absurd hfield (Entries.lookup_eq_none_iff.mp hlookup)
    | tagged _ h _ =>
      cases h.symm.trans hbody
      rfl

/-- The same of a body with known members. -/
theorem taggedObject_of_toJson {members : List (String × Json)}
    (hmembers : body.toJson = .ok (.object members)) : taggedObject field tag body = .ok object ↔
      tag ≠ "" ∧ field ∉ members.map (·.1) ∧ object = .ofList ((field, .string tag) :: members) := by
  rw [taggedObject_eq_ok_iff]
  refine and_congr_right fun _ => ⟨?_, fun ⟨hfield, hobject⟩ =>
    ⟨members, hmembers, Entries.lookup_eq_none_iff.mpr hfield, hobject⟩⟩
  rintro ⟨found, hfound, hlookup, hobject⟩
  cases hfound.symm.trans hmembers
  exact ⟨Entries.lookup_eq_none_iff.mp hlookup, hobject⟩

section Written

variable {members : List (String × Json)} (hbody : body.Writable) (hraws : body.raws = [])
  (hmembers : body.toJson = .ok (.object members))
include hbody hraws hmembers

/-- The members of the body are written as they are in memory. -/
theorem taggedForm_eq (field tag : String) :
    taggedForm field tag body = .object ((field, .string tag) :: Form.ofMembers members) := by
  rw [taggedForm, ← Form.ofJson_eq_sorted hbody hraws hmembers]
  rfl

theorem writable_taggedForm (field tag : String) : (taggedForm field tag body).Writable := by
  rw [taggedForm_eq hbody hraws hmembers]
  exact ⟨trivial, Form.writable_ofMembers members⟩

theorem plain_taggedForm (hfield : field ≠ Doc.embeddedName) (hp : body.Plain) :
    (taggedForm field tag body).Plain := by
  have hsorted := hp.sorted
  rw [← Form.ofJson_eq_sorted hbody hraws hmembers] at hsorted
  rw [taggedForm_eq hbody hraws hmembers]
  exact ⟨hfield, trivial, hsorted⟩

/-- The tag makes nothing deeper. -/
theorem depth_taggedForm_le (field tag : String) :
    (taggedForm field tag body).depth ≤ body.depth := by
  have hsorted := Form.depth_sorted_le body
  rw [← Form.ofJson_eq_sorted hbody hraws hmembers] at hsorted
  rw [Form.ofJson, Form.depth] at hsorted
  rw [taggedForm_eq hbody hraws hmembers]
  show max 0 (Form.depthMembers (Form.ofMembers members)) + 1 ≤ body.depth
  omega

end Written

/-- The tag in front of the members stands for the object in memory. -/
theorem toJson_tagged {members : List (String × Json)} (hmembers : body.toJson = .ok (.object members))
    (h : taggedObject field tag body = .ok object) :
    (Form.ofJson (.object ((field, .string tag) :: members))).toJson =
      .ok (.object object.entries) := by
  obtain ⟨-, -, rfl⟩ := (taggedObject_of_toJson hmembers).mp h
  have hcanonical := Form.canonical_toJson body _ hmembers
  rw [Form.ofJson, Form.ofMembers, Form.toJson, Form.toJsonMembers, Form.ofJson, Form.toJson,
    Outcome.ok_bind, Form.toJsonMembers_ofMembers members hcanonical.2]
  rfl

/-- The written object is the object in memory. -/
theorem toJson_taggedForm (hbody : body.Writable) (hraws : body.raws = [])
    (h : taggedObject field tag body = .ok object) :
    (taggedForm field tag body).toJson = .ok (.object object.entries) := by
  obtain ⟨-, members, hmembers, -, -⟩ := taggedObject_eq_ok_iff.mp h
  rw [taggedForm_eq hbody hraws hmembers]
  exact toJson_tagged hmembers h

/-- In memory, the object holds the tag and the members of the body. -/
theorem mem_taggedObject_iff {members : List (String × Json)}
    (hmembers : body.toJson = .ok (.object members)) (hlookup : members.lookup field = none)
    {e : String × Json} :
    e ∈ Entries.ofList ((field, .string tag) :: members) ↔
      e = (field, .string tag) ∨ e ∈ members := by
  have hcanonical := Form.canonical_toJson body _ hmembers
  rw [Entries.mem_ofList_iff, List.mem_cons]
  rw [List.map_cons, List.nodup_cons]
  exact ⟨Entries.lookup_eq_none_iff.mp hlookup, Entries.nodup_keys_of_sorted hcanonical.1⟩

/-- In memory, the tag is found under its name. -/
theorem get?_taggedObject (h : taggedObject field tag body = .ok object) :
    object.get? field = some (.string tag) := by
  obtain ⟨-, members, hmembers, hlookup, rfl⟩ := taggedObject_eq_ok_iff.mp h
  exact Entries.lookup_of_mem (Entries.nodup_keys_of_sorted (Entries.sorted_ofList _))
    ((mem_taggedObject_iff hmembers hlookup).mpr (.inl rfl))

/-- Without the tag, the object in memory is the body. -/
theorem erase_taggedObject (h : taggedObject field tag body = .ok object) :
    body.toJson = .ok (.object (object.erase field).entries) := by
  obtain ⟨-, members, hmembers, hlookup, rfl⟩ := taggedObject_eq_ok_iff.mp h
  have hcanonical := Form.canonical_toJson body _ hmembers
  have hnames : ∀ e ∈ members, e.1 ≠ field := fun e he hname =>
    Entries.lookup_eq_none_iff.mp hlookup (hname ▸ List.mem_map_of_mem (f := (·.1)) he)
  have herased : members = ((Table.ofList ((field, .string tag) :: members)).erase field).entries := by
    refine Entries.eq_of_sorted hcanonical.1 (Table.sorted _) fun e => ?_
    rw [Table.erase, List.mem_filter]
    constructor
    · intro he
      exact ⟨(mem_taggedObject_iff hmembers hlookup).mpr (.inr he),
        decide_eq_true (hnames e he)⟩
    · rintro ⟨he, hname⟩
      rcases (mem_taggedObject_iff hmembers hlookup).mp he with rfl | he
      · exact absurd rfl (of_decide_eq_true hname)
      · exact he
  rw [← herased]
  exact hmembers

/-- What is written is the tag and then the members of the body. -/
theorem encodeTagged_eq_ok {members : List (String × Json)}
    (hmembers : body.toJson = .ok (.object members)) (h : taggedObject field tag body = .ok object) :
    encodeTagged field tag body = .ok (Form.ofJson (.object ((field, .string tag) :: members))) := by
  have herased : members = (object.erase field).entries :=
    Json.object.inj (Except.ok.inj (hmembers.symm.trans (erase_taggedObject h)))
  unfold encodeTagged
  rw [h, herased]
  rfl

/-- That is the form of the body behind the tag, when nothing changes on the way into memory. -/
theorem encodeTagged_eq (hbody : body.Writable) (hraws : body.raws = [])
    (h : taggedObject field tag body = .ok object) :
    encodeTagged field tag body = .ok (taggedForm field tag body) := by
  rw [encodeTagged_eq_ok (erase_taggedObject h) h, taggedForm_eq hbody hraws (erase_taggedObject h)]
  rfl

/-- The written object stands for itself when the values of the body do. -/
theorem bare_taggedForm {members : List (String × Json)} (hbody : body.Writable)
    (hraws : body.raws = []) (hmembers : body.toJson = .ok (.object members))
    (hfield : field ≠ Doc.embeddedName) (hvalues : ∀ m ∈ members, (Form.ofJson m.2).Bare) :
    (taggedForm field tag body).Bare := by
  rw [taggedForm_eq hbody hraws hmembers, Form.ofMembers_eq]
  refine ⟨hfield, trivial, Form.bareMembers_iff.mpr fun m hm => ?_⟩
  obtain ⟨e, he, rfl⟩ := List.mem_map.mp hm
  exact hvalues e he

/-- The object with the tag comes back from its text when the body does. -/
theorem recovered_taggedObject (hbody : body.Writable) (hraws : body.raws = [])
    (h : taggedObject field tag body = .ok object) (hfield : field ≠ Doc.embeddedName)
    (hrecovered : ∀ v, body.toJson = .ok v → v.Recovered)
    (hdepth : (taggedForm field tag body).depth ≤ Origin.maxDepth) :
    (Json.object object.entries).Recovered := by
  have hjson := toJson_taggedForm hbody hraws h
  obtain ⟨-, members, hmembers, hlookup, rfl⟩ := taggedObject_eq_ok_iff.mp h
  have hback := hrecovered _ hmembers
  have hform : (taggedForm field tag body).raws = [] := by
    rw [taggedForm_eq hbody hraws hmembers]
    exact Form.raws_ofMembers members
  have hwritable := writable_taggedForm hbody hraws hmembers field tag
  refine Json.recovered_of_members (Table.sorted _) (fun m hm => ?_) (fun v hv => ?_) ?_
  · rcases (mem_taggedObject_iff hmembers hlookup).mp hm with rfl | hm
    · exact Json.recovered_iff.mpr ⟨trivial, trivial, Nat.zero_le _⟩
    · exact hback.member hm
  · rcases (mem_taggedObject_iff hmembers hlookup).mp hv with heq | hv
    · exact absurd (congrArg Prod.fst heq).symm hfield
    · obtain ⟨m, hm, hlt⟩ := hback.lt_embeddedName hv
      exact ⟨m, (mem_taggedObject_iff hmembers hlookup).mpr (.inr hm), hlt⟩
  · rw [Form.ofJson_eq_sorted hwritable hform hjson]
    exact Nat.le_trans (Form.depth_sorted_le _) hdepth

/-! ## The tag -/

/-- An object of values that are read from memory as themselves is read as itself. -/
theorem Decoder.dict_json {d : Dict Json}
    (h : ∀ e ∈ d.entries, Json.ofDoc .value (Doc.ofForm (Form.ofJson e.2)) = .ok e.2) :
    ((Decoder.dict .json).runValue (.object d.entries)).result = .ok d := by
  have hmembers : (Decoder.members .json .value none
      (Doc.ofFormMembers (Entries.mapValues Form.ofJson d.entries))).result = .ok d.entries :=
    (Decoder.members_ofForm (k := id) h).trans (congrArg Except.ok (List.map_id _))
  have hread : ((Decoder.dict .json).runValue (.object d.entries)).result =
      Table.ofList <$> (Decoder.members .json .value none
        (Doc.ofFormMembers (Entries.mapValues Form.ofJson d.entries))).result := by
    rw [Decoder.runValue, Doc.sourced_eq, Form.ofJson, Form.ofMembers_eq]
    refine (Traced.result_map _ _).trans (congrArg _ ?_)
    exact Traced.result_bind _ _
  rw [hread, hmembers]
  exact congrArg Except.ok (Table.ext (Entries.ofList_of_sorted d.sorted))

/-- The values of an object that stands for itself stand for themselves. -/
theorem Json.kept_of_bare {members : List (String × Json)} (hc : (Json.object members).Canonical)
    (hbare : (Form.ofJson (.object members)).Bare) :
    ∀ e ∈ members, Json.ofDoc .value (Doc.ofForm (Form.ofJson e.2)) = .ok e.2 := by
  intro e he
  rw [Form.ofJson, Form.ofMembers_eq] at hbare
  have hmem := List.mem_map_of_mem (f := fun e => (e.1, Form.ofJson e.2)) he
  have hvalue := (Form.bare_object_iff.mp hbare).2 _ hmem
  exact (Json.ofDoc_eq_self_iff (Json.canonicalMembers_iff.mp hc.2 e he)).mpr ⟨hvalue, trivial⟩

/-- The tag of an object that stands for itself. -/
theorem splitTag_object (hc : (Json.object object.entries).Canonical)
    (hbare : (Form.ofJson (.object object.entries)).Bare) :
    splitTag field (.object object.entries) =
      match object.get? field with
      | none => .ok (none, object)
      | some (.string tag) => .ok (some tag, object)
      | some _ => .error (.missingDiscriminator field) := by
  unfold splitTag
  rw [Decoder.dict_json (Json.kept_of_bare hc hbare), Outcome.mapError_ok, Outcome.ok_bind]
  rfl

theorem splitTag_taggedObject (h : taggedObject field tag body = .ok object)
    (hkept : ∀ e ∈ object.entries, Json.ofDoc .value (Doc.ofForm (Form.ofJson e.2)) = .ok e.2) :
    splitTag field (.object object.entries) = .ok (some tag, object) := by
  unfold splitTag
  rw [Decoder.dict_json hkept, Outcome.mapError_ok, Outcome.ok_bind]
  simp only [get?_taggedObject h]
  rfl

/-- A value has no tag when it is no object, or when its tag is no string. -/
theorem splitTag_eq_error {v : Json} {e : DecodeError} (h : splitTag field v = .error e) :
    (∃ shape, e = .json shape) ∨ e = .missingDiscriminator field := by
  unfold splitTag at h
  rcases Outcome.bind_eq_error_iff.mp h with h | ⟨object, -, h⟩
  · cases hread : ((Decoder.dict .json).runValue v).result with
    | ok object =>
      rw [hread] at h
      cases h
    | error shape =>
      rw [hread] at h
      cases h
      exact .inl ⟨shape, rfl⟩
  · split at h
    · cases h
    · cases h
    · cases h
      exact .inr rfl

/-- What a value is split into is the whole object, if the value comes back from its text. -/
theorem eq_object_of_splitTag {v : Json} (hv : v.Recovered) {tag? : Option String}
    (h : splitTag field v = .ok (tag?, object)) : v = .object object.entries := by
  unfold splitTag at h
  obtain ⟨found, hfound, h⟩ := Outcome.bind_eq_ok_iff.mp h
  rw [Outcome.mapError_eq_ok_iff] at hfound
  have hobject : found = object := by
    split at h
    · cases h
      rfl
    · cases h
      rfl
    · cases h
  subst hobject
  cases v with
  | object members =>
    have hread := Decoder.dict_json (d := ⟨members, hv.canonical.1⟩) fun e he =>
      (hv.member he).ofDoc trivial
    cases hread.symm.trans hfound
    rfl
  | _ => cases hfound

/-- The tag of an object is found again. -/
theorem requireTag_taggedObject (h : taggedObject field tag body = .ok object)
    (hkept : ∀ e ∈ object.entries, Json.ofDoc .value (Doc.ofForm (Form.ofJson e.2)) = .ok e.2) :
    requireTag field (.object object.entries) = .ok (tag, object) := by
  unfold requireTag
  rw [splitTag_taggedObject h hkept]
  rfl

/-! ## The variant -/

namespace Record

variable {R : Type} {r : Record R} {v : R}

/-- A value of a record that may go under a tag: it makes the round trip, holds no payload, and no
field has the name of the tag. -/
structure Taggable (r : Record R) (field : String) (v : R) : Prop where
  names : r.fields.names.Nodup
  hold : r.fields.Hold (r.toRow v)
  raws : (r.codec.encode v).raws = []
  other : field ∉ r.fields.names
  exact : r.exact = false

/-- In memory, the members of a record are the written ones in the order of their names. -/
theorem Taggable.toJson (h : r.Taggable field v) : ∃ members,
    (r.codec.encode v).toJson = .ok (.object members) ∧
      Entries.mapValues Form.ofJson members =
        Entries.ofList (Entries.mapValues Form.sorted (r.fields.encode (r.toRow v))) := by
  have hf : (r.codec.encode v).Writable :=
    Form.writableMembers_iff.mpr h.hold.written.members
  obtain ⟨j, hj⟩ := Form.exists_toJson h.raws
  have hsorted := Form.ofJson_eq_sorted hf h.raws hj
  have hobject : ∃ members, j = .object members := by
    have hj' : (Form.toJsonMembers (r.fields.encode (r.toRow v))).map Json.ofMembers = .ok j := hj
    obtain ⟨found, -, rfl⟩ := Outcome.map_eq_ok_iff.mp hj'
    exact ⟨_, rfl⟩
  obtain ⟨members, rfl⟩ := hobject
  refine ⟨members, hj, ?_⟩
  rw [← Form.ofMembers_eq, ← Form.sortedMembers_eq]
  exact Form.object.inj hsorted

/-- A record may go under any tag. -/
theorem Taggable.taggedObject_ok (h : r.Taggable field v) (htag : tag ≠ "") :
    ∃ object, taggedObject field tag (r.codec.encode v) = .ok object := by
  obtain ⟨members, hj, hsame⟩ := h.toJson
  refine ⟨_, (taggedObject_of_toJson hj).mpr ⟨htag, fun hmem => ?_, rfl⟩⟩
  obtain ⟨e, he, rfl⟩ := List.mem_map.mp hmem
  have hmapped : (e.1, Form.ofJson e.2) ∈ Entries.mapValues Form.ofJson members :=
    List.mem_map_of_mem (f := fun e => (e.1, Form.ofJson e.2)) he
  rw [hsame] at hmapped
  obtain ⟨w, hw, heq⟩ := List.mem_map.mp (Entries.mem_ofList hmapped)
  have hname : w.1 = e.1 := congrArg Prod.fst heq
  refine h.other (hname ▸ ?_)
  exact (Fields.encode_sublist r.fields (r.toRow v)).mem (List.mem_map_of_mem hw)

/-- The variant is read from the object that holds its tag. -/
theorem Taggable.decodeVariant {Step : Type} [Validated R Step] (h : r.Taggable field v)
    (hv : Valid v) (hobject : taggedObject field tag (r.codec.encode v) = .ok object) :
    (decodeVariant r.codec tag object).result = .ok v := by
  obtain ⟨members, hj, hsame⟩ := h.toJson
  obtain ⟨-, hfield, rfl⟩ := (taggedObject_of_toJson hj).mp hobject
  have hlookup := Entries.lookup_eq_none_iff.mpr hfield
  have hkeys : ((Entries.mapValues Form.sorted (r.fields.encode (r.toRow v))).map (·.1)).Nodup := by
    rw [Entries.mapValues, List.map_map]
    exact (Fields.encode_sublist r.fields (r.toRow v)).nodup h.names
  have hreads : r.codec.Reads (.object (Entries.mapValues Form.ofJson
      (Entries.ofList ((field, .string tag) :: members)))) v := by
    refine reads_members h.names h.hold.arrive .byName ?_ (fun e he => ?_) fun m hm => ?_
    · rw [Entries.mapValues, List.map_map]
      exact Entries.nodup_keys_of_sorted (Entries.sorted_ofList _)
    · have hmem : (e.1, e.2.sorted) ∈ Entries.mapValues Form.ofJson members := by
        rw [hsame, Entries.mem_ofList_iff hkeys]
        exact List.mem_map_of_mem (f := fun e => (e.1, Form.sorted e.2)) he
      obtain ⟨w, hw, heq⟩ := List.mem_map.mp hmem
      have hw' : w ∈ Entries.ofList ((field, .string tag) :: members) :=
        (mem_taggedObject_iff hj hlookup).mpr (.inr hw)
      exact heq ▸ List.mem_map_of_mem (f := fun e => (e.1, Form.ofJson e.2)) hw'
    · obtain ⟨w, hw, rfl⟩ := List.mem_map.mp hm
      rcases (mem_taggedObject_iff hj hlookup).mp hw with rfl | hw
      · exact .inr ⟨h.exact, h.other, trivial⟩
      · have hmem : (w.1, Form.ofJson w.2) ∈ Entries.mapValues Form.ofJson members :=
          List.mem_map_of_mem (f := fun e => (e.1, Form.ofJson e.2)) hw
        rw [hsame] at hmem
        exact .inl (Entries.mem_ofList hmem)
  have hread : (r.codec.decode.runValue
      (.object (Table.ofList ((field, .string tag) :: members)).entries)).result = .ok v := by
    rw [Decoder.runValue, Doc.sourced_eq, Form.ofJson, Form.ofMembers_eq]
    exact hreads .value trivial
  have hvalid : validate v = .ok () := hv
  unfold ContextProtocol.decodeVariant
  simp only [hread, hvalid]
  rfl

end Record

/-- A variant is what is found under its tag, and then its rules are looked at: the outcome, when
only the kind of an error counts. -/
theorem mapError_decodeVariant {α Step κ : Type} [Validated α Step] {codec : Codec α}
    {kind : DecodeError → κ} {malformed broken : κ}
    (hmalformed : ∀ e, kind (.malformedVariant tag e) = malformed)
    (hbroken : ∀ e, kind (.invalidVariant tag e) = broken) {rules : α → Bool}
    (hrules : ∀ a : α, rules a = true ↔ Valid a) :
    (decodeVariant codec tag object).result.mapError kind =
      match (codec.decode.runValue (.object object.entries)).found with
      | none => .error malformed
      | some a => if rules a then .ok a else .error broken := by
  rw [decodeVariant, Traced.found]
  cases (codec.decode.runValue (.object object.entries)).result with
  | error e => exact congrArg Except.error (hmalformed e)
  | ok a =>
    cases herror : validate a with
    | ok u =>
      have hrule : rules a = true := (hrules a).mpr herror
      simp [herror, hrule]
    | error e =>
      have hrule : rules a = false := by
        refine Bool.eq_false_iff.mpr fun h => ?_
        cases herror.symm.trans ((hrules a).mp h)
      simp [herror, hrule, hbroken]

/-- A variant that was read obeys its rules. -/
theorem valid_of_decodeVariant {α Step : Type} [Validated α Step] {codec : Codec α} {v : α}
    (h : (decodeVariant codec tag object).result = .ok v) : Valid v := by
  unfold decodeVariant at h
  dsimp only at h
  split at h
  · cases h
  · obtain ⟨u, hvalid, rfl⟩ := Outcome.map_eq_ok_iff.mp h
    exact Outcome.mapError_eq_ok_iff.mp hvalid

/-- A variant is refused for its shape or for its rules. -/
theorem decodeVariant_eq_error {α Step : Type} [Validated α Step] {codec : Codec α}
    {e : DecodeError} (h : (decodeVariant codec tag object).result = .error e) :
    (∃ shape, e = .malformedVariant tag shape) ∨ ∃ rule, e = .invalidVariant tag rule := by
  unfold decodeVariant at h
  dsimp only at h
  split at h
  · cases h
    exact .inl ⟨_, rfl⟩
  · rename_i variant _
    cases hvalid : validate variant with
    | ok u =>
      rw [hvalid] at h
      cases h
    | error rule =>
      rw [hvalid] at h
      cases h
      exact .inr ⟨rule, rfl⟩

end ContextProtocol
