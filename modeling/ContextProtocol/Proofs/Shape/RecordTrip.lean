import ContextProtocol.Proofs.Shape.RoundTrip

/-!
# Records that read what they write

A reader of a record fills one slot for each member, in whatever order the members come, and then
takes the slots together as a row. What carries the argument is the state in between: after some
members, the slots of exactly those fields are filled, each with the value of its column.

Results:
* `store_fill`: a member fills the slot of its field and no other.
* `storeAll_fill`: all members fill the slots of all fields that are written, and members that are
  no fields are passed over.
* `finish_fill`: a field that is left out is made up for by its stand-in.
* `Record.arrives`: a record arrives field by field.
* `Record.roundTrips`: a record makes the round trip when every field does that is written.
-/
namespace ContextProtocol

namespace Fields

/-- The slots after the members with some names were read: each field among them has its value. -/
def fill (read : List String) : {columns : List Type} → Fields columns → Row columns → Slots columns
  | _, .nil, _ => ()
  | _, .cons field rest, (value, row) =>
    (if field.name ∈ read then some value else none, fill read rest row)

/-- The document under a name is read as the value in the column of that name. -/
def ReadsMember (origin : Origin) (name : String) (doc : Sourced Doc) :
    {columns : List Type} → Fields columns → Row columns → Prop
  | _, .nil, _ => False
  | _, .cons field rest, (value, row) =>
    if name = field.name then (field.codec.decode origin doc).result = .ok value
    else ReadsMember origin name doc rest row

/-- A member fills the slot of its field, or no field has its name and it may be passed over. -/
def Takes {columns : List Type} (exact : Bool) (origin : Origin) (m : String × Form)
    (fields : Fields columns) (row : Row columns) : Prop :=
  ReadsMember origin m.1 (Sourced.ofForm m.2) fields row ∨
    exact = false ∧ m.1 ∉ fields.names ∧ m.2.Writable

/-- Every field was read, or is left out with its stand-in for a value. -/
def Covers (read : List String) : {columns : List Type} → Fields columns → Row columns → Prop
  | _, .nil, _ => True
  | _, .cons field rest, (value, row) =>
    (field.name ∈ read ∨ field.absent? = some value) ∧ Covers read rest row

variable {columns : List Type} {fields : Fields columns} {row : Row columns}

theorem fill_nil (fields : Fields columns) (row : Row columns) :
    fields.fill [] row = fields.noSlots := by
  induction fields with
  | nil => rfl
  | cons field rest ih =>
    obtain ⟨value, row⟩ := row
    simp only [fill, noSlots, ih row, List.not_mem_nil, if_false]
    rfl

/-- Only the names of fields count. -/
theorem fill_congr {read read' : List String}
    (h : ∀ name ∈ fields.names, name ∈ read ↔ name ∈ read') :
    fields.fill read row = fields.fill read' row := by
  induction fields with
  | nil => rfl
  | cons field rest ih =>
    obtain ⟨value, row⟩ := row
    have hname : field.name ∈ read ↔ field.name ∈ read' := h field.name List.mem_cons_self
    have hrest : rest.fill read row = rest.fill read' row :=
      ih fun name hn => h name (List.mem_cons_of_mem _ hn)
    simp only [fill, hname, hrest]
    rfl

/-- A member fills the slot of its field and no other. -/
theorem store_fill {origin : Origin} {name : String} {doc : Sourced Doc} {read : List String}
    (hnames : fields.names.Nodup) (h : ReadsMember origin name doc fields row)
    (hnew : name ∉ read) :
    ∃ step, fields.store origin name doc (fields.fill read row) = some step ∧
      step.result = .ok (fields.fill (name :: read) row) := by
  induction fields with
  | nil => exact h.elim
  | @cons α columns field rest ih =>
    obtain ⟨value, row⟩ := row
    rw [names, List.nodup_cons] at hnames
    rw [ReadsMember] at h
    by_cases hname : name = field.name
    · rw [if_pos hname] at h
      have hempty : field.name ∉ read := fun hmem => hnew (hname ▸ hmem)
      have hother : rest.fill (name :: read) row = rest.fill read row := fill_congr fun n hn => by
        rw [List.mem_cons, or_iff_right]
        rintro rfl
        exact hnames.1 (hname ▸ hn)
      have hfill : fill (name :: read) (.cons field rest) (value, row) =
          (some value, rest.fill read row) := by
        rw [fill, hother, if_pos (hname ▸ List.mem_cons_self)]
      refine ⟨(fun v => ((some v, rest.fill read row) : Slots (α :: columns))) <$>
        field.codec.decode origin doc, ?_, ?_⟩
      · simp only [store, fill, if_pos hname, if_neg hempty, Option.isSome_none,
          Bool.false_eq_true, if_false]
      · refine (Traced.result_map _ _).trans ?_
        rw [h, hfill]
        rfl
    · rw [if_neg hname] at h
      obtain ⟨step, hstore, hstep⟩ := ih hnames.2 h
      have hslot : field.name ∈ name :: read ↔ field.name ∈ read := by
        rw [List.mem_cons, or_iff_right fun heq => hname heq.symm]
      have hfill : fill (name :: read) (.cons field rest) (value, row) =
          (if field.name ∈ read then some value else none, rest.fill (name :: read) row) := by
        simp only [fill, hslot]
        rfl
      refine ⟨(fun s => ((if field.name ∈ read then some value else none, s) :
        Slots (α :: columns))) <$> step, ?_, ?_⟩
      · simp only [store, fill, if_neg hname, hstore]
        rfl
      · refine (Traced.result_map _ _).trans ?_
        rw [hstep, hfill]
        rfl

/-- No field has the name of an unknown member. -/
theorem store_eq_none {origin : Origin} {name : String} {doc : Sourced Doc}
    (hname : name ∉ fields.names) (slots : Slots columns) :
    fields.store origin name doc slots = none := by
  induction fields with
  | nil => rfl
  | cons field rest ih =>
    obtain ⟨slot, slots⟩ := slots
    rw [names, List.mem_cons, not_or] at hname
    rw [store, if_neg hname.1, ih hname.2]
    rfl

/-- A member that is read or passed over leaves the slots filled with what was read so far. -/
theorem storeAll_cons (exact : Bool) {origin : Origin} (hnames : fields.names.Nodup)
    {m : String × Form} (h : Takes exact origin m fields row) {read : List String}
    (hnew : m.1 ∉ read) (members : List (String × Form)) :
    (fields.storeAll exact origin none (Doc.ofFormMembers (m :: members))
        (fields.fill read row)).result =
      (fields.storeAll exact origin none (Doc.ofFormMembers members)
        (fields.fill (m.1 :: read) row)).result := by
  obtain ⟨name, f⟩ := m
  have hread : (liftM (Token.sound name).read : Traced ShapeError String).result = .ok name := rfl
  have hdoc : (⟨Doc.ofForm f, Thunk.mk fun _ => some f.text⟩ : Sourced Doc) = Sourced.ofForm f :=
    rfl
  rw [Doc.ofFormMembers, storeAll, Traced.result_bind, hread, Outcome.ok_bind, hdoc]
  rcases h with hreads | ⟨rfl, hname, hf⟩
  · obtain ⟨step, hstore, hstep⟩ := store_fill hnames hreads hnew
    simp only [hstore]
    rw [Traced.result_bind, hstep, Outcome.ok_bind]
  · have hsame : fields.fill (name :: read) row = fields.fill read row := fill_congr fun n hn => by
      rw [List.mem_cons, or_iff_right]
      rintro rfl
      exact hname hn
    have hskip : (Sourced.ofForm f).value.skip = none := Doc.skip_ofForm f hf
    simp only [store_eq_none hname, hskip, hsame]
    rfl

/-- Members with distinct names fill the slots of their fields. -/
theorem storeAll_fill (exact : Bool) {origin : Origin} (hnames : fields.names.Nodup)
    {members : List (String × Form)} (hkeys : (members.map (·.1)).Nodup)
    (h : ∀ m ∈ members, Takes exact origin m fields row) :
    ∀ read : List String, (∀ m ∈ members, m.1 ∉ read) →
      ∃ read', (∀ name, name ∈ read' ↔ name ∈ members.map (·.1) ∨ name ∈ read) ∧
        (fields.storeAll exact origin none (Doc.ofFormMembers members)
          (fields.fill read row)).result = .ok (fields.fill read' row) := by
  induction members with
  | nil =>
    intro read _
    exact ⟨read, fun name => by simp, rfl⟩
  | cons m members ih =>
    intro read hnew
    rw [List.map_cons, List.nodup_cons] at hkeys
    have hstep := storeAll_cons exact hnames (h m List.mem_cons_self)
      (hnew m List.mem_cons_self) members
    have hrest := ih hkeys.2 (fun m hm => h m (List.mem_cons_of_mem _ hm)) (m.1 :: read)
      fun n hn => by
        rw [List.mem_cons, not_or]
        refine ⟨fun heq => hkeys.1 ?_, hnew n (List.mem_cons_of_mem _ hn)⟩
        exact heq ▸ List.mem_map_of_mem (f := (·.1)) hn
    obtain ⟨read', hmem, hall⟩ := hrest
    refine ⟨read', fun n => ?_, hstep.trans hall⟩
    rw [hmem, List.map_cons, List.mem_cons, List.mem_cons]
    constructor
    · rintro (h | h | h)
      · exact .inl (.inr h)
      · exact .inl (.inl h)
      · exact .inr h
    · rintro ((h | h) | h)
      · exact .inr (.inl h)
      · exact .inl h
      · exact .inr (.inr h)

/-- The filled slots are the row. -/
theorem finish_fill {read : List String} (h : Covers read fields row) :
    fields.finish (fields.fill read row) = .ok row := by
  induction fields with
  | nil => rfl
  | cons field rest ih =>
    obtain ⟨value, row⟩ := row
    obtain ⟨hfield, hrest⟩ := h
    simp only [finish, fill]
    by_cases hname : field.name ∈ read
    · simp only [if_pos hname, Outcome.ok_bind, ih hrest]
      rfl
    · have habsent := hfield.resolve_left hname
      simp only [if_neg hname, habsent, Outcome.ok_bind, ih hrest]
      rfl

end Fields

namespace Record

variable {R : Type}

/-- An object whose members fill the row of a value is read as the value, whatever else it
holds. -/
theorem decode_of_takes {r : Record R} {v : R} {origin inner : Origin}
    (henter : origin.enter = .ok inner) (hnames : r.fields.names.Nodup)
    {members : List (String × Form)} (hkeys : (members.map (·.1)).Nodup)
    (htakes : ∀ m ∈ members, Fields.Takes r.exact inner m r.fields (r.toRow v))
    (hcovers : Fields.Covers (members.map (·.1)) r.fields (r.toRow v)) :
    (r.codec.decode origin (Sourced.ofForm (.object members))).result = .ok v := by
  obtain ⟨read, hread, hstore⟩ := Fields.storeAll_fill r.exact hnames hkeys htakes []
    fun m _ h => nomatch h
  have hfill : r.fields.fill read (r.toRow v) =
      r.fields.fill (members.map (·.1)) (r.toRow v) := Fields.fill_congr fun name _ => by
    rw [hread, or_iff_left (List.not_mem_nil)]
  rw [Fields.fill_nil, hfill] at hstore
  have hdecode : (r.codec.decode origin (Sourced.ofForm (.object members))).result =
      (origin.enter >>= fun inner =>
        (r.fields.storeAll r.exact inner none (Doc.ofFormMembers members) r.fields.noSlots).result >>=
          fun slots => r.fields.finish slots >>= fun row => .ok (r.ofRow row)) := by
    refine (Traced.result_bind _ _).trans ?_
    refine congrArg _ (funext fun inner => ?_)
    refine (Traced.result_bind _ _).trans ?_
    refine congrArg _ (funext fun slots => ?_)
    exact Traced.result_bind _ _
  rw [hdecode, henter, Outcome.ok_bind, hstore, Outcome.ok_bind, Fields.finish_fill hcovers,
    Outcome.ok_bind, r.ofRow_toRow]

theorem decode_object {r : Record R} {v : R} (hnames : r.fields.names.Nodup)
    {members : List (String × Form)} (hkeys : (members.map (·.1)).Nodup)
    (htakes : ∀ m ∈ members, ∀ origin : Origin, origin.Admits m.2.depth →
      Fields.Takes r.exact origin m r.fields (r.toRow v))
    (hcovers : Fields.Covers (members.map (·.1)) r.fields (r.toRow v)) :
    r.codec.Reads (.object members) v := by
  intro origin ho
  obtain ⟨inner, henter, hinner⟩ := Origin.Admits.enter ho
  refine decode_of_takes henter hnames hkeys (fun m hm => htakes m hm inner ?_) hcovers
  exact hinner.mono (Form.depthMembers_le_iff.mp (Nat.le_refl _) m hm)

end Record

/-! ## What is written -/

namespace Field

variable {α : Type}

/-- The field is left out with its stand-in for a value, or its value makes the round trip. -/
def Holds (field : Field α) (v : α) : Prop :=
  if field.omitted v then field.absent? = some v else field.codec.RoundTrips v

/-- The field is left out with its stand-in for what arrives, or its value arrives as that. -/
def Arrives (field : Field α) (v w : α) : Prop :=
  if field.omitted v then field.absent? = some w else field.codec.Arrives v w

theorem Holds.written {field : Field α} {v : α} (h : field.Holds v)
    (homit : field.omitted v = false) : (field.codec.encode v).Writable := by
  rw [Holds, homit] at h
  exact h.writable

theorem Arrives.written {field : Field α} {v w : α} (h : field.Arrives v w)
    (homit : field.omitted v = false) : (field.codec.encode v).asWritten.Writable := by
  rw [Arrives, homit] at h
  exact h.writable

theorem Holds.arrives {field : Field α} {v : α} (h : field.Holds v) : field.Arrives v v := by
  unfold Holds at h
  unfold Arrives
  by_cases homit : field.omitted v = true
  · rw [if_pos homit] at h ⊢
    exact h
  · rw [if_neg homit] at h ⊢
    exact h.arrives

end Field

namespace Fields

/-- Every field holds of its column. -/
def Hold : {columns : List Type} → Fields columns → Row columns → Prop
  | _, .nil, _ => True
  | _, .cons field rest, (value, row) => field.Holds value ∧ Hold rest row

/-- Every value of a row arrives as the value in the same column of another row. -/
def Arrive : {columns : List Type} → Fields columns → Row columns → Row columns → Prop
  | _, .nil, _, _ => True
  | _, .cons field rest, (value, row), (arriving, row') =>
    field.Arrives value arriving ∧ Arrive rest row row'

/-- Whatever is written under a name obeys a rule. -/
def Written (P : String → Form → Prop) :
    {columns : List Type} → Fields columns → Row columns → Prop
  | _, .nil, _ => True
  | _, .cons field rest, (value, row) =>
    (field.omitted value = false → P field.name (field.codec.encode value)) ∧ Written P rest row

variable {columns : List Type} {fields : Fields columns} {row row' : Row columns}

theorem Hold.arrive (h : fields.Hold row) : fields.Arrive row row := by
  induction fields with
  | nil => trivial
  | cons field rest ih => exact ⟨Field.Holds.arrives h.1, ih h.2⟩

theorem encode_sublist (fields : Fields columns) (row : Row columns) :
    ((fields.encode row).map (·.1)).Sublist fields.names := by
  induction fields with
  | nil => exact List.Sublist.slnil
  | cons field rest ih =>
    obtain ⟨value, row⟩ := row
    rw [encode, names]
    split
    · exact (ih row).cons _
    · exact (ih row).cons_cons _

theorem Written.members {P : String → Form → Prop} (h : fields.Written P row) :
    ∀ m ∈ fields.encode row, P m.1 m.2 := by
  induction fields with
  | nil => exact fun m hm => nomatch hm
  | cons field rest ih =>
    obtain ⟨value, row⟩ := row
    obtain ⟨hfield, hrest⟩ := h
    intro m hm
    rw [encode] at hm
    split at hm
    · exact ih hrest m hm
    · rename_i homit
      rcases List.mem_cons.mp hm with rfl | hm
      · exact hfield (Bool.eq_false_iff.mpr homit)
      · exact ih hrest m hm

theorem Hold.written (h : fields.Hold row) : fields.Written (fun _ f => f.Writable) row := by
  induction fields with
  | nil => trivial
  | cons field rest ih => exact ⟨Field.Holds.written h.1, ih h.2⟩

theorem Arrive.written (h : fields.Arrive row row') :
    fields.Written (fun _ f => f.asWritten.Writable) row := by
  induction fields with
  | nil => trivial
  | cons field rest ih => exact ⟨Field.Arrives.written h.1, ih h.2⟩

/-- Every member that is written is read as what arrives in its column. -/
theorem encode_reads (a : Arrangement) (hnames : fields.names.Nodup) (h : fields.Arrive row row') :
    ∀ m ∈ fields.encode row, ∀ origin : Origin, origin.Admits (m.2.arrange a).depth →
      ReadsMember origin m.1 (Sourced.ofForm (m.2.arrange a)) fields row' := by
  induction fields with
  | nil => exact fun m hm => nomatch hm
  | cons field rest ih =>
    obtain ⟨value, row⟩ := row
    obtain ⟨arriving, row'⟩ := row'
    obtain ⟨hfield, hrest⟩ := h
    rw [names, List.nodup_cons] at hnames
    intro m hm origin ho
    have hlater : m ∈ rest.encode row → ReadsMember origin m.1 (Sourced.ofForm (m.2.arrange a))
        (.cons field rest) (arriving, row') := by
      intro hm
      have hmem : m.1 ∈ rest.names :=
        (encode_sublist rest row).mem (List.mem_map_of_mem hm)
      have hother : m.1 ≠ field.name := fun heq => hnames.1 (heq ▸ hmem)
      rw [ReadsMember, if_neg hother]
      exact ih hnames.2 hrest m hm origin ho
    rw [Field.Arrives] at hfield
    rw [encode] at hm
    by_cases homit : field.omitted value = true
    · rw [if_pos homit] at hm
      exact hlater hm
    · rw [if_neg homit] at hm hfield
      rcases List.mem_cons.mp hm with rfl | hm
      · rw [ReadsMember, if_pos rfl]
        exact hfield.reads a origin ho
      · exact hlater hm

/-- What is not written has its stand-in for what arrives. -/
theorem encode_covers (h : fields.Arrive row row') {read : List String}
    (hread : ∀ m ∈ fields.encode row, m.1 ∈ read) : fields.Covers read row' := by
  induction fields with
  | nil => trivial
  | cons field rest ih =>
    obtain ⟨value, row⟩ := row
    obtain ⟨arriving, row'⟩ := row'
    obtain ⟨hfield, hrest⟩ := h
    rw [Field.Arrives] at hfield
    rw [encode] at hread
    by_cases homit : field.omitted value = true
    · rw [if_pos homit] at hread hfield
      exact ⟨.inr hfield, ih hrest hread⟩
    · rw [if_neg homit] at hread
      exact ⟨.inl (hread _ List.mem_cons_self),
        ih hrest fun m hm => hread m (List.mem_cons_of_mem _ hm)⟩

end Fields

/-- In any order, the members of an object are its members with their own members in that order. -/
theorem Form.arrange_members {members : List (String × Form)}
    (hkeys : (members.map (·.1)).Nodup) (a : Arrangement) :
    ∃ ms, (Form.object members).arrange a = .object ms ∧ (ms.map (·.1)).Nodup ∧
      ∀ m, m ∈ ms ↔ m ∈ Entries.mapValues (arrange a) members := by
  cases a with
  | written => exact ⟨members, rfl, hkeys, fun m => by rw [Entries.mapValues, show
      (fun e : String × Form => (e.1, arrange .written e.2)) = id from rfl, List.map_id]⟩
  | byName =>
    have hsame : ((Entries.mapValues sorted members).map (·.1)).Nodup := by
      rw [Entries.mapValues, List.map_map]
      exact hkeys
    refine ⟨Entries.ofList (Entries.mapValues sorted members), ?_, ?_, fun m => ?_⟩
    · exact congrArg (fun ms => Form.object (Entries.ofList ms)) (sortedMembers_eq members)
    · exact Entries.nodup_keys_of_sorted (Entries.sorted_ofList _)
    · exact Entries.mem_ofList_iff hsame

/-- Every member adds a level below the object. -/
theorem Form.depth_arrange_member {members : List (String × Form)}
    (hkeys : (members.map (·.1)).Nodup) (a : Arrangement) {m : String × Form} (hm : m ∈ members) :
    (m.2.arrange a).depth < ((Form.object members).arrange a).depth := by
  obtain ⟨ms, hform, -, hmem⟩ := Form.arrange_members hkeys a
  have hm' : (m.1, m.2.arrange a) ∈ ms :=
    (hmem _).mpr (List.mem_map_of_mem (f := fun e => (e.1, Form.arrange a e.2)) hm)
  rw [hform]
  exact Nat.lt_succ_of_le (Form.depthMembers_le_iff.mp (Nat.le_refl _) _ hm')

namespace Record

variable {R : Type} {r : Record R} {v w : R}

/-- An object with the members that are written for a value, in any order and among others that are
no fields, is read as what arrives. -/
theorem reads_members (hnames : r.fields.names.Nodup)
    (h : r.fields.Arrive (r.toRow v) (r.toRow w)) (a : Arrangement)
    {members : List (String × Form)} (hkeys : (members.map (·.1)).Nodup)
    (hwritten : ∀ e ∈ r.fields.encode (r.toRow v), (e.1, e.2.arrange a) ∈ members)
    (hothers : ∀ m ∈ members, m ∈ Entries.mapValues (Form.arrange a)
        (r.fields.encode (r.toRow v)) ∨
      r.exact = false ∧ m.1 ∉ r.fields.names ∧ m.2.Writable) :
    r.codec.Reads (.object members) w := by
  refine decode_object hnames hkeys (fun m hm origin ho => ?_) ?_
  · refine (hothers m hm).imp_left fun hm => ?_
    obtain ⟨e, he, rfl⟩ := List.mem_map.mp hm
    exact Fields.encode_reads a hnames h e he origin ho
  · refine Fields.encode_covers h fun e he => ?_
    exact List.mem_map_of_mem (f := (·.1)) (hwritten e he)

/-- A record arrives field by field. -/
theorem arrives (hnames : r.fields.names.Nodup) (h : r.fields.Arrive (r.toRow v) (r.toRow w)) :
    r.codec.Arrives v w where
  writable := Form.writable_asWritten_object.mpr h.written.members
  reads a := by
    have hkeys := (Fields.encode_sublist r.fields (r.toRow v)).nodup hnames
    obtain ⟨members, hform, hms, hmem⟩ := Form.arrange_members hkeys a
    have hencode : (r.codec.encode v).arrange a = .object members := hform
    rw [hencode]
    refine reads_members hnames h a hms (fun e he => ?_) fun m hm => .inl ((hmem m).mp hm)
    exact (hmem _).mpr (List.mem_map_of_mem (f := fun e => (e.1, Form.arrange a e.2)) he)

/-- A record makes the round trip when every field does that is written. -/
theorem roundTrips (hnames : r.fields.names.Nodup) (h : r.fields.Hold (r.toRow v)) :
    r.codec.RoundTrips v where
  writable := Form.writableMembers_iff.mpr h.written.members
  reads := (arrives hnames h.arrive).reads

end Record

/-! ## Shallow records -/

/-- The form holds no payload and no reserved name, and nests at most so many levels. -/
def Form.Shallow (n : Nat) (f : Form) : Prop := f.Plain ∧ f.depth ≤ n

theorem Record.shallow {R : Type} {r : Record R} {v : R} {n : Nat}
    (h : r.fields.Written (fun name f => name ≠ Doc.embeddedName ∧ f.Shallow n) (r.toRow v)) :
    (r.codec.encode v).Shallow (n + 1) := by
  refine ⟨Form.plainMembers_iff.mpr fun m hm => ?_, Nat.succ_le_succ ?_⟩
  · exact ⟨(h.members m hm).1, (h.members m hm).2.1⟩
  · exact Form.depthMembers_le_iff.mpr fun m hm => (h.members m hm).2.2

theorem Form.shallow_array {n : Nat} {items : List Form} (h : ∀ item ∈ items, item.Shallow n) :
    (Form.array items).Shallow (n + 1) := by
  refine ⟨?_, Nat.succ_le_succ (Form.depthItems_le_iff.mpr fun item hitem => (h item hitem).2)⟩
  show Form.PlainItems items
  induction items with
  | nil => trivial
  | cons item rest ih =>
    rw [List.forall_mem_cons] at h
    exact ⟨h.1.1, ih h.2⟩

/-! ## Kinds of fields -/

namespace Field

variable {α : Type}

theorem holds_required {name : String} {c : Codec α} {v : α} (h : c.RoundTrips v) :
    (required name c).Holds v := by
  unfold Holds
  exact h

theorem holds_defaulted {name : String} {c : Codec α} {absent v : α} (h : c.RoundTrips v) :
    (defaulted name c absent).Holds v := by
  unfold Holds
  exact h

/-- A value that may be unset makes the round trip when it does where it is set. -/
theorem holds_optional {name : String} {c : Codec α} {v : Option α}
    (h : ∀ x, v = some x → c.RoundTrips x ∧ c.Present x) : (optional name c).Holds v := by
  cases v with
  | none => exact rfl
  | some x => exact (h x rfl).1.option (h x rfl).2

theorem holds_optionalText {name : String} (s : Option String) :
    (optional name .string).Holds s :=
  holds_optional fun x _ => ⟨Codec.RoundTrips.string x, Codec.present_of_string rfl⟩

/-- A value that may be unset arrives when it does where it is set. -/
theorem arrives_optional {name : String} {c : Codec α} {k : α → α} {v : Option α}
    (h : ∀ x, v = some x → c.Arrives x (k x) ∧ c.Present x) :
    (optional name c).Arrives v (v.map k) := by
  cases v with
  | none => exact rfl
  | some x => exact (h x rfl).1.option (h x rfl).2

theorem arrives_optionalFloat {name : String} (x : Option Float) :
    (optional name .float).Arrives x (x.filter Float.isFinite) := by
  cases x with
  | none => exact rfl
  | some x => exact Codec.Arrives.optionalFloat (some x)

theorem holds_listed {name : String} {c : Codec α} {vs : List α}
    (h : ∀ v ∈ vs, c.RoundTrips v) : (listed name c).Holds vs := by
  cases vs with
  | nil => exact rfl
  | cons v vs => exact Codec.RoundTrips.list h

theorem holds_flag {name : String} (b : Bool) : (flag name).Holds b := by
  cases b with
  | false => exact rfl
  | true => exact Codec.RoundTrips.bool true

theorem holds_named {name : String} {c : Codec α} {d : Dict α}
    (h : ∀ e ∈ d.entries, c.RoundTrips e.2) : (named name c).Holds d := by
  rw [Holds]
  split
  · rename_i hempty
    have hnil : d.entries = [] := List.isEmpty_iff.mp hempty
    exact congrArg some (Table.ext hnil.symm)
  · exact Codec.RoundTrips.dict h

/-- What is written for a value that may be unset is written for a value that is set. -/
theorem written_optional {P : Form → Prop} {name : String} {c : Codec α} {v : Option α}
    (h : ∀ x, v = some x → P (c.encode x)) (hw : (optional name c).omitted v = false) :
    P ((optional name c).codec.encode v) := by
  cases v with
  | none => cases hw
  | some x => exact h x rfl

theorem shallow_optionalText {name : String} {n : Nat} {s : Option String}
    (hw : (optional name .string).omitted s = false) :
    ((optional name .string).codec.encode s).Shallow n :=
  written_optional (fun _ _ => ⟨trivial, Nat.zero_le _⟩) hw

end Field

end ContextProtocol
