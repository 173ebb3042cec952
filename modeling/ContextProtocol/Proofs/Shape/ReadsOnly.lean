import ContextProtocol.Proofs.Shape.OnValue
import ContextProtocol.Proofs.Shape.RecordTrip

/-!
# Members that do not matter

A record that is not exact passes over every member that is no field of it. In a value nothing is
cut off, so passing over a member always succeeds, and two objects with the same values under the
names of the fields are read alike: with the same result, the same error and the same events. A
dictionary takes all members, so one that is added has to be read too.

Results:
* `Fields.storeAll_ofMembers`: of the members of a value only those of the fields are stored.
* `Record.readsOnly`: a record depends on the members of its fields alone.
* `Decoder.ReadsOnly.runValue`, `Decoder.ReadsOnly.runString`: on a value, and on its text.
* `Decoder.dict_insert`, `Decoder.dict_insert_error`: a dictionary with one more member.
-/
namespace ContextProtocol

/-! ## Tables that agree -/

namespace Table

variable {κ α : Type} [DecidableEq κ] [KeyOrder κ] {keys : List κ} {t t' : Table κ α}

/-- Two tables hold the same values under these keys. -/
def AgreeOn (keys : List κ) (t t' : Table κ α) : Prop := ∀ key ∈ keys, t.get? key = t'.get? key

/-- A value under another key is not seen. -/
theorem agreeOn_insert {key : κ} (hkey : key ∉ keys) (t : Table κ α) (value : α) :
    AgreeOn keys (t.insert key value) t := by
  intro other hother
  refine t.get?_insert_of_ne ?_ value
  rintro rfl
  exact hkey hother

/-- Tables that agree on some keys have the same entries under them. -/
theorem AgreeOn.filter_entries (h : AgreeOn keys t t') :
    (t.entries.filter fun e => e.1 ∈ keys) = t'.entries.filter fun e => e.1 ∈ keys := by
  refine Entries.eq_of_sorted (t.sorted.filter _) (t'.sorted.filter _) fun e => ?_
  rw [List.mem_filter, List.mem_filter, decide_eq_true_eq]
  refine and_congr_left fun hkey => ?_
  rw [mem_entries_iff, mem_entries_iff, h e.1 hkey]

end Table

/-! ## Records -/

/-- Of the members of a value only those of the fields are stored. -/
theorem Fields.storeAll_ofMembers {columns : List Type} (fields : Fields columns) (origin : Origin)
    (members : List (String × Json)) (slots : Slots columns) :
    fields.storeAll false origin none (Doc.ofMembers members) slots =
      fields.storeAll false origin none
        (Doc.ofMembers (members.filter fun m => m.1 ∈ fields.names)) slots := by
  induction members generalizing slots with
  | nil => rfl
  | cons m rest ih =>
    obtain ⟨name, v⟩ := m
    by_cases hname : name ∈ fields.names
    · rw [List.filter_cons_of_pos (by simpa using hname), Doc.ofMembers, Doc.ofMembers, storeAll,
        storeAll]
      refine congrArg _ (funext fun name => ?_)
      cases fields.store origin name _ slots with
      | some read => exact congrArg (read >>= ·) (funext ih)
      | none => simp only [Bool.false_eq_true, if_false, ih]
    · have hread : (Token.sound name).read = .ok name := rfl
      rw [List.filter_cons_of_neg (by simpa using hname), ← ih, Doc.ofMembers, storeAll, hread,
        Traced.ok_bind, store_eq_none hname]
      simp only [Bool.false_eq_true, if_false, Doc.skip_ofJson v]
      rfl

/-- A reader of objects to which only the members of these names matter. -/
def Decoder.ReadsOnly {α : Type} (names : List String) (dec : Decoder α) : Prop :=
  ∀ ⦃d d' : Dict Json⦄, Table.AgreeOn names d d' → ∀ origin,
    dec origin (Doc.sourced (.object d.entries)) = dec origin (Doc.sourced (.object d'.entries))

/-- A record depends on the members of its fields alone. -/
theorem Record.readsOnly {R : Type} {r : Record R} (hexact : r.exact = false) :
    r.decode.ReadsOnly r.fields.names := by
  intro d d' h origin
  have hstore : ∀ inner, r.fields.storeAll r.exact inner none (Doc.ofMembers d.entries)
      r.fields.noSlots = r.fields.storeAll r.exact inner none (Doc.ofMembers d'.entries)
        r.fields.noSlots := fun inner => by
    rw [hexact, Fields.storeAll_ofMembers, h.filter_entries, ← Fields.storeAll_ofMembers]
  refine congrArg (liftM origin.enter >>= ·) (funext fun inner => ?_)
  rw [hstore]

namespace Decoder

variable {α : Type} {dec : Decoder α} {d d' : Dict Json}

theorem ReadsOnly.runValue {names : List String} (h : dec.ReadsOnly names)
    (hagree : Table.AgreeOn names d d') :
    dec.runValue (.object d.entries) = dec.runValue (.object d'.entries) := h hagree .value

/-- The text of an object is read as the object. -/
theorem ReadsOnly.runString {names : List String} (h : dec.ReadsOnly names)
    (hagree : Table.AgreeOn names d d') :
    dec.runString (Json.object d.entries).text = dec.runString (Json.object d'.entries).text := by
  have hdocument : ∀ t : Dict Json, Document.ofString (Json.object t.entries).text =
      ⟨Doc.sourced (.object t.entries), none⟩ := fun t => by
    rw [Doc.sourced_eq]
    exact Document.ofString_text (Form.writable_ofJson _)
  rw [Decoder.runString, Decoder.runString, hdocument, hdocument, runDocument, runDocument,
    h hagree]

/-! ## Dictionaries -/

theorem result_members_cons (name : String) (v : Json) (rest : List (String × Json)) :
    (members dec .value none (Doc.ofMembers ((name, v) :: rest))).result =
      (dec.runValue v).result >>= fun a =>
        (members dec .value none (Doc.ofMembers rest)).result.map ((name, a) :: ·) := by
  rw [Doc.ofMembers, members]
  refine (Traced.result_bind _ _).trans ?_
  refine (Traced.result_bind _ _).trans (congrArg _ (funext fun a => ?_))
  rw [Traced.result_bind]
  rfl

/-- The members keep their names. -/
theorem keys_of_members {es : List (String × Json)} : ∀ {found : List (String × α)},
    (members dec .value none (Doc.ofMembers es)).result = .ok found →
      found.map (·.1) = es.map (·.1) := by
  induction es with
  | nil =>
    rintro _ ⟨⟩
    rfl
  | cons e rest ih =>
    intro found h
    rw [result_members_cons] at h
    obtain ⟨a, -, h⟩ := Outcome.bind_eq_ok_iff.mp h
    obtain ⟨tail, htail, rfl⟩ := Outcome.map_eq_ok_iff.mp h
    rw [List.map_cons, List.map_cons, ih htail]

section

variable {name : String} {v : Json}

/-- One more member is read as one more value, in the same place. -/
theorem members_insert {w : α} (hread : (dec.runValue v).result = .ok w)
    {es : List (String × Json)} (hnew : es.lookup name = none) :
    (members dec .value none (Doc.ofMembers (Entries.insert name v es))).result =
      (members dec .value none (Doc.ofMembers es)).result.map (Entries.insert name w) := by
  induction es with
  | nil =>
    rw [Entries.insert, result_members_cons, hread]
    rfl
  | cons e rest ih =>
    obtain ⟨key, u⟩ := e
    rw [Entries.lookup_eq_none_iff, List.map_cons, List.mem_cons, not_or] at hnew
    have hrest := ih (Entries.lookup_eq_none_iff.mpr hnew.2)
    rw [Entries.insert, if_neg hnew.1]
    by_cases hlt : KeyOrder.lt name key = true
    · rw [if_pos hlt, result_members_cons, hread, Outcome.ok_bind, result_members_cons]
      cases (dec.runValue u).result with
      | error e => rfl
      | ok a =>
        cases (members dec .value none (Doc.ofMembers rest)).result with
        | error e => rfl
        | ok found => simp [Entries.insert, hnew.1, hlt]
    · rw [if_neg hlt, result_members_cons, hrest, result_members_cons]
      cases (dec.runValue u).result with
      | error e => rfl
      | ok a =>
        cases (members dec .value none (Doc.ofMembers rest)).result with
        | error e => rfl
        | ok found => simp [Entries.insert, hnew.1, hlt]

/-- One more member of an object is read as one more value of the dictionary. -/
theorem dict_insert {w : α} (hread : (dec.runValue v).result = .ok w) (hnew : d.get? name = none) :
    ((Decoder.dict dec).runValue (.object (d.insert name v).entries)).result =
      ((Decoder.dict dec).runValue (.object d.entries)).result.map (·.insert name w) := by
  have hdict : ∀ es, ((Decoder.dict dec).runValue (.object es)).result =
      (members dec .value none (Doc.ofMembers es)).result.map Table.ofList := fun es =>
    (Traced.result_map _ _).trans (congrArg _ (Traced.result_bind _ _))
  rw [hdict, hdict, Table.insert, members_insert hread hnew]
  cases hfound : (members dec .value none (Doc.ofMembers d.entries)).result with
  | error e => rfl
  | ok found =>
    have hsorted := Entries.sorted_of_keys (keys_of_members hfound) d.sorted
    refine congrArg Except.ok (Table.ext ?_)
    exact (Entries.ofList_of_sorted (Entries.sorted_insert hsorted)).trans
      (congrArg (Entries.insert name w) (Entries.ofList_of_sorted hsorted).symm)

/-- An object with a member that cannot be read is no dictionary. -/
theorem dict_insert_error (d : Dict Json) (name : String) {e : ShapeError}
    (hread : (dec.runValue v).result = .error e) :
    ∃ e', ((Decoder.dict dec).runValue (.object (d.insert name v).entries)).result = .error e' := by
  have hfound : ((Decoder.dict dec).runValue (.object (d.insert name v).entries)).found = none := by
    rw [found_dict, Option.map_eq_none_iff, Entries.sequence_eq_none_iff]
    refine ⟨name, List.mem_map.mpr ⟨(name, v), Entries.mem_insert_self .., ?_⟩⟩
    exact congrArg (fun r => (name, Except.toOption r)) hread
  cases hresult : ((Decoder.dict dec).runValue (.object (d.insert name v).entries)).result with
  | error e' => exact ⟨e', rfl⟩
  | ok found => cases (Traced.found_eq_some_iff.mpr hresult).symm.trans hfound

end

end Decoder

end ContextProtocol
