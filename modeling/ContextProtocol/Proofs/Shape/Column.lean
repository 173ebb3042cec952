import ContextProtocol.Proofs.Json.Denotes
import ContextProtocol.Proofs.Json.Spelling
import ContextProtocol.Proofs.Shape.Inversion
import ContextProtocol.Proofs.Shape.RecordTrip

/-!
# One value of a record

A record that was read depends on each of its values through one column only. If another value is
written in the place of one of them, the record is read again, with that column changed and all
others as they were. Whether the record can be read does not depend on the value, only on its
decoder.

Results:
* `Fields.storeAll_column`: the column of a member, once it is filled, stays as it is.
* `Record.decode_fill`: a record with another value in one of its places.
* `Decoder.dict_fill`: a dictionary with another value under the last of equal names.
-/
namespace ContextProtocol

/-- A column of rows. -/
inductive Column (α : Type) : List Type → Type 1 where
  | head {columns : List Type} : Column α (α :: columns)
  | tail {β : Type} {columns : List Type} (c : Column α columns) : Column α (β :: columns)

namespace Column

variable {α : Type} {columns : List Type}

/-- How many columns stand before it. -/
def position : {columns : List Type} → Column α columns → Nat
  | _, .head => 0
  | _, .tail c => c.position + 1

/-- The field of the column. -/
def field : {columns : List Type} → Column α columns → Fields columns → Field α
  | _, .head, .cons field _ => field
  | _, .tail c, .cons _ rest => c.field rest

/-- The value in the column. -/
def get : {columns : List Type} → Column α columns → Row columns → α
  | _, .head, (value, _) => value
  | _, .tail c, (_, row) => c.get row

/-- The row with a value in the column. -/
def set : {columns : List Type} → Column α columns → α → Row columns → Row columns
  | _, .head, a, (_, row) => (a, row)
  | _, .tail c, a, (value, row) => (value, c.set a row)

/-- What was read for the column. -/
def slot : {columns : List Type} → Column α columns → Slots columns → Option α
  | _, .head, (slot, _) => slot
  | _, .tail c, (_, slots) => c.slot slots

/-- The slots with a value in the column. -/
def fill : {columns : List Type} → Column α columns → α → Slots columns → Slots columns
  | _, .head, a, (_, slots) => (some a, slots)
  | _, .tail c, a, (slot, slots) => (slot, c.fill a slots)

/-- A column in the same place is filled with it. -/
theorem slot_fill_ne_none {β : Type} (c : Column α columns) (c' : Column β columns)
    (heq : c.position = c'.position) (a : α) (slots : Slots columns) :
    c'.slot (c.fill a slots) ≠ none := by
  induction c with
  | head =>
    cases c' with
    | head => exact Option.some_ne_none a
    | tail c' => cases heq
  | tail c ih =>
    cases c' with
    | head => cases heq
    | tail c' => exact ih c' (Nat.succ.inj heq) slots.2

/-- What is filled in one column is not seen in another. -/
theorem slot_fill_of_ne {β : Type} (c : Column α columns) (c' : Column β columns)
    (hne : c.position ≠ c'.position) (a : α) (slots : Slots columns) :
    c'.slot (c.fill a slots) = c'.slot slots := by
  induction c with
  | head =>
    cases c' with
    | head => exact absurd rfl hne
    | tail c' => rfl
  | tail c ih =>
    cases c' with
    | head => rfl
    | tail c' => exact ih c' (fun heq => hne (congrArg (· + 1) heq)) slots.2

/-- Two columns can be filled in either order. -/
theorem fill_comm {β : Type} (c : Column α columns) (c' : Column β columns)
    (hne : c.position ≠ c'.position) (a : α) (b : β) (slots : Slots columns) :
    c'.fill b (c.fill a slots) = c.fill a (c'.fill b slots) := by
  induction c with
  | head =>
    cases c' with
    | head => exact absurd rfl hne
    | tail c' => rfl
  | tail c ih =>
    cases c' with
    | head => rfl
    | tail c' =>
      exact congrArg (Prod.mk slots.1) (ih c' (fun heq => hne (congrArg (· + 1) heq)) slots.2)

theorem name_mem (c : Column α columns) (fields : Fields columns) :
    (c.field fields).name ∈ fields.names := by
  induction c with
  | head =>
    cases fields
    exact List.mem_cons_self
  | tail c ih =>
    cases fields
    exact List.mem_cons_of_mem _ (ih _)

end Column

namespace Fields

variable {α : Type} {columns : List Type} {fields : Fields columns} {c : Column α columns}
  {origin : Origin} {exact : Bool} {stop : Option Fault}

/-- Every name of a field is the name of a column. -/
theorem exists_column {name : String} (h : name ∈ fields.names) :
    ∃ (β : Type) (c : Column β columns), (c.field fields).name = name := by
  induction fields with
  | nil => cases h
  | @cons β _ field rest ih =>
    rcases List.mem_cons.mp h with rfl | h
    · exact ⟨β, .head, rfl⟩
    · obtain ⟨γ, c, hc⟩ := ih h
      exact ⟨γ, .tail c, hc⟩

/-! ## Objects -/

/-- A member with the name of a column goes into its slot, if that is free. -/
theorem store_column (c : Column α columns) (origin : Origin) (hnames : fields.names.Nodup)
    (d : Sourced Doc) (slots : Slots columns) :
    ∃ step, fields.store origin (c.field fields).name d slots = some step ∧
      ∀ slots', step.result = .ok slots' ↔ c.slot slots = none ∧
        ∃ a, ((c.field fields).codec.decode origin d).result = .ok a ∧ c.fill a slots = slots' := by
  induction c with
  | head =>
    cases fields with
    | cons field rest =>
      obtain ⟨slot, slots⟩ := slots
      refine ⟨_, if_pos rfl, fun slots' => ?_⟩
      cases slot with
      | some value => simp [Column.slot]
      | none =>
        refine Traced.map_eq_ok_iff.trans ?_
        exact ⟨fun h => ⟨rfl, h⟩, fun h => h.2⟩
  | tail c ih =>
    cases fields with
    | cons field rest =>
      obtain ⟨slot, slots⟩ := slots
      obtain ⟨hnot, hrest⟩ := List.nodup_cons.mp hnames
      have hne : (c.field rest).name ≠ field.name := fun heq => hnot (heq ▸ c.name_mem rest)
      obtain ⟨step, hstep, hresult⟩ := ih hrest slots
      refine ⟨_, (if_neg hne).trans (congrArg (Option.map _) hstep), fun slots' => ?_⟩
      refine Traced.map_eq_ok_iff.trans ?_
      simp only [hresult]
      constructor
      · rintro ⟨s, ⟨hfree, a, ha, rfl⟩, rfl⟩
        exact ⟨hfree, a, ha, rfl⟩
      · rintro ⟨hfree, a, ha, rfl⟩
        exact ⟨_, ⟨hfree, a, ha, rfl⟩, rfl⟩

/-- A member of a column is stored, and the others behind it. -/
theorem storeAll_cons_column (hnames : fields.names.Nodup) {token : Token String} {d : Sourced Doc}
    {rest : List (Token String × Sourced Doc)} {slots slots' : Slots columns}
    (hread : token.read = .ok (c.field fields).name) :
    (fields.storeAll exact origin stop ((token, d) :: rest) slots).result = .ok slots' ↔
      c.slot slots = none ∧ ∃ a, ((c.field fields).codec.decode origin d).result = .ok a ∧
        (fields.storeAll exact origin stop rest (c.fill a slots)).result = .ok slots' := by
  obtain ⟨step, hstep, hresult⟩ := store_column c origin hnames d slots
  rw [storeAll, Traced.bind_eq_ok_iff, Traced.result_liftM, hread]
  simp only [Except.ok.injEq, exists_eq_left', hstep, Traced.bind_eq_ok_iff, hresult]
  constructor
  · rintro ⟨_, ⟨hfree, a, ha, rfl⟩, hrest⟩
    exact ⟨hfree, a, ha, hrest⟩
  · rintro ⟨hfree, a, ha, hrest⟩
    exact ⟨_, ⟨hfree, a, ha, rfl⟩, hrest⟩

/-- A member that is no field is passed over. -/
theorem storeAll_cons_other {token : Token String} {d : Sourced Doc}
    {rest : List (Token String × Sourced Doc)} {slots slots' : Slots columns} {name : String}
    (hread : token.read = .ok name) (hname : name ∉ fields.names) :
    (fields.storeAll exact origin stop ((token, d) :: rest) slots).result = .ok slots' ↔
      exact = false ∧ d.value.skip = none ∧
        (fields.storeAll exact origin stop rest slots).result = .ok slots' := by
  rw [storeAll, Traced.bind_eq_ok_iff, Traced.result_liftM, hread]
  simp only [Except.ok.injEq, exists_eq_left', store_eq_none hname]
  cases exact with
  | true => simp
  | false =>
    have hclose : ∀ u, Doc.close d.value.skip = .ok u ↔ d.value.skip = none := fun _ =>
      Decoder.close_eq_ok_iff
    refine Traced.bind_eq_ok_iff.trans ?_
    simp only [Traced.result_liftM, hclose, exists_const, true_and]

/-- The column of a member, once it is filled, stays as it is. -/
theorem storeAll_column (hnames : fields.names.Nodup) {a : α}
    {members : List (Token String × Sourced Doc)} : ∀ {slots slots' : Slots columns},
    (fields.storeAll exact origin stop members (c.fill a slots)).result = .ok slots' →
      ∃ s, c.fill a s = slots' ∧ ∀ b,
        (fields.storeAll exact origin stop members (c.fill b slots)).result = .ok (c.fill b s) := by
  induction members with
  | nil =>
    intro slots slots' h
    rw [storeAll, Traced.bind_eq_ok_iff] at h
    obtain ⟨u, hclose, h⟩ := h
    cases h
    exact ⟨slots, rfl, fun b => Traced.bind_eq_ok_iff.mpr ⟨u, hclose, rfl⟩⟩
  | cons m rest ih =>
    intro slots slots' h
    obtain ⟨token, d⟩ := m
    obtain ⟨name, hread, -⟩ := Traced.bind_eq_ok_iff.mp h
    rw [Traced.result_liftM] at hread
    by_cases hname : name ∈ fields.names
    · obtain ⟨β, k, rfl⟩ := exists_column hname
      obtain ⟨hfree, v, hv, hrest⟩ := (storeAll_cons_column hnames hread).mp h
      -- the member has another column, since this one is filled
      have hne : c.position ≠ k.position := fun heq => c.slot_fill_ne_none k heq a slots hfree
      rw [Column.slot_fill_of_ne c k hne] at hfree
      rw [Column.fill_comm c k hne] at hrest
      obtain ⟨s, hs, hall⟩ := ih hrest
      refine ⟨s, hs, fun b => (storeAll_cons_column hnames hread).mpr ⟨?_, v, hv, ?_⟩⟩
      · rw [Column.slot_fill_of_ne c k hne, hfree]
      · rw [Column.fill_comm c k hne, hall]
    · obtain ⟨hexact, hskip, hrest⟩ := (storeAll_cons_other hread hname).mp h
      obtain ⟨s, hs, hall⟩ := ih hrest
      exact ⟨s, hs, fun b => (storeAll_cons_other hread hname).mpr ⟨hexact, hskip, hall b⟩⟩

/-- The members of an object are stored one part after the other. -/
theorem storeAll_append (front back : List (Token String × Sourced Doc)) :
    ∀ slots : Slots columns, (fields.storeAll exact origin stop (front ++ back) slots).result =
      (fields.storeAll exact origin none front slots).result >>=
        fun s => (fields.storeAll exact origin stop back s).result := by
  induction front with
  | nil => exact fun slots => rfl
  | cons m front ih =>
    intro slots
    obtain ⟨token, d⟩ := m
    rw [List.cons_append, storeAll, storeAll, Traced.result_bind, Traced.result_bind, bind_assoc]
    refine congrArg _ (funext fun name => ?_)
    cases fields.store origin name d slots with
    | some step =>
      simp only [Traced.result_bind, bind_assoc, ih]
    | none =>
      cases exact with
      | true => rfl
      | false => simp [bind_assoc, ih]

/-- The value of the column is taken out of its slot. -/
theorem finish_column {a : α} {slots : Slots columns} {row : Row columns}
    (h : fields.finish (c.fill a slots) = .ok row) :
    c.get row = a ∧ ∀ b, fields.finish (c.fill b slots) = .ok (c.set b row) := by
  induction c with
  | head =>
    cases fields with
    | cons field rest =>
      obtain ⟨slot, slots⟩ := slots
      obtain ⟨value, row⟩ := row
      obtain ⟨hvalue, hrow⟩ := finish_cons_eq_ok_iff.mp h
      refine ⟨(Option.some.inj hvalue).symm, fun b => ?_⟩
      exact finish_cons_eq_ok_iff.mpr ⟨rfl, hrow⟩
  | tail c ih =>
    cases fields with
    | cons field rest =>
      obtain ⟨slot, slots⟩ := slots
      obtain ⟨value, row⟩ := row
      obtain ⟨hvalue, hrow⟩ := finish_cons_eq_ok_iff.mp h
      obtain ⟨hget, hall⟩ := ih hrow
      exact ⟨hget, fun b => finish_cons_eq_ok_iff.mpr ⟨hvalue, hall b⟩⟩

/-! ## Arrays -/

/-- An item in the place of the column is read as its value. -/
theorem readItems_column {tooShort : Nat → ShapeError} {before after : List (Sourced Doc)}
    (hplace : before.length = c.position) {d : Sourced Doc} {position : Nat} {row : Row columns}
    {left : List (Sourced Doc)}
    (h : (fields.readItems origin stop tooShort position (before ++ d :: after)).result =
      .ok (row, left)) :
    ((c.field fields).codec.decode origin d).result = .ok (c.get row) ∧
      ∀ d' b, ((c.field fields).codec.decode origin d').result = .ok b →
        (fields.readItems origin stop tooShort position (before ++ d' :: after)).result =
          .ok (c.set b row, left) := by
  induction c generalizing before position with
  | head =>
    cases fields with
    | cons field rest =>
      obtain rfl := List.length_eq_zero_iff.mp hplace
      obtain ⟨value, row⟩ := row
      obtain ⟨hvalue, hrow⟩ := readItems_cons_eq_ok_iff.mp h
      exact ⟨hvalue, fun d' b hb => readItems_cons_eq_ok_iff.mpr ⟨hb, hrow⟩⟩
  | tail c ih =>
    cases fields with
    | cons field rest =>
      obtain ⟨value, row⟩ := row
      cases before with
      | nil => cases hplace
      | cons item before =>
        obtain ⟨hvalue, hrow⟩ := readItems_cons_eq_ok_iff.mp h
        obtain ⟨hget, hall⟩ := ih (Nat.succ.inj hplace) hrow
        exact ⟨hget, fun d' b hb => readItems_cons_eq_ok_iff.mpr ⟨hvalue, hall d' b hb⟩⟩

end Fields

/-! ## Records -/

namespace Record

variable {R α : Type} {r : Record R} {c : Column α r.columns} {origin : Origin}

/-- A record that was read from an object is read again with another value under one name. -/
theorem decode_object_column (hnames : r.fields.names.Nodup) {stop : Option Fault}
    {before after : List (Token String × Sourced Doc)} {token : Token String} {d : Sourced Doc}
    {text : Thunk (Option String)} (hread : token.read = .ok (c.field r.fields).name) {x : R}
    (h : (r.decode origin ⟨.object (before ++ (token, d) :: after) stop, text⟩).result = .ok x) :
    ∃ inner row, origin.enter = .ok inner ∧ r.ofRow row = x ∧
      ((c.field r.fields).codec.decode inner d).result = .ok (c.get row) ∧
      ∀ d' b text', ((c.field r.fields).codec.decode inner d').result = .ok b →
        (r.decode origin ⟨.object (before ++ (token, d') :: after) stop, text'⟩).result =
          .ok (r.ofRow (c.set b row)) := by
  obtain ⟨inner, slots, row, henter, hslots, hrow, hx⟩ := decode_object_eq_ok_iff.mp h
  rw [Fields.storeAll_append, Outcome.bind_eq_ok_iff] at hslots
  obtain ⟨first, hfirst, hslots⟩ := hslots
  obtain ⟨hfree, a, ha, hrest⟩ := (Fields.storeAll_cons_column hnames hread).mp hslots
  obtain ⟨s, rfl, hall⟩ := Fields.storeAll_column hnames hrest
  obtain ⟨rfl, hset⟩ := Fields.finish_column hrow
  refine ⟨inner, row, henter, hx, ha, fun d' b text' hb => ?_⟩
  refine decode_object_eq_ok_iff.mpr ⟨inner, c.fill b s, _, henter, ?_, hset b, rfl⟩
  rw [Fields.storeAll_append, Outcome.bind_eq_ok_iff]
  exact ⟨first, hfirst, (Fields.storeAll_cons_column hnames hread).mpr ⟨hfree, b, hb, hall b⟩⟩

/-- The same for an array and the item in the place of the column. -/
theorem decode_array_column {stop : Option Fault} {before after : List (Sourced Doc)}
    {d : Sourced Doc} {text : Thunk (Option String)} (hplace : before.length = c.position) {x : R}
    (h : (r.decode origin ⟨.array (before ++ d :: after) stop, text⟩).result = .ok x) :
    ∃ inner row, origin.enter = .ok inner ∧ r.ofRow row = x ∧
      ((c.field r.fields).codec.decode inner d).result = .ok (c.get row) ∧
      ∀ d' b text', ((c.field r.fields).codec.decode inner d').result = .ok b →
        (r.decode origin ⟨.array (before ++ d' :: after) stop, text'⟩).result =
          .ok (r.ofRow (c.set b row)) := by
  obtain ⟨inner, row, left, henter, hrow, hclose, hx⟩ := decode_array_eq_ok_iff.mp h
  obtain ⟨hget, hall⟩ := Fields.readItems_column hplace hrow
  refine ⟨inner, row, henter, hx, hget, fun d' b text' hb => ?_⟩
  refine decode_array_eq_ok_iff.mpr ⟨inner, _, left, henter, hall d' b hb, ?_, rfl⟩
  simpa using hclose

/-- A record that was read from a filled place is read again with another value in the place. -/
theorem decode_fill (hnames : r.fields.names.Nodup) {p : Spelled.Place}
    (hplace : p.HasField (c.field r.fields).name c.position) {v : Spelled} {x : R}
    (h : (r.decode origin (p.fill v).sourced).result = .ok x) :
    ∃ inner row, origin.enter = .ok inner ∧ r.ofRow row = x ∧
      ((c.field r.fields).codec.decode inner v.sourced).result = .ok (c.get row) ∧
      ∀ w b, ((c.field r.fields).codec.decode inner w.sourced).result = .ok b →
        (r.decode origin (p.fill w).sourced).result = .ok (r.ofRow (c.set b row)) := by
  cases p with
  | member before place after =>
    have hsourced : ∀ w : Spelled, ((Spelled.Place.member before place after).fill w).sourced =
        ⟨.object (before.map Spelled.Member.entry ++
          (place.name.token, w.sourced) :: after.map Spelled.Member.entry) none,
          ((Spelled.Place.member before place after).fill w).sourced.text⟩ := fun w =>
      congrArg (Sourced.mk · _) (Spelled.Place.doc_fill_member before after place w)
    have hread : place.name.token.read = .ok (c.field r.fields).name := Doc.read_of_reading hplace
    rw [hsourced v] at h
    obtain ⟨inner, row, henter, hrow, hvalue, hall⟩ := decode_object_column hnames hread h
    refine ⟨inner, row, henter, hrow, hvalue, fun w b hb => ?_⟩
    rw [hsourced w]
    exact hall w.sourced b _ hb
  | item before place after =>
    have hsourced : ∀ w : Spelled, ((Spelled.Place.item before place after).fill w).sourced =
        ⟨.array (before.map (·.value.sourced) ++ w.sourced :: after.map (·.value.sourced)) none,
          ((Spelled.Place.item before place after).fill w).sourced.text⟩ := fun w =>
      congrArg (Sourced.mk · _) (Spelled.Place.doc_fill_item before after place w)
    have hlength : (before.map (·.value.sourced)).length = c.position :=
      (List.length_map ..).trans hplace
    rw [hsourced v] at h
    obtain ⟨inner, row, henter, hrow, hvalue, hall⟩ := decode_array_column hlength h
    refine ⟨inner, row, henter, hrow, hvalue, fun w b hb => ?_⟩
    rw [hsourced w]
    exact hall w.sourced b _ hb

end Record

/-! ## Dictionaries -/

/-- A dictionary that was read is read again with another value under a name. What stands under the
name before does not matter, and behind it the name may not come again. -/
theorem Decoder.dict_fill {α : Type} {dec : Decoder α} {origin : Origin}
    {before after : List Spelled.Member} {place : Spelled.Member} {name : String}
    (hname : place.name.token.reading = .ok name)
    (hlast : ∀ m ∈ after, m.name.token.reading ≠ .ok name) {v : Spelled} {found : Dict α}
    (h : (dict dec origin ((Spelled.Place.member before place after).fill v).sourced).result =
      .ok found) :
    ∃ inner, origin.enter = .ok inner ∧
      (∃ a, (dec inner v.sourced).result = .ok a ∧ found.get? name = some a) ∧
      ∀ w b, (dec inner w.sourced).result = .ok b →
        (dict dec origin ((Spelled.Place.member before place after).fill w).sourced).result =
          .ok (found.insert name b) := by
  have hsourced : ∀ w : Spelled, ((Spelled.Place.member before place after).fill w).sourced =
      ⟨.object (before.map Spelled.Member.entry ++
        (place.name.token, w.sourced) :: after.map Spelled.Member.entry) none,
        ((Spelled.Place.member before place after).fill w).sourced.text⟩ := fun w =>
    congrArg (Sourced.mk · _) (Spelled.Place.doc_fill_member before after place w)
  have hread : place.name.token.read = .ok name := Doc.read_of_reading hname
  rw [hsourced v, dict_eq_ok_iff] at h
  obtain ⟨inner, l, henter, hl, rfl⟩ := h
  obtain ⟨first, _, hfirst, hlater, rfl⟩ := members_append_eq_ok_iff.mp hl
  obtain ⟨n, a, later, hn, ha, hmore, rfl⟩ := members_cons_eq_ok_iff.mp hlater
  obtain rfl : n = name := Except.ok.inj (hn.symm.trans hread)
  have hother : ∀ e ∈ later, e.1 ≠ n := by
    rintro e he rfl
    obtain ⟨m, hm, hem, -⟩ := mem_of_members hmore e he
    obtain ⟨written, hwritten, rfl⟩ := List.mem_map.mp hm
    exact hlast written hwritten (Outcome.mapError_eq_ok_iff.mp hem)
  refine ⟨inner, henter, ⟨a, ha, ?_⟩, fun w b hb => ?_⟩
  · rw [Table.ofList_of_last hother, Table.get?_insert_self]
  · rw [hsourced w, dict_eq_ok_iff]
    refine ⟨inner, first ++ (n, b) :: later, henter, ?_, ?_⟩
    · exact members_append_eq_ok_iff.mpr ⟨first, _, hfirst,
        members_cons_eq_ok_iff.mpr ⟨n, b, later, hread, hb, hmore, rfl⟩, rfl⟩
    · rw [Table.ofList_of_last hother, Table.ofList_of_last hother, Table.insert_insert]

end ContextProtocol
