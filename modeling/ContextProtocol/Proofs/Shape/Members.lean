import ContextProtocol.Proofs.Shape.Column

/-!
# What a record is read from

The members of an object may come in any order. A record is read when every field finds the one
member of its name, or finds none and has a stand-in, and when every other member can be passed
over. So each value of the record depends on the members of its name alone, and two of one name are
never read.

Results:
* `Fields.storeAll_eq_ok_iff`: what is in the slots when all members are stored, whatever was in
  them before.
* `Record.decode_object_iff`: which objects are read as a record, and as which.
-/
namespace ContextProtocol

/-- What stands under a name, in the order of the text. -/
def Doc.under (name : String) (members : List (Token String × Sourced Doc)) :
    List (Sourced Doc) :=
  members.filterMap fun m => if m.1.reading.toOption = some name then some m.2 else none

/-- Every member has a name that can be read, and if it is none of these, a value that can be passed
over. -/
def Doc.Passable (names : List String) (exact : Bool)
    (members : List (Token String × Sourced Doc)) : Prop :=
  ∀ m ∈ members, ∃ name, m.1.reading = .ok name ∧
    (name ∈ names ∨ exact = false ∧ m.2.value.skip = none)

section Cons

variable {token : Token String} {name : String} {d : Sourced Doc}
  {rest : List (Token String × Sourced Doc)}

theorem Doc.under_cons_self (h : token.reading = .ok name) :
    under name ((token, d) :: rest) = d :: under name rest := by
  simp [under, h]

theorem Doc.under_cons_of_ne {other : String} (h : token.reading = .ok name) (hne : other ≠ name) :
    under other ((token, d) :: rest) = under other rest := by
  simp [under, h, Ne.symm hne]

theorem Doc.passable_cons_iff {names : List String} {exact : Bool} (h : token.reading = .ok name) :
    Passable names exact ((token, d) :: rest) ↔
      (name ∈ names ∨ exact = false ∧ d.value.skip = none) ∧ Passable names exact rest := by
  simp [Passable, h]

end Cons

namespace Field

variable {α : Type}

/-- What the members of its name make of the slot of a field. One of them fills it, and when it was
full before there may be none. -/
def Fills (origin : Origin) (members : List (Token String × Sourced Doc)) (field : Field α) :
    Option α → Option α → Prop
  | none, none => Doc.under field.name members = []
  | none, some value => ∃ d, Doc.under field.name members = [d] ∧
      (field.codec.decode origin d).result = .ok value
  | some value, some value' => Doc.under field.name members = [] ∧ value = value'
  | some _, none => False

/-- What a field finds among members: the value of the only one of its name, or its stand-in when
there is none. -/
def Finds (origin : Origin) (members : List (Token String × Sourced Doc)) (field : Field α)
    (value : α) : Prop :=
  (∃ d, Doc.under field.name members = [d] ∧ (field.codec.decode origin d).result = .ok value) ∨
    Doc.under field.name members = [] ∧ field.absent? = some value

/-- A member of another name changes nothing. -/
theorem fills_cons_of_ne {origin : Origin} {field : Field α} {token : Token String} {name : String}
    {d : Sourced Doc} {rest : List (Token String × Sourced Doc)} (h : token.reading = .ok name)
    (hne : field.name ≠ name) {slot slot' : Option α} :
    field.Fills origin ((token, d) :: rest) slot slot' ↔ field.Fills origin rest slot slot' := by
  cases slot <;> cases slot' <;> simp [Fills, Doc.under_cons_of_ne h hne]

/-- A member of its name goes into the free slot of a field, and no other one may follow. -/
theorem fills_cons_self {origin : Origin} {field : Field α} {token : Token String}
    {d : Sourced Doc} {rest : List (Token String × Sourced Doc)}
    (h : token.reading = .ok field.name) {slot slot' : Option α} :
    field.Fills origin ((token, d) :: rest) slot slot' ↔
      slot = none ∧ ∃ value, (field.codec.decode origin d).result = .ok value ∧
        field.Fills origin rest (some value) slot' := by
  cases slot with
  | some value => cases slot' <;> simp [Fills, Doc.under_cons_self h]
  | none =>
    cases slot' with
    | none => simp [Fills, Doc.under_cons_self h]
    | some value =>
      simp only [Fills, Doc.under_cons_self h, List.cons.injEq, true_and]
      constructor
      · rintro ⟨_, ⟨rfl, hrest⟩, hvalue⟩
        exact ⟨value, hvalue, hrest, rfl⟩
      · rintro ⟨_, hvalue, hrest, rfl⟩
        exact ⟨d, ⟨rfl, hrest⟩, hvalue⟩

theorem fills_nil {origin : Origin} {field : Field α} {slot slot' : Option α} :
    field.Fills origin [] slot slot' ↔ slot = slot' := by
  cases slot <;> cases slot' <;> simp [Fills, Doc.under]

/-- A slot that was free holds what the field finds, or else the stand-in is found. -/
theorem finds_iff {origin : Origin} {members : List (Token String × Sourced Doc)} {field : Field α}
    {value : α} : field.Finds origin members value ↔
      ∃ slot, field.Fills origin members none slot ∧ slot.or field.absent? = some value := by
  constructor
  · rintro (⟨d, hunder, hvalue⟩ | ⟨hunder, habsent⟩)
    · exact ⟨some value, ⟨d, hunder, hvalue⟩, rfl⟩
    · exact ⟨none, hunder, habsent⟩
  · rintro ⟨slot, hfills, h⟩
    cases slot with
    | none => exact .inr ⟨hfills, h⟩
    | some v =>
      obtain rfl : v = value := Option.some.inj h
      exact .inl hfills

end Field

namespace Fields

variable {columns : List Type} {fields : Fields columns} {origin : Origin}
  {members : List (Token String × Sourced Doc)}

/-- What the members make of all slots. -/
def FillAll (origin : Origin) (members : List (Token String × Sourced Doc)) :
    {columns : List Type} → Fields columns → Slots columns → Slots columns → Prop
  | _, .nil, _, _ => True
  | _, .cons field rest, (slot, slots), (slot', slots') =>
    field.Fills origin members slot slot' ∧ FillAll origin members rest slots slots'

/-- What all fields find among members. -/
def FindAll (origin : Origin) (members : List (Token String × Sourced Doc)) :
    {columns : List Type} → Fields columns → Row columns → Prop
  | _, .nil, _ => True
  | _, .cons field rest, (value, row) =>
    field.Finds origin members value ∧ FindAll origin members rest row

section Cons

variable {token : Token String} {d : Sourced Doc}

theorem fillAll_cons_other {name : String} (h : token.reading = .ok name)
    (hname : name ∉ fields.names) {slots slots' : Slots columns} :
    fields.FillAll origin ((token, d) :: members) slots slots' ↔
      fields.FillAll origin members slots slots' := by
  induction fields with
  | nil => exact Iff.rfl
  | cons field rest ih =>
    obtain ⟨hne, hrest⟩ := not_or.mp (List.mem_cons.not.mp hname)
    exact and_congr (Field.fills_cons_of_ne h (Ne.symm hne)) (ih hrest)

/-- A member with the name of a column goes into its slot, and the others behind it. -/
theorem fillAll_cons_column {α : Type} (c : Column α columns) (hnames : fields.names.Nodup)
    (h : token.reading = .ok (c.field fields).name) {slots slots' : Slots columns} :
    fields.FillAll origin ((token, d) :: members) slots slots' ↔ c.slot slots = none ∧
      ∃ a, ((c.field fields).codec.decode origin d).result = .ok a ∧
        fields.FillAll origin members (c.fill a slots) slots' := by
  induction c with
  | head =>
    cases fields with
    | cons field rest =>
      have hnot : field.name ∉ rest.names := (List.nodup_cons.mp hnames).1
      refine (and_congr (Field.fills_cons_self h) (fillAll_cons_other h hnot)).trans ?_
      constructor
      · rintro ⟨⟨hfree, a, ha, hslot⟩, hslots⟩
        exact ⟨hfree, a, ha, hslot, hslots⟩
      · rintro ⟨hfree, a, ha, hslot, hslots⟩
        exact ⟨⟨hfree, a, ha, hslot⟩, hslots⟩
  | tail c ih =>
    cases fields with
    | cons field rest =>
      obtain ⟨hnot, hrest⟩ := List.nodup_cons.mp hnames
      have hne : field.name ≠ (c.field rest).name := fun heq => hnot (heq ▸ c.name_mem rest)
      refine (and_congr (Field.fills_cons_of_ne h hne) (ih hrest h)).trans ?_
      constructor
      · rintro ⟨hslot, hfree, a, ha, hslots⟩
        exact ⟨hfree, a, ha, hslot, hslots⟩
      · rintro ⟨hfree, a, ha, hslot, hslots⟩
        exact ⟨hslot, hfree, a, ha, hslots⟩

end Cons

theorem fillAll_nil {slots slots' : Slots columns} :
    fields.FillAll origin [] slots slots' ↔ slots = slots' := by
  induction fields with
  | nil => exact iff_of_true trivial rfl
  | cons field rest ih =>
    obtain ⟨slot, slots⟩ := slots
    obtain ⟨slot', slots'⟩ := slots'
    exact (and_congr Field.fills_nil ih).trans Prod.mk_inj.symm

/-- Storing members fills the slots with what stands under the names, if every member is one of a
field or passed over. -/
theorem storeAll_eq_ok_iff (hnames : fields.names.Nodup) {exact : Bool} {stop : Option Fault} :
    ∀ {slots slots' : Slots columns},
      (fields.storeAll exact origin stop members slots).result = .ok slots' ↔
        stop = none ∧ Doc.Passable fields.names exact members ∧
          fields.FillAll origin members slots slots' := by
  induction members with
  | nil =>
    intro slots slots'
    have hclose : ∀ u, Doc.close stop = .ok u ↔ stop = none := fun _ => Decoder.close_eq_ok_iff
    rw [storeAll, Traced.bind_eq_ok_iff, fillAll_nil]
    simp [hclose, Doc.Passable]
  | cons m rest ih =>
    intro slots slots'
    obtain ⟨token, d⟩ := m
    cases hread : token.reading with
    | error fault =>
      refine iff_of_false (fun h => ?_) fun h => ?_
      · obtain ⟨name, hname, -⟩ := Traced.bind_eq_ok_iff.mp h
        rw [Traced.result_liftM, Token.read, hread] at hname
        cases hname
      · obtain ⟨name, hname, -⟩ := h.2.1 (token, d) List.mem_cons_self
        cases hread.symm.trans hname
    | ok name =>
      have hname := Doc.read_of_reading hread
      rw [Doc.passable_cons_iff hread]
      by_cases hmem : name ∈ fields.names
      · obtain ⟨β, c, rfl⟩ := exists_column hmem
        rw [storeAll_cons_column hnames hname, fillAll_cons_column c hnames hread]
        simp only [ih]
        constructor
        · rintro ⟨hfree, a, ha, hstop, hpass, hfill⟩
          exact ⟨hstop, ⟨.inl hmem, hpass⟩, hfree, a, ha, hfill⟩
        · rintro ⟨hstop, ⟨-, hpass⟩, hfree, a, ha, hfill⟩
          exact ⟨hfree, a, ha, hstop, hpass, hfill⟩
      · rw [storeAll_cons_other hname hmem, fillAll_cons_other hread hmem, ih]
        constructor
        · rintro ⟨hexact, hskip, hstop, hpass, hfill⟩
          exact ⟨hstop, ⟨.inr ⟨hexact, hskip⟩, hpass⟩, hfill⟩
        · rintro ⟨hstop, ⟨hother, hpass⟩, hfill⟩
          obtain ⟨hexact, hskip⟩ := hother.resolve_left hmem
          exact ⟨hexact, hskip, hstop, hpass, hfill⟩

/-- What all fields find is in the slots, or stands in for what is not. -/
theorem findAll_iff {row : Row columns} : fields.FindAll origin members row ↔
    ∃ slots, fields.FillAll origin members fields.noSlots slots ∧
      fields.finish slots = .ok row := by
  induction fields with
  | nil => exact iff_of_true trivial ⟨(), trivial, rfl⟩
  | cons field rest ih =>
    obtain ⟨value, row⟩ := row
    refine (and_congr Field.finds_iff ih).trans ?_
    constructor
    · rintro ⟨⟨slot, hslot, hvalue⟩, slots, hslots, hrow⟩
      exact ⟨(slot, slots), ⟨hslot, hslots⟩, finish_cons_eq_ok_iff.mpr ⟨hvalue, hrow⟩⟩
    · rintro ⟨⟨slot, slots⟩, ⟨hslot, hslots⟩, hfinish⟩
      obtain ⟨hvalue, hrow⟩ := finish_cons_eq_ok_iff.mp hfinish
      exact ⟨⟨slot, hslot, hvalue⟩, slots, hslots, hrow⟩

end Fields

/-- An object is read as a record when it is whole, every member is one of a field or passed over,
and every field finds a value. -/
theorem Record.decode_object_iff {R : Type} {r : Record R} (hnames : r.fields.names.Nodup)
    {origin : Origin} {members : List (Token String × Sourced Doc)} {stop : Option Fault}
    {text : Thunk (Option String)} {v : R} :
    (r.decode origin ⟨.object members stop, text⟩).result = .ok v ↔
      stop = none ∧ Doc.Passable r.fields.names r.exact members ∧
        ∃ inner row, origin.enter = .ok inner ∧ r.fields.FindAll inner members row ∧
          r.ofRow row = v := by
  rw [decode_object_eq_ok_iff]
  simp only [Fields.storeAll_eq_ok_iff hnames, Fields.findAll_iff]
  constructor
  · rintro ⟨inner, slots, row, henter, ⟨hstop, hpass, hfill⟩, hrow, hv⟩
    exact ⟨hstop, hpass, inner, row, henter, ⟨slots, hfill, hrow⟩, hv⟩
  · rintro ⟨hstop, hpass, inner, row, henter, ⟨slots, hfill, hrow⟩, hv⟩
    exact ⟨inner, slots, row, henter, ⟨hstop, hpass, hfill⟩, hrow, hv⟩

end ContextProtocol
