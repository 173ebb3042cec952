import ContextProtocol.Proofs.Json.Denotes
import ContextProtocol.Shape.Record
import Mathlib.Data.List.Forall2

/-!
# Records are read by name

A reader of records goes through the members of an object in the order of the text and fills one
slot for each. When every name stands once, that order leaves no trace: each field has the value of
the member with its name, or its stand-in when there is none, and members that are no fields do not
matter.

Results:
* `Fields.complete_store`: one member, stored in its slot, is as good as one that is still to come.
* `Fields.storeAll_eq_complete`: so all members give what they would give by name.
* `Record.found_object`: what a record finds in an object.
-/
namespace ContextProtocol

namespace Doc

/-- The value of the first member with the name. -/
def find? (name : String) : List (Token String × Sourced Doc) → Option (Sourced Doc)
  | [] => none
  | (token, d) :: rest => if token.reading.toOption = some name then some d else find? name rest

/-- An object that can be read by name: its names can be read and stand once, and its values can be
passed over. -/
structure ByName (members : List (Token String × Sourced Doc)) : Prop where
  names : ∀ m ∈ members, ∃ n, m.1.reading = .ok n
  distinct : NamesDistinct members
  skip : ∀ m ∈ members, m.2.value.skip = none

theorem ByName.tail {m : Token String × Sourced Doc} {rest : List (Token String × Sourced Doc)}
    (h : ByName (m :: rest)) : ByName rest where
  names := (List.forall_mem_cons.mp h.names).2
  distinct := (List.nodup_cons.mp h.distinct).2
  skip := (List.forall_mem_cons.mp h.skip).2

theorem find?_cons_self {name : String} {token : Token String} {d : Sourced Doc}
    (h : token.reading = .ok name) (rest : List (Token String × Sourced Doc)) :
    find? name ((token, d) :: rest) = some d :=
  if_pos (Outcome.toOption_eq_some_iff.mpr h)

theorem find?_cons_of_ne {name other : String} {token : Token String} {d : Sourced Doc}
    (h : token.reading = .ok name) (hne : other ≠ name)
    (rest : List (Token String × Sourced Doc)) :
    find? other ((token, d) :: rest) = find? other rest := by
  refine if_neg fun hother => hne ?_
  exact Except.ok.inj ((Outcome.toOption_eq_some_iff.mp hother).symm.trans h)

/-! ### Objects with known values -/

section

variable {β : Type} {R : Sourced Doc → β → Prop} {members : List (Token String × Sourced Doc)}
  {es : List (String × β)}

/-- What is found under a name is known when the values of all members are. -/
theorem find?_rel (h : List.Forall₂ (fun m e => m.1.reading = .ok e.1 ∧ R m.2 e.2) members es)
    (name : String) : Option.Rel R (find? name members) (es.lookup name) := by
  induction h with
  | nil => exact .none
  | @cons m e members es hm _ ih =>
    obtain ⟨token, d⟩ := m
    obtain ⟨n, v⟩ := e
    obtain ⟨hname, hvalue⟩ := hm
    by_cases heq : name = n
    · subst heq
      rw [find?_cons_self hname, List.lookup_cons_self]
      exact .some hvalue
    · have hne : (name == n) = false := beq_eq_false_iff_ne.mpr heq
      rw [find?_cons_of_ne hname heq, List.lookup_cons, hne]
      exact ih

/-- An object of which the names are known can be read by name. -/
theorem byName_of_rel (h : List.Forall₂ (fun m e => m.1.reading = .ok e.1 ∧ R m.2 e.2) members es)
    (hkeys : (es.map (·.1)).Nodup) (hskip : ∀ d v, R d v → d.value.skip = none) :
    ByName members := by
  have hmembers : ∀ m ∈ members, (∃ n, m.1.reading = .ok n) ∧ m.2.value.skip = none := by
    clear hkeys
    induction h with
    | nil => exact List.forall_mem_nil _
    | cons hm _ ih => exact List.forall_mem_cons.mpr ⟨⟨⟨_, hm.1⟩, hskip _ _ hm.2⟩, ih⟩
  have hnames : members.map (fun m => m.1.reading) = es.map fun e => .ok e.1 := by
    clear hkeys hmembers
    induction h with
    | nil => rfl
    | cons hm _ ih => rw [List.map_cons, List.map_cons, hm.1, ih]
  refine ⟨fun m hm => (hmembers m hm).1, ?_, fun m hm => (hmembers m hm).2⟩
  unfold NamesDistinct
  rw [hnames]
  have hkeys' := hkeys.map (f := Except.ok (ε := Fault)) fun _ _ h => Except.ok.inj h
  rwa [List.map_map] at hkeys'

end

/-! ### Objects in memory -/

theorem ofItems_eq (items : List Json) : ofItems items = items.map sourced := by
  induction items with
  | nil => rfl
  | cons v rest ih =>
    rw [List.map_cons, ← ih]
    rfl

theorem ofMembers_eq (members : List (String × Json)) :
    ofMembers members = members.map fun m => (Token.sound m.1, sourced m.2) := by
  induction members with
  | nil => rfl
  | cons m rest ih =>
    rw [List.map_cons, ← ih]
    rfl

/-- The members of a value are found under their names. -/
theorem find?_ofMembers (name : String) (members : List (String × Json)) :
    find? name (ofMembers members) = (members.lookup name).map sourced := by
  induction members with
  | nil => rfl
  | cons m rest ih =>
    obtain ⟨n, v⟩ := m
    rw [ofMembers, find?, List.lookup_cons, ih]
    by_cases hname : name = n
    · subst hname
      simp [Token.sound, sourced]
    · have hne : (name == n) = false := beq_eq_false_iff_ne.mpr hname
      simp [Token.sound, hne, Ne.symm hname]

/-- An object in memory can be read by name. -/
theorem byName_ofMembers {members : List (String × Json)} (hkeys : (members.map (·.1)).Nodup) :
    ByName (ofMembers members) := by
  rw [ofMembers_eq]
  refine ⟨?_, ?_, ?_⟩
  · intro m hm
    obtain ⟨e, -, rfl⟩ := List.mem_map.mp hm
    exact ⟨e.1, rfl⟩
  · unfold NamesDistinct
    rw [List.map_map]
    have hnames := hkeys.map (f := Except.ok (ε := Fault)) fun _ _ h => Except.ok.inj h
    rwa [List.map_map] at hnames
  · intro m hm
    obtain ⟨e, -, rfl⟩ := List.mem_map.mp hm
    exact skip_ofJson e.2

end Doc

/-- The value of a field among members that can be found by name. -/
def Field.gather {α : Type} (origin : Origin) (find : String → Option (Sourced Doc))
    (field : Field α) : Option α :=
  match find field.name with
  | some d => (field.codec.decode origin d).found
  | none => field.absent?

namespace Fields

/-- The row of members that can be found by name. -/
def gather (origin : Origin) (find : String → Option (Sourced Doc)) :
    {columns : List Type} → Fields columns → Option (Row columns)
  | _, .nil => some ()
  | _, .cons field rest =>
    (field.gather origin find).bind fun value => (gather origin find rest).map fun row =>
      (value, row)

/-- The row of the slots that are filled and the members that are still to come. -/
def complete (origin : Origin) (find : String → Option (Sourced Doc)) :
    {columns : List Type} → Fields columns → Slots columns → Option (Row columns)
  | _, .nil, _ => some ()
  | _, .cons field rest, (slot, slots) =>
    (slot.or (field.gather origin find)).bind fun value =>
      (complete origin find rest slots).map fun row => (value, row)

/-- No slot is filled for the name. -/
def Vacant (name : String) : {columns : List Type} → Fields columns → Slots columns → Prop
  | _, .nil, _ => True
  | _, .cons field rest, (slot, slots) => (field.name = name → slot = none) ∧ Vacant name rest slots

variable {columns : List Type} {fields : Fields columns} {origin : Origin}
  {find find' : String → Option (Sourced Doc)}

theorem vacant_noSlots (name : String) (fields : Fields columns) :
    fields.Vacant name fields.noSlots := by
  induction fields with
  | nil => trivial
  | cons field rest ih => exact ⟨fun _ => rfl, ih⟩

theorem complete_noSlots (fields : Fields columns) :
    fields.complete origin find fields.noSlots = fields.gather origin find := by
  induction fields with
  | nil => rfl
  | cons field rest ih =>
    rw [noSlots, complete, gather, ih, Option.none_or]

/-- Only the names of fields are looked up. -/
theorem complete_congr (h : ∀ name ∈ fields.names, find' name = find name)
    (slots : Slots columns) : fields.complete origin find' slots =
      fields.complete origin find slots := by
  induction fields with
  | nil => rfl
  | cons field rest ih =>
    obtain ⟨slot, slots⟩ := slots
    obtain ⟨hfield, hrest⟩ := List.forall_mem_cons.mp h
    rw [complete, complete, Field.gather, Field.gather, hfield, ih hrest]

/-- When nothing is to come any more, the slots are taken together. -/
theorem finish_eq_complete (slots : Slots columns) :
    (fields.finish slots).toOption = fields.complete origin (fun _ => none) slots := by
  induction fields with
  | nil => rfl
  | @cons α columns field rest ih =>
    obtain ⟨slot, slots⟩ := slots
    have hrest : ∀ value : α, (rest.finish slots >>= fun row => Except.ok (value, row)).toOption =
        (rest.complete origin (fun _ => none) slots).map fun row => (value, row) := by
      intro value
      rw [Outcome.toOption_bind, ih]
      cases rest.complete origin (fun _ => none) slots <;> rfl
    simp only [finish, complete, Field.gather]
    cases slot with
    | some value => exact hrest value
    | none =>
      cases field.absent? with
      | some value => exact hrest value
      | none => rfl

/-- A member that is stored now gives what it would give as one that is still to come. -/
theorem complete_store (hnames : fields.names.Nodup) {name : String} {d : Sourced Doc}
    (hname : find' name = some d) (hother : ∀ n, n ≠ name → find' n = find n)
    {slots : Slots columns} (hvacant : fields.Vacant name slots) :
    fields.complete origin find' slots =
      match fields.store origin name d slots with
      | none => fields.complete origin find slots
      | some step => step.found.bind (fields.complete origin find) := by
  induction fields with
  | nil => rfl
  | @cons α columns field rest ih =>
    obtain ⟨slot, slots⟩ := slots
    obtain ⟨hnot, hrest⟩ := List.nodup_cons.mp hnames
    obtain ⟨hslot, hslots⟩ := hvacant
    by_cases heq : name = field.name
    · subst heq
      obtain rfl : slot = none := hslot rfl
      have hsame : rest.complete origin find' slots = rest.complete origin find slots :=
        complete_congr (fun n hn => hother n fun h => hnot (h ▸ hn)) slots
      have hstore : store origin field.name d (cons field rest) (none, slots) =
          some ((fun v => ((some v, slots) : Slots (α :: columns))) <$>
            field.codec.decode origin d) := by
        simp only [store, if_true, Option.isSome_none, Bool.false_eq_true, if_false]
        rfl
      rw [hstore]
      refine Eq.trans ?_ (congrArg (Option.bind · _) (Traced.found_map _ _)).symm
      rw [complete, Option.none_or, Field.gather, hname, hsame]
      dsimp only
      cases (field.codec.decode origin d).found <;> rfl
    · have hfield : field.gather origin find' = field.gather origin find := by
        rw [Field.gather, Field.gather, hother _ (Ne.symm heq)]
      rw [complete, hfield, ih hrest hslots, store, if_neg heq]
      cases rest.store origin name d slots with
      | none => rfl
      | some step =>
        refine Eq.trans ?_ (congrArg (Option.bind · _) (Traced.found_map _ _)).symm
        dsimp only
        cases hvalue : slot.or (field.gather origin find) with
        | none =>
          cases step.found with
          | none => rfl
          | some slots' =>
            show none = (slot.or (field.gather origin find)).bind _
            rw [hvalue]
            rfl
        | some value =>
          cases step.found with
          | none => rfl
          | some slots' =>
            show _ = (slot.or (field.gather origin find)).bind _
            rw [hvalue]
            rfl

/-- The slots of other names stay vacant. -/
theorem Vacant.store {name other : String} (hne : other ≠ name) {d : Sourced Doc}
    {slots slots' : Slots columns} (h : fields.Vacant other slots)
    {step : Traced ShapeError (Slots columns)}
    (hstep : fields.store origin name d slots = some step) (hfound : step.found = some slots') :
    fields.Vacant other slots' := by
  induction fields with
  | nil => trivial
  | cons field rest ih =>
    obtain ⟨slot, slots⟩ := slots
    obtain ⟨hslot, hslots⟩ := h
    rw [Fields.store] at hstep
    split at hstep
    · rename_i hname
      obtain rfl := Option.some.inj hstep
      split at hfound
      · cases hfound
      · obtain ⟨value, -, rfl⟩ :=
          Option.map_eq_some_iff.mp ((Traced.found_map _ _).symm.trans hfound)
        exact ⟨fun hother => absurd (hother.symm.trans hname.symm) hne, hslots⟩
    · obtain ⟨read, hread, rfl⟩ := Option.map_eq_some_iff.mp hstep
      obtain ⟨slots'', hslots'', rfl⟩ :=
        Option.map_eq_some_iff.mp ((Traced.found_map _ _).symm.trans hfound)
      exact ⟨hslot, ih hslots hread hslots''⟩

/-- All members, in whatever order, give what they give by name. -/
theorem storeAll_eq_complete (hnames : fields.names.Nodup)
    {members : List (Token String × Sourced Doc)} (hmembers : Doc.ByName members) :
    ∀ {slots : Slots columns},
      (∀ m ∈ members, ∀ n, m.1.reading = .ok n → fields.Vacant n slots) →
      ((fields.storeAll false origin none members slots).found.bind fun slots =>
        (fields.finish slots).toOption) =
        fields.complete origin (fun name => Doc.find? name members) slots := by
  induction members with
  | nil =>
    intro slots _
    exact finish_eq_complete slots
  | cons m rest ih =>
    intro slots hvacant
    obtain ⟨token, d⟩ := m
    obtain ⟨hfirst, hothers⟩ := List.forall_mem_cons.mp hvacant
    obtain ⟨n, hn⟩ := (List.forall_mem_cons.mp hmembers.names).1
    have hskip : d.value.skip = none := (List.forall_mem_cons.mp hmembers.skip).1
    have hnot := (List.nodup_cons.mp hmembers.distinct).1
    -- no later member has the name of this one
    have hne : ∀ m ∈ rest, ∀ n', m.1.reading = .ok n' → n' ≠ n := by
      rintro m hm n' hn' rfl
      exact hnot (List.mem_map.mpr ⟨m, hm, hn'.trans hn.symm⟩)
    have hself : Doc.find? n ((token, d) :: rest) = some d := Doc.find?_cons_self hn rest
    have hsame : ∀ n', n' ≠ n → Doc.find? n' ((token, d) :: rest) = Doc.find? n' rest :=
      fun n' hn' => Doc.find?_cons_of_ne hn hn' rest
    rw [complete_store hnames hself hsame (hfirst n hn), storeAll, Traced.found_bind,
      Traced.found_liftM, Doc.read_of_reading hn, Outcome.toOption_ok, Option.bind_some]
    cases hstore : fields.store origin n d slots with
    | none =>
      simp only [Bool.false_eq_true, if_false, hskip]
      exact ih hmembers.tail hothers
    | some step =>
      simp only [Traced.found_bind]
      cases hfound : step.found with
      | none => rfl
      | some slots' =>
        exact ih hmembers.tail fun m hm n' hn' =>
          (hothers m hm n' hn').store (hne m hm n' hn') hstore hfound

end Fields

/-- What a record finds in an object that can be read by name. -/
theorem Record.found_object {R : Type} {r : Record R} (hexact : r.exact = false)
    (hnames : r.fields.names.Nodup) {members : List (Token String × Sourced Doc)}
    (hmembers : Doc.ByName members) (origin : Origin) (text : Thunk (Option String)) :
    (r.decode origin ⟨.object members none, text⟩).found =
      origin.enter.toOption.bind fun inner =>
        (r.fields.gather inner fun name => Doc.find? name members).map r.ofRow := by
  unfold decode
  simp only [hexact, Traced.found_bind, Traced.found_liftM]
  refine congrArg _ (funext fun inner => ?_)
  rw [← Fields.complete_noSlots, ← Fields.storeAll_eq_complete hnames hmembers
    fun m _ n _ => Fields.vacant_noSlots n r.fields]
  cases (r.fields.storeAll false inner none members r.fields.noSlots).found with
  | none => rfl
  | some slots =>
    simp only [Option.bind_some]
    cases (r.fields.finish slots) <;> rfl

end ContextProtocol
