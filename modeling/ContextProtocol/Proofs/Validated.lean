import ContextProtocol.Proofs.Outcome
import ContextProtocol.Validated

/-!
# Construction in steps

A construction succeeds when all its steps do and the finished value obeys the rules. So what can
be built from an initial value are the valid values that some steps **reach** from it, and whatever
every step preserves holds of all of them.

Results:
* `build_eq_ok_iff`: when a construction succeeds.
* `applyAll_eq_ok_iff`: what it takes to succeed with steps that are a condition and a change each.
* `applyAll_eq_last`: steps that commute with all the others may be taken at the end.
* `applyAll_invariant`, `valid_and_of_build`: what each step preserves, all steps preserve, so it
  holds of what is built.
* `applyAll_eq_error_iff`: steps are refused at the first one that is.
* `Stable.build_eq`: where no accepted step breaks the rules, only a step can be refused.
* `checkEach_eq_ok_iff`: a list obeys a rule when each of its items does.
* `checkEach_eq_error`: otherwise the first item that does not is refused.
* `Located`: rules that name a field whenever they refuse, from the rules of the parts.
-/
namespace ContextProtocol

section Steps

variable {α Step : Type} [Validated α Step] {a b c : α}

/-- Some steps lead from one value to the other. -/
def Reaches (a b : α) : Prop := ∃ steps : List Step, applyAll a steps = .ok b

theorem applyAll_cons (a : α) (step : Step) (steps : List Step) :
    applyAll a (step :: steps) = (Validated.apply a step >>= fun b => applyAll b steps) :=
  List.foldlM_cons ..

theorem applyAll_append (a : α) (steps more : List Step) :
    applyAll a (steps ++ more) = (applyAll a steps >>= fun b => applyAll b more) :=
  List.foldlM_append ..

/-- What each of the steps preserves, all of them preserve. -/
theorem applyAll_invariant (P : α → Prop) {steps : List Step}
    (hstep : ∀ a, ∀ s ∈ steps, ∀ b, Validated.apply a s = .ok b → P a → P b)
    (h : applyAll a steps = .ok b) (ha : P a) : P b := by
  induction steps generalizing a with
  | nil =>
    cases h
    exact ha
  | cons s steps ih =>
    rw [applyAll_cons, Outcome.bind_eq_ok_iff] at h
    obtain ⟨c, hc, hrest⟩ := h
    exact ih (fun a s hs => hstep a s (List.mem_cons_of_mem _ hs)) hrest
      (hstep a s List.mem_cons_self c hc ha)

/-- Steps are refused at the first one that is: those before it are accepted. -/
theorem applyAll_eq_error_iff {steps : List Step} {e : ConstructionError} :
    applyAll a steps = .error e ↔ ∃ before s after b, steps = before ++ s :: after ∧
      applyAll a before = .ok b ∧ Validated.apply b s = .error e := by
  constructor
  · intro h
    induction steps generalizing a with
    | nil => cases h
    | cons s steps ih =>
      rw [applyAll_cons, Outcome.bind_eq_error_iff] at h
      rcases h with h | ⟨b, hb, h⟩
      · exact ⟨[], s, steps, a, rfl, rfl, h⟩
      · obtain ⟨before, s', after, c, rfl, hbefore, hs'⟩ := ih h
        refine ⟨s :: before, s', after, c, rfl, ?_, hs'⟩
        rw [applyAll_cons, hb]
        exact hbefore
  · rintro ⟨before, s, after, b, rfl, hbefore, hs⟩
    rw [applyAll_append, hbefore, Outcome.ok_bind, applyAll_cons, hs]
    rfl

/-- When each step is a condition and a change, all steps are their conditions, which do not depend
on one another, and their changes in a row. -/
theorem applyAll_eq_ok_iff {P : Step → Prop} {f : α → Step → α}
    (hstep : ∀ a s b, Validated.apply a s = .ok b ↔ P s ∧ f a s = b) {steps : List Step} :
    applyAll a steps = .ok b ↔ (∀ s ∈ steps, P s) ∧ steps.foldl f a = b := by
  induction steps generalizing a with
  | nil => simp [applyAll, pure, Except.pure]
  | cons s steps ih =>
    rw [applyAll_cons, Outcome.bind_eq_ok_iff, List.forall_mem_cons, List.foldl_cons]
    simp only [hstep, ih]
    constructor
    · rintro ⟨c, ⟨hs, rfl⟩, hrest, h⟩
      exact ⟨⟨hs, hrest⟩, h⟩
    · rintro ⟨⟨hs, hrest⟩, h⟩
      exact ⟨f a s, ⟨hs, rfl⟩, hrest, h⟩

/-- What the last of some items gives, where an earlier one gives way to a later one. -/
theorem getLast?_filterMap_cons {β γ : Type} (f : β → Option γ) (x : β) (xs : List β)
    (o : Option γ) :
    ((x :: xs).filterMap f).getLast?.or o = (xs.filterMap f).getLast?.or ((f x).or o) := by
  cases h : f x with
  | none => simp [h]
  | some y => simp [h, List.getLast?_cons]

/-- The two steps come to the same in either order, refusals included. -/
def Commute (α : Type) {Step : Type} [Validated α Step] (s s' : Step) : Prop :=
  ∀ a : α, (Validated.apply a s >>= fun b => Validated.apply b s') =
    (Validated.apply a s' >>= fun b => Validated.apply b s)

theorem applyAll_comm {s : Step} {steps : List Step}
    (h : ∀ s' ∈ steps, Commute α s s') (a : α) :
    (Validated.apply a s >>= fun b => applyAll b steps) =
      (applyAll a steps >>= fun b => Validated.apply b s) := by
  induction steps generalizing a with
  | nil =>
    simp only [applyAll, List.foldlM_nil, bind_pure, pure_bind]
  | cons s' steps ih =>
    obtain ⟨hs', hrest⟩ := List.forall_mem_cons.mp h
    simp only [applyAll_cons, bind_assoc, ← ih hrest]
    rw [← bind_assoc, hs' a, bind_assoc]

/-- Steps that commute with all the others may be taken at the end. -/
theorem applyAll_eq_last (late : Step → Bool)
    (h : ∀ s s', late s = true → late s' = false → Commute α s s')
    (a : α) (steps : List Step) :
    applyAll a steps = applyAll a (steps.filter (fun s => !late s) ++ steps.filter late) := by
  induction steps generalizing a with
  | nil => rfl
  | cons s steps ih =>
    cases hs : late s with
    | false => simp [hs, applyAll_cons, ih]
    | true =>
      -- the step passes all that are taken before the late ones
      have hcomm : ∀ s' ∈ steps.filter (fun s => !late s), Commute α s s' := fun s' hs' =>
        h s s' hs (by simpa using (List.mem_filter.mp hs').2)
      have hpass := applyAll_comm hcomm a
      simp only [List.filter_cons, hs, Bool.not_true, Bool.false_eq_true, if_false, if_true]
      rw [applyAll_append, applyAll_cons]
      simp only [ih, applyAll_append, applyAll_cons, ← bind_assoc, hpass]

theorem build_eq_ok_iff {steps : List Step} :
    (build a steps).result = .ok b ↔ applyAll a steps = .ok b ∧ Valid b := by
  rw [build_result, Outcome.bind_eq_ok_iff]
  simp only [Outcome.check_bind_ok_iff]
  constructor
  · rintro ⟨c, hsteps, hvalid, rfl⟩
    exact ⟨hsteps, hvalid⟩
  · rintro ⟨hsteps, hvalid⟩
    exact ⟨b, hsteps, hvalid, rfl⟩

/-- A construction that succeeds reports nothing. -/
theorem build_eq_pure {steps : List Step} (h : applyAll a steps = .ok b) (hb : Valid b) :
    build a steps = pure b := by
  have hrules : validate b = .ok () := hb
  unfold build
  simp only [h, hrules]

/-- No accepted step breaks the rules of a valid value. -/
def Stable (α : Type) {Step : Type} [Validated α Step] : Prop :=
  ∀ (a : α) (s : Step) (b : α), Validated.apply a s = .ok b → Valid a → Valid b

/-- From a valid value, a construction is stopped by a step or comes to its end. -/
theorem Stable.build_eq (h : Stable α) (ha : Valid a) (steps : List Step) :
    build a steps =
      match applyAll a steps with
      | .error e => .refuse (.build ("step rejected: " ++ e.message)) e
      | .ok b => pure b := by
  cases hsteps : applyAll a steps with
  | error e =>
    unfold build
    rw [hsteps]
  | ok b => exact build_eq_pure hsteps (applyAll_invariant Valid (fun a s _ b => h a s b) hsteps ha)

/-- What can be built is valid and within reach. -/
theorem exists_build_iff :
    (∃ steps : List Step, (build a steps).result = .ok b) ↔ Reaches a b ∧ Valid b := by
  simp only [build_eq_ok_iff, exists_and_right]
  rfl

namespace Reaches

theorem refl (a : α) : Reaches a a := ⟨[], rfl⟩

theorem step {s : Step} (h : Validated.apply a s = .ok b) : Reaches a b := by
  refine ⟨[s], ?_⟩
  rw [applyAll_cons, h]
  rfl

theorem trans (hab : Reaches a b) (hbc : Reaches b c) : Reaches a c := by
  obtain ⟨steps, hsteps⟩ := hab
  obtain ⟨more, hmore⟩ := hbc
  refine ⟨steps ++ more, ?_⟩
  rw [applyAll_append, hsteps]
  exact hmore

/-- A step for a value that may be unset is taken when it is set. -/
theorem optional {β : Type} (f : β → Step) (g : Option β → α) {o : Option β}
    (h : ∀ x, o = some x → Validated.apply (g none) (f x) = .ok (g (some x))) :
    Reaches (g none) (g o) := by
  cases o with
  | none => exact refl _
  | some x => exact step (h x rfl)

/-- What each step preserves, all steps preserve. -/
theorem invariant (P : α → Prop) (hstep : ∀ a (s : Step) b, Validated.apply a s = .ok b → P a → P b)
    (h : Reaches a b) (ha : P a) : P b := by
  obtain ⟨steps, hsteps⟩ := h
  exact applyAll_invariant P (fun a s _ b => hstep a s b) hsteps ha

end Reaches

/-- What is built is valid, and has whatever each step preserves. -/
theorem valid_and_of_build (P : α → Prop)
    (hstep : ∀ a (s : Step) b, Validated.apply a s = .ok b → P a → P b) (ha : P a)
    {steps : List Step} (h : (build a steps).result = .ok b) : Valid b ∧ P b := by
  obtain ⟨hreach, hvalid⟩ := exists_build_iff.mp ⟨steps, h⟩
  exact ⟨hvalid, hreach.invariant P hstep ha⟩

end Steps

/-! ## Rules of texts and lists -/

/-- A step that refuses the empty text. -/
theorem checkNonEmpty_bind_eq_ok_iff {α : Type} {field text : String} {a b : α} :
    (checkNonEmpty field text >>= fun _ => Except.ok a) = .ok b ↔ text ≠ "" ∧ a = b := by
  rw [Outcome.check_bind_ok_iff, checkNonEmpty_eq_ok_iff]

variable {β : Type} {check : β → Except ConstructionError Unit} {list suffix : String}

theorem checkFrom_eq_ok_iff {items : List β} :
    ∀ {i : Nat}, checkFrom list suffix check i items = .ok () ↔
      ∀ item ∈ items, check item = .ok () := by
  induction items with
  | nil =>
    intro i
    exact ⟨fun _ _ hm => absurd hm List.not_mem_nil, fun _ => rfl⟩
  | cons item rest ih =>
    intro i
    rw [checkFrom, Outcome.check_bind_eq_ok_iff, Outcome.mapError_eq_ok_iff, ih,
      List.forall_mem_cons]

/-- A list obeys a rule when each of its items does. -/
theorem checkEach_eq_ok_iff {items : List β} :
    checkEach list suffix check items = .ok () ↔ ∀ item ∈ items, check item = .ok () :=
  checkFrom_eq_ok_iff

theorem checkFrom_eq_error {items : List β} {e : ConstructionError} :
    ∀ {i : Nat}, checkFrom list suffix check i items = .error e →
      ∃ before item after e', items = before ++ item :: after ∧
        (∀ b ∈ before, check b = .ok ()) ∧ check item = .error e' ∧
        e = e'.within (list ++ "[" ++ toString (i + before.length) ++ "]" ++ suffix) := by
  induction items with
  | nil => exact nofun
  | cons item rest ih =>
    intro i h
    rw [checkFrom] at h
    cases hitem : check item with
    | error e' =>
      rw [hitem] at h
      cases h
      exact ⟨[], item, rest, e', rfl, List.forall_mem_nil _, hitem, rfl⟩
    | ok u =>
      rw [hitem] at h
      obtain ⟨before, item', after, e', rfl, hbefore, hitem', rfl⟩ := ih h
      refine ⟨item :: before, item', after, e', rfl, List.forall_mem_cons.mpr ⟨hitem, hbefore⟩,
        hitem', ?_⟩
      rw [List.length_cons, Nat.add_assoc, Nat.add_comm 1]

/-- The first item that breaks a rule is refused, seen from its place in the list. -/
theorem checkEach_eq_error {items : List β} {e : ConstructionError}
    (h : checkEach list suffix check items = .error e) :
    ∃ before item after e', items = before ++ item :: after ∧
      (∀ b ∈ before, check b = .ok ()) ∧ check item = .error e' ∧
      e = e'.within (list ++ "[" ++ toString before.length ++ "]" ++ suffix) := by
  have hfirst := checkFrom_eq_error h
  simp only [Nat.zero_add] at hfirst
  exact hfirst

theorem checkEach_map {γ : Type} (f : γ → β) (items : List γ) :
    checkEach list suffix check (items.map f) =
      checkEach list suffix (fun item => check (f item)) items := by
  unfold checkEach
  generalize 0 = i
  induction items generalizing i with
  | nil => rfl
  | cons item rest ih => rw [List.map_cons, checkFrom, checkFrom, ih]

/-! ## Refusals that name a field -/

/-- Whatever is refused, the refusal names a field. -/
def Located (r : Except ConstructionError Unit) : Prop := ∀ e, r = .error e → e.field ≠ ""

theorem ConstructionError.within_eq {e : ConstructionError} (h : e.field ≠ "") (parent : String) :
    e.within parent = ⟨parent ++ "." ++ e.field, e.reason⟩ := by
  have hfield : e.field.isEmpty = false := by simpa using h
  rw [within, hfield]
  rfl

namespace Located

theorem ok : Located (.ok ()) := nofun

theorem refused {field reason : String} (h : field ≠ "") : Located (.error ⟨field, reason⟩) :=
  fun _ he => Except.error.inj he ▸ h

theorem bind {r : Except ConstructionError Unit} {f : Unit → Except ConstructionError Unit}
    (hr : Located r) (hf : Located (f ())) : Located (r >>= f) := by
  cases r with
  | error e => exact hr
  | ok u => exact hf

/-- Seen from an enclosing field, a refusal names at least that field. -/
theorem within {r : Except ConstructionError Unit} {parent : String} (h : parent ≠ "") :
    Located (r.mapError (·.within parent)) := by
  cases r with
  | ok u => exact ok
  | error e =>
    refine refused ?_
    by_cases hfield : e.field = ""
    · simpa [hfield] using h
    · simp [hfield, h]

theorem nonEmpty {field value : String} (h : field ≠ "") : Located (checkNonEmpty field value) := by
  unfold checkNonEmpty
  split
  · exact refused h
  · exact ok

end Located

end ContextProtocol
