import ContextProtocol.ConstructionError
import ContextProtocol.Trace

/-!
# Validated construction

Every message is built the same way: from an initial value, by an ordered list of **steps** each of
which checks its own input, and by one validation of the finished value. The first refusal ends the
construction, and nothing half built is returned.

* `Validated`: the steps and the rules of a type;
* `build`: the construction;
* `build_result`: its outcome is the fold of the steps followed by the validation, whatever is
  reported on the way;
* `validate_of_build`: a value that was built obeys the rules.
-/
namespace ContextProtocol

/-- A type whose values are built in steps and obey rules of their own. -/
class Validated (α : Type) (Step : outParam Type) where
  /-- Applies one step, checking the step's own input. -/
  apply : α → Step → Except ConstructionError α
  /-- The rules of a finished value. -/
  validate : α → Except ConstructionError Unit

export Validated (validate)

/-- The rules hold of the value. -/
def Valid {α Step : Type} [Validated α Step] (value : α) : Prop := validate value = .ok ()

instance {α Step : Type} [Validated α Step] (value : α) : Decidable (Valid value) :=
  match h : validate value with
  | .ok () => .isTrue h
  | .error _ => .isFalse (by simp [Valid, h])

variable {α Step : Type} [Validated α Step]

/-- Checks the items of a list in their order, from position `i` on. A refusal is seen from the
list: `list[i]`, followed by `suffix`. -/
def checkFrom {β : Type} (list suffix : String) (check : β → Except ConstructionError Unit)
    (i : Nat) : List β → Except ConstructionError Unit
  | [] => .ok ()
  | item :: rest => do
    (check item).mapError (·.within (list ++ "[" ++ toString i ++ "]" ++ suffix))
    checkFrom list suffix check (i + 1) rest

/-- Checks the items of a list in their order. -/
def checkEach {β : Type} (list suffix : String) (check : β → Except ConstructionError Unit)
    (items : List β) : Except ConstructionError Unit :=
  checkFrom list suffix check 0 items

/-- Applies the steps in order, until one is refused. -/
def applyAll (initial : α) (steps : List Step) : Except ConstructionError α :=
  steps.foldlM Validated.apply initial

/-- Applies the steps in order and validates the result. A refusal is reported. -/
def build (initial : α) (steps : List Step) : Traced ConstructionError α :=
  match applyAll initial steps with
  | .error e => .refuse (.build ("step rejected: " ++ e.message)) e
  | .ok value =>
    match validate value with
    | .error e => .refuse (.build ("failed validation: " ++ e.message)) e
    | .ok () => pure value

theorem build_result (initial : α) (steps : List Step) :
    (build initial steps).result =
      (applyAll initial steps >>= fun value => validate value >>= fun _ => .ok value) := by
  unfold build
  cases applyAll initial steps with
  | error e => rfl
  | ok value => cases h : validate value <;> simp [h, bind, Except.bind]

theorem validate_of_build {initial value : α} {steps : List Step}
    (h : (build initial steps).result = .ok value) : Valid value := by
  rw [build_result] at h
  cases ha : applyAll initial steps with
  | error e => simp [ha, bind, Except.bind] at h
  | ok v =>
    cases hv : validate v with
    | error e => simp [ha, hv, bind, Except.bind] at h
    | ok u =>
      simp only [ha, hv, bind, Except.bind, Except.ok.injEq] at h
      exact h ▸ hv

end ContextProtocol
