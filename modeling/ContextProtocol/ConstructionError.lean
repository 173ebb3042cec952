import ContextProtocol.Decimal.Layout

/-!
# Construction errors

A constructor argument, a step or a finished value that breaks a rule is refused with the path of
the **field** and the **reason**.

* `ConstructionError.within` puts a field under the field that holds it;
* `checkRange_eq_ok_iff`, `checkNonEmpty_eq_ok_iff`: what the two common rules accept.
-/
namespace ContextProtocol

/-- The field that was refused, as a path, and why. -/
structure ConstructionError where
  field : String
  reason : String
  deriving DecidableEq, Repr

namespace ConstructionError

/-- A required field was empty. -/
def empty (field : String) : ConstructionError := ⟨field, "must not be empty"⟩

/-- A number fell outside its range. -/
def outOfRange (field : String) (value : Float) (range : String) : ConstructionError :=
  ⟨field, "must be " ++ range ++ ", got " ++ Decimal.reason value⟩

/-- The error seen from the enclosing field. An error about the value as a whole is an error about
that field. -/
def within (e : ConstructionError) (parent : String) : ConstructionError :=
  { e with field := if e.field.isEmpty then parent else parent ++ "." ++ e.field }

def message (e : ConstructionError) : String := "invalid " ++ e.field ++ ": " ++ e.reason

@[simp] theorem reason_within (e : ConstructionError) (parent : String) :
    (e.within parent).reason = e.reason := rfl

end ConstructionError

/-- Refuses numbers outside `[min, max]` and NaN. -/
def checkRange (field : String) (value min max : Float) : Except ConstructionError Unit :=
  if value.isNaN || value < min || max < value then
    .error (.outOfRange field value
      ("between " ++ Decimal.reason min ++ " and " ++ Decimal.reason max))
  else .ok ()

/-- Refuses the empty text. -/
def checkNonEmpty (field value : String) : Except ConstructionError Unit :=
  if value.isEmpty then .error (.empty field) else .ok ()

theorem checkRange_eq_ok_iff (field : String) (value min max : Float) :
    checkRange field value min max = .ok () ↔
      value.isNaN = false ∧ ¬ value < min ∧ ¬ max < value := by
  unfold checkRange
  cases value.isNaN <;> by_cases h : value < min <;> by_cases h' : max < value <;> simp [h, h']

theorem checkNonEmpty_eq_ok_iff (field value : String) :
    checkNonEmpty field value = .ok () ↔ value ≠ "" := by
  unfold checkNonEmpty
  split <;> simp_all

end ContextProtocol
