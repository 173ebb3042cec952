import ContextProtocol.ConstructionError
import ContextProtocol.Trace

/-!
# Outcomes of sequences

Readers and rules are sequences of steps of which each may fail. A sequence succeeds when all its
steps do, so success is taken apart step by step, and no proof unfolds a sequence.

Results:
* `bind_eq_ok_iff`, `map_eq_ok_iff`, `mapError_eq_ok_iff`: what it takes to succeed.
* `bind_eq_error_iff`: a sequence fails at its first step or after it.
* `check_bind_eq_ok_iff`: two rules in a row both hold.
* `check_bind_ok_iff`: a result behind a rule is there when the rule holds.
* `Traced.found`: what is found when a computation succeeds, without the reason when it fails.
-/
namespace ContextProtocol.Outcome

variable {ε ε' α β : Type}

@[simp] theorem ok_bind (a : α) (f : α → Except ε β) : (Except.ok a >>= f) = f a := rfl

@[simp] theorem error_bind (e : ε) (f : α → Except ε β) :
    (Except.error e >>= f) = .error e := rfl

@[simp] theorem map_ok (a : α) (f : α → β) : (Except.ok a : Except ε α).map f = .ok (f a) := rfl

@[simp] theorem map_error (e : ε) (f : α → β) : (Except.error e).map f = .error e := rfl

@[simp] theorem mapError_ok (a : α) (f : ε → ε') :
    (Except.ok a : Except ε α).mapError f = .ok a := rfl

@[simp] theorem mapError_error (e : ε) (f : ε → ε') :
    (Except.error e : Except ε α).mapError f = .error (f e) := rfl

theorem bind_eq_ok_iff {x : Except ε α} {f : α → Except ε β} {b : β} :
    (x >>= f) = .ok b ↔ ∃ a, x = .ok a ∧ f a = .ok b := by
  cases x with
  | error e => simp
  | ok a => simp

theorem map_eq_ok_iff {x : Except ε α} {f : α → β} {b : β} :
    x.map f = .ok b ↔ ∃ a, x = .ok a ∧ f a = b := by
  cases x with
  | error e => simp
  | ok a => simp

theorem fmap_eq_ok_iff {x : Except ε α} {f : α → β} {b : β} :
    f <$> x = .ok b ↔ ∃ a, x = .ok a ∧ f a = b := map_eq_ok_iff

@[simp] theorem mapError_eq_ok_iff {x : Except ε α} {f : ε → ε'} {a : α} :
    x.mapError f = .ok a ↔ x = .ok a := by
  cases x with
  | error e => simp
  | ok b => simp

theorem mapError_fmap (x : Except ε α) (g : α → β) (f : ε → ε') :
    (g <$> x).mapError f = g <$> x.mapError f := by
  cases x <;> rfl

theorem mapError_bind (x : Except ε α) (g : α → Except ε β) (f : ε → ε') :
    (x >>= g).mapError f = x.mapError f >>= fun a => (g a).mapError f := by
  cases x <;> rfl

theorem bind_eq_error_iff {x : Except ε α} {f : α → Except ε β} {e : ε} :
    (x >>= f) = .error e ↔ x = .error e ∨ ∃ a, x = .ok a ∧ f a = .error e := by
  cases x with
  | error e => simp
  | ok a => simp

theorem map_eq_error_iff {x : Except ε α} {f : α → β} {e : ε} :
    x.map f = .error e ↔ x = .error e := by
  cases x with
  | error e => simp
  | ok a => simp

/-- Two rules in a row both hold. -/
theorem check_bind_eq_ok_iff {x y : Except ε Unit} :
    (x >>= fun _ => y) = .ok () ↔ x = .ok () ∧ y = .ok () := by
  cases x with
  | error e => simp
  | ok u => simp

theorem check_bind_ok_iff {x : Except ε Unit} {a b : α} :
    (x >>= fun _ => .ok a) = .ok b ↔ x = .ok () ∧ a = b := by
  cases x with
  | error e => simp
  | ok u => simp

@[simp] theorem toOption_ok (a : α) : (Except.ok a : Except ε α).toOption = some a := rfl

@[simp] theorem toOption_error (e : ε) : (Except.error e : Except ε α).toOption = none := rfl

@[simp] theorem toOption_bind (x : Except ε α) (f : α → Except ε β) :
    (x >>= f).toOption = x.toOption.bind fun a => (f a).toOption := by
  cases x <;> rfl

@[simp] theorem toOption_map (x : Except ε α) (f : α → β) :
    (f <$> x).toOption = x.toOption.map f := by
  cases x <;> rfl

theorem toOption_eq_some_iff {x : Except ε α} {a : α} : x.toOption = some a ↔ x = .ok a := by
  cases x <;> simp

end ContextProtocol.Outcome

namespace ContextProtocol.Traced

variable {ε ε' α β : Type}

theorem bind_eq_ok_iff {x : Traced ε α} {f : α → Traced ε β} {b : β} :
    (x >>= f).result = .ok b ↔ ∃ a, x.result = .ok a ∧ (f a).result = .ok b := by
  rw [result_bind, Outcome.bind_eq_ok_iff]

theorem map_eq_ok_iff {x : Traced ε α} {f : α → β} {b : β} :
    (f <$> x).result = .ok b ↔ ∃ a, x.result = .ok a ∧ f a = b := by
  rw [result_map, Outcome.fmap_eq_ok_iff]

/-- A result that is there is handed on. -/
theorem ok_bind (a : α) (f : α → Traced ε β) :
    ((liftM (Except.ok a : Except ε α) : Traced ε α) >>= f) = f a := rfl

/-- What a computation finds, if it succeeds. -/
def found (x : Traced ε α) : Option α := x.result.toOption

@[simp] theorem found_pure (a : α) : (pure a : Traced ε α).found = some a := rfl

@[simp] theorem found_liftM (x : Except ε α) : (liftM x : Traced ε α).found = x.toOption := rfl

@[simp] theorem found_bind (x : Traced ε α) (f : α → Traced ε β) :
    (x >>= f).found = x.found.bind fun a => (f a).found := by
  rw [found, result_bind, Outcome.toOption_bind]
  rfl

@[simp] theorem found_map (x : Traced ε α) (f : α → β) : (f <$> x).found = x.found.map f := by
  rw [found, result_map, Outcome.toOption_map]
  rfl

/-- What follows a computation is only asked about what the computation returned. -/
theorem bind_congr {x : Traced ε α} {f g : α → Traced ε β}
    (h : ∀ a, x.result = .ok a → f a = g a) : (x >>= f) = (x >>= g) := by
  obtain ⟨events, e | a⟩ := x
  · rfl
  · exact congrArg (fun y : Traced ε β => (⟨events ++ y.events, y.result⟩ : Traced ε β)) (h a rfl)

theorem found_eq_some_iff {x : Traced ε α} {a : α} : x.found = some a ↔ x.result = .ok a :=
  Outcome.toOption_eq_some_iff

end ContextProtocol.Traced
