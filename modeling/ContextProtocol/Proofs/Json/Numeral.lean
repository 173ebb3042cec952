import ContextProtocol.Json.Literal
import Mathlib.Tactic.Ring

/-!
# Numbers read from their digits

A number at the start of a text ends where no digit, point or exponent follows. Reading digits in
front of any such rest consumes exactly the digits, part by part: the whole part, the fraction and
the exponent.

Results:
* `scanNumber_whole`, `scanFraction_point`, `scanExponent_signed`: the reader passes over one part
  of a number, whatever stands behind it.
* `Decimal.isWhole_digits`: the digits of a natural number may stand before the point.
* `scanNumber_integer`: an integer is read back from its digits.
-/
namespace ContextProtocol

/-- Nothing that a number goes on with. -/
def EndsNumber (rest : List Symbol) : Prop :=
  ∀ c tail, rest = .char c :: tail → c.isDigit = false ∧ c ≠ '.' ∧ c ≠ 'e' ∧ c ≠ 'E'

theorem endsNumber_nil : EndsNumber [] := by
  intro c tail h; cases h

theorem EndsNumber.not_digit {rest : List Symbol} (h : EndsNumber rest) :
    ∀ c tail, rest = .char c :: tail → c.isDigit = false :=
  fun c tail hc => (h c tail hc).1

theorem takeDigits_append {ds : List Char} (hds : ∀ c ∈ ds, c.isDigit = true) {rest : List Symbol}
    (hrest : ∀ c tail, rest = .char c :: tail → c.isDigit = false) :
    takeDigits (ds.map .char ++ rest) = (ds, rest) := by
  induction ds with
  | nil =>
    cases rest with
    | nil => rfl
    | cons s tail =>
      cases s with
      | stray => rfl
      | char c => simp [takeDigits, hrest c tail rfl]
  | cons d ds ih =>
    have hd := hds d (by simp)
    have ih := ih fun c hc => hds c (by simp [hc])
    simp only [List.map_cons, List.cons_append, takeDigits, hd, if_true, ih]

theorem scanExponent_end (negative : Bool) (whole : List Char) (fraction : Option (List Char))
    {rest : List Symbol} (h : EndsNumber rest) :
    scanExponent negative whole fraction rest =
      ⟨Numeral.token ⟨negative, whole, fraction, none⟩, some rest⟩ := by
  unfold scanExponent
  split
  · rename_i c tail
    obtain ⟨-, -, he, hE⟩ := h c tail rfl
    rw [if_neg (by simp [he, hE])]
  · rfl

theorem scanFraction_end (negative : Bool) (whole : List Char) {rest : List Symbol}
    (h : EndsNumber rest) :
    scanFraction negative whole rest =
      ⟨Numeral.token ⟨negative, whole, none, none⟩, some rest⟩ := by
  unfold scanFraction
  split
  · rename_i tail
    exact absurd rfl (h '.' tail rfl).2.1
  · exact scanExponent_end _ _ _ h

/-- Digits behind the point. -/
theorem scanFraction_point (negative : Bool) (whole : List Char) {ds : List Char}
    (hds : ∀ c ∈ ds, c.isDigit = true) (hne : ds ≠ []) {rest : List Symbol}
    (hrest : ∀ c tail, rest = .char c :: tail → c.isDigit = false) :
    scanFraction negative whole (.char '.' :: (ds.map .char ++ rest)) =
      scanExponent negative whole (some ds) rest := by
  unfold scanFraction
  simp only [takeDigits_append hds hrest]
  rw [if_neg (by simpa using hne)]

/-- A whole part: digits of which the first is no zero unless it stands alone. -/
structure IsWhole (ds : List Char) : Prop where
  digits : ∀ c ∈ ds, c.isDigit = true
  ne_nil : ds ≠ []
  leading : ds = ['0'] ∨ ds.head? ≠ some '0'

theorem scanNumber_whole (negative : Bool) {ds : List Char} (h : IsWhole ds) {rest : List Symbol}
    (hrest : ∀ c tail, rest = .char c :: tail → c.isDigit = false) :
    scanNumber negative (ds.map .char ++ rest) = scanFraction negative ds rest := by
  unfold scanNumber
  rw [takeDigits_append h.digits hrest]
  split
  · rename_i heq; cases heq; exact absurd rfl h.ne_nil
  · rename_i heq; cases heq; rfl
  · rename_i d ds' r hne heq
    cases heq
    rcases h.leading with hl | hl
    · cases hl; exact (hne rfl).elim
    · exact absurd rfl hl
  · rename_i heq; cases heq; rfl

/-- An exponent with its sign. -/
theorem scanExponent_signed (negative : Bool) (whole : List Char) (fraction : Option (List Char))
    (exponentNegative : Bool) {ds : List Char} (hds : ∀ c ∈ ds, c.isDigit = true) (hne : ds ≠ [])
    {rest : List Symbol} (hrest : ∀ c tail, rest = .char c :: tail → c.isDigit = false) :
    scanExponent negative whole fraction
      (.char 'e' :: .char (if exponentNegative then '-' else '+') :: (ds.map .char ++ rest)) =
      ⟨Numeral.token ⟨negative, whole, fraction,
        some (if exponentNegative then -(Numeral.ofDigits ds : Int) else Numeral.ofDigits ds)⟩,
        some rest⟩ := by
  have h : ds.isEmpty = false := by simpa using hne
  cases exponentNegative <;>
    simp [scanExponent, takeDigits_append hds hrest, h]

/-! ## Decimal digits -/

namespace Decimal

theorem digits_isDigit (n : Nat) : ∀ c ∈ digits n, c.isDigit = true := fun _ hc =>
  Nat.isDigit_of_mem_toDigits (by decide) (by decide) hc

theorem digits_ne_nil (n : Nat) : digits n ≠ [] := Nat.toDigits_ne_nil

theorem ofDigits_eq (ds : List Char) : Numeral.ofDigits ds = Nat.ofDigitChars 10 ds 0 := rfl

@[simp] theorem ofDigits_digits (n : Nat) : Numeral.ofDigits (digits n) = n := by
  rw [ofDigits_eq, digits, Nat.ofDigitChars_ten_toDigits]

theorem digitChar_ne_zero : ∀ n < 10, n ≠ 0 → n.digitChar ≠ '0' := by decide

theorem digits_head {n : Nat} (h : n ≠ 0) : (digits n).head? ≠ some '0' := by
  induction n using Nat.strongRecOn with
  | ind n ih =>
    unfold digits
    rcases Nat.lt_or_ge n 10 with hlt | hge
    · rw [Nat.toDigits_of_lt_base hlt]
      simpa using digitChar_ne_zero n hlt h
    · rw [Nat.toDigits_of_base_le (by decide) hge, List.head?_append]
      have hq := ih (n / 10) (by omega) (by omega)
      unfold digits at hq
      have hne := Nat.toDigits_ne_nil (n := n / 10) (b := 10)
      cases hds : Nat.toDigits 10 (n / 10) with
      | nil => exact absurd hds hne
      | cons c cs => rw [hds] at hq; simpa using hq

theorem isWhole_digits (n : Nat) : IsWhole (digits n) where
  digits := digits_isDigit n
  ne_nil := digits_ne_nil n
  leading := by
    by_cases h : n = 0
    · subst h; exact .inl rfl
    · exact .inr (digits_head h)

end Decimal

/-- An integer with a sign is not zero. -/
theorem not_negativeZero (i : Int) : ¬ (decide (i < 0) && i.natAbs == 0) = true := by
  rw [Bool.and_eq_true, decide_eq_true_iff, beq_iff_eq]
  omega

/-- An integer is put together from its sign and its magnitude. -/
theorem signed_natAbs (i : Int) :
    (if decide (i < 0) = true then -((i.natAbs : Nat) : Int) else (i.natAbs : Nat)) = i := by
  split
  · rename_i h
    have := of_decide_eq_true h
    omega
  · rename_i h
    have := of_decide_eq_false (Bool.eq_false_iff.mpr h)
    omega

/-- An integer is read back from its digits. -/
theorem scanNumber_integer {i : Int} (h : -0x8000000000000000 ≤ i ∧ i < 0x10000000000000000)
    {rest : List Symbol} (hrest : EndsNumber rest) :
    scanNumber (decide (i < 0)) ((Decimal.digits i.natAbs).map .char ++ rest) =
      ⟨.sound (.integer i h), some rest⟩ := by
  rw [scanNumber_whole _ (Decimal.isWhole_digits _) hrest.not_digit,
    scanFraction_end _ _ hrest]
  have hnum : Numeral.number ⟨decide (i < 0), Decimal.digits i.natAbs, none, none⟩ =
      .ok (.integer i h) := by
    unfold Numeral.number
    simp only [Option.isSome_none, Bool.or_self, Bool.false_eq_true, if_false,
      Decimal.ofDigits_digits]
    rw [if_neg (not_negativeZero i)]
    simp only [signed_natAbs, h, and_self, dif_pos]
  unfold Numeral.token
  rw [hnum]
  rfl

end ContextProtocol
