import ContextProtocol.Decimal.Layout
import ContextProtocol.Proofs.Decimal.FloatBits
import ContextProtocol.Proofs.Decimal.ReadBack
import ContextProtocol.Proofs.Json.Numeral
import Mathlib.Tactic.Ring

/-!
# Floats read back from their digits

A finite float is written with its shortest digits, positionally or with an exponent, and always
with a point or an exponent, so it is never read as an integer. A numeral **writes** a decimal when
the digits and the exponent it holds have the same nearest pattern.

Results:
* `Numeral.Writes.number_eq`: a numeral that writes a finite decimal is read as its nearest float.
* `scan_positional`, `scan_scientific`: each layout writes the decimal it was made from.
* `scanNumber_wireDigits`: a finite float is read back, bit for bit.
-/
namespace ContextProtocol

/-- The numeral has a fraction or an exponent and writes a decimal, up to rounding. -/
structure Numeral.Writes (n : Numeral) (negative : Bool) (d : Decimal) : Prop where
  negative_eq : n.negative = negative
  not_integer : (n.fraction.isSome || n.exponent.isSome) = true
  bits_eq : Decimal.bits ⟨ofDigits (n.whole ++ n.fraction.getD []),
    n.exponent.getD 0 - (n.fraction.getD []).length⟩ = d.bits

/-- A numeral that writes a finite decimal is read as its nearest float. -/
theorem Numeral.Writes.number_eq {n : Numeral} {negative : Bool} {d : Decimal}
    (h : n.Writes negative d) {x : Float} (hx : Decimal.floatOfBits negative d.bits = x)
    (hfin : x.isFinite = true) (hlt : d.bits < Decimal.infinityBits) :
    n.number = .ok (.float x hfin) := by
  have hscan : Decimal.ofScientific n.negative (ofDigits (n.whole ++ n.fraction.getD []))
      (n.exponent.getD 0 - (n.fraction.getD []).length) = x := by
    rw [Decimal.ofScientific_eq, h.bits_eq, h.negative_eq, Nat.min_eq_left (Nat.le_of_lt hlt), hx]
  unfold number float
  rw [if_pos h.not_integer]
  simp only [hscan, Number.ofFloat?, hfin, dif_pos]

namespace Decimal

theorem isDigit_zero : ∀ (k : Nat), ∀ c ∈ List.replicate k '0', c.isDigit = true := by
  intro k c hc
  rw [List.eq_of_mem_replicate hc]
  decide

theorem not_isDigit_of_cons {c : Char} (hc : c.isDigit = false) (rest : List Symbol) :
    ∀ d tail, Symbol.char c :: rest = .char d :: tail → d.isDigit = false := by
  intro d tail h
  cases h
  exact hc

theorem point_not_digit (rest : List Symbol) :
    ∀ d tail, Symbol.char '.' :: rest = .char d :: tail → d.isDigit = false :=
  not_isDigit_of_cons (by decide) rest

theorem exponent_not_digit (rest : List Symbol) :
    ∀ d tail, Symbol.char 'e' :: rest = .char d :: tail → d.isDigit = false :=
  not_isDigit_of_cons (by decide) rest

/-- A whole number with a point and a zero behind it. -/
theorem scan_pointZero {d : Decimal} (hd : d.Tidy) (he : 0 ≤ d.exponent) (negative : Bool)
    {rest : List Symbol} (hrest : EndsNumber rest) :
    ∃ n : Numeral, n.Writes negative d ∧
      scanNumber negative
        ((digits d.coefficient ++ List.replicate d.exponent.toNat '0' ++ ['.', '0']).map .char ++
          rest) = ⟨n.token, some rest⟩ := by
  obtain ⟨c, e⟩ := d
  obtain ⟨k, rfl⟩ : ∃ k : Nat, e = k := ⟨e.toNat, by simp only at he; omega⟩
  simp only [Int.toNat_natCast]
  have hw : IsWhole (digits c ++ List.replicate k '0') := by
    refine ⟨?_, by simp [digits_ne_nil], ?_⟩
    · intro x hx
      rcases List.mem_append.mp hx with hx | hx
      · exact digits_isDigit c x hx
      · exact isDigit_zero k x hx
    · by_cases hc : c = 0
      · have := hd hc
        simp only [Decimal.mk.injEq] at this
        obtain ⟨rfl, hk⟩ := this
        have hk : k = 0 := by omega
        subst hk
        exact .inl rfl
      · right
        rw [List.head?_append_of_ne_nil _ (digits_ne_nil c)]
        exact digits_head hc
  refine ⟨⟨negative, digits c ++ List.replicate k '0', some ['0'], none⟩, ⟨rfl, rfl, ?_⟩, ?_⟩
  · have hval : Numeral.ofDigits (digits c ++ List.replicate k '0' ++ ['0']) = c * 10 ^ (k + 1) := by
      rw [ofDigits_eq, Nat.ofDigitChars_append, Nat.ofDigitChars_append,
        Nat.ofDigitChars_replicate_zero, ← ofDigits_eq, ofDigits_digits, Nat.ofDigitChars_cons,
        Nat.ofDigitChars_nil, Nat.pow_succ]
      simp only [Nat.sub_self, Nat.add_zero]
      ring
    simp only [Option.getD_some, Option.getD_none, hval, bits_mul_pow_ten, List.length_singleton]
    congr 2
    omega
  · rw [List.map_append, List.append_assoc]
    refine (scanNumber_whole negative hw (point_not_digit _)).trans ?_
    exact (scanFraction_point negative _ (isDigit_zero 1) (by decide)
      hrest.not_digit).trans (scanExponent_end _ _ _ hrest)

/-- The point between the digits. -/
theorem scan_pointInside {d : Decimal} (hd : d.coefficient ≠ 0) {w : Nat} (hw : 0 < w)
    (hlen : w < (digits d.coefficient).length)
    (he : (w : Int) = d.exponent + (digits d.coefficient).length) (negative : Bool)
    {rest : List Symbol} (hrest : EndsNumber rest) :
    ∃ n : Numeral, n.Writes negative d ∧
      scanNumber negative
        (((digits d.coefficient).take w ++ '.' :: (digits d.coefficient).drop w).map .char ++ rest) =
          ⟨n.token, some rest⟩ := by
  obtain ⟨c, e⟩ := d
  simp only at *
  have hwhole : IsWhole ((digits c).take w) := by
    refine ⟨fun x hx => digits_isDigit c x (List.mem_of_mem_take hx), ?_, .inr ?_⟩
    · intro h
      have := congrArg List.length h
      simp only [List.length_take, List.length_nil] at this
      omega
    · rw [List.head?_take, if_neg (by omega)]
      exact digits_head hd
  have hfrac : (digits c).drop w ≠ [] := by
    intro h
    have := congrArg List.length h
    simp only [List.length_drop, List.length_nil] at this
    omega
  refine ⟨⟨negative, (digits c).take w, some ((digits c).drop w), none⟩, ⟨rfl, rfl, ?_⟩, ?_⟩
  · simp only [Option.getD_some, Option.getD_none, List.take_append_drop, ofDigits_digits,
      List.length_drop]
    congr 2
    omega
  · rw [List.map_append, List.append_assoc]
    refine (scanNumber_whole negative hwhole
      (point_not_digit _)).trans ?_
    exact (scanFraction_point negative _ (fun x hx => digits_isDigit c x (List.mem_of_mem_drop hx))
      hfrac hrest.not_digit).trans (scanExponent_end _ _ _ hrest)

/-- Zeros behind the point. -/
theorem scan_pointFirst {d : Decimal} {z : Nat}
    (he : -(z : Int) = d.exponent + (digits d.coefficient).length) (negative : Bool)
    {rest : List Symbol} (hrest : EndsNumber rest) :
    ∃ n : Numeral, n.Writes negative d ∧
      scanNumber negative
        (('0' :: '.' :: List.replicate z '0' ++ digits d.coefficient).map .char ++ rest) =
          ⟨n.token, some rest⟩ := by
  obtain ⟨c, e⟩ := d
  simp only at *
  refine ⟨⟨negative, ['0'], some (List.replicate z '0' ++ digits c), none⟩, ⟨rfl, rfl, ?_⟩, ?_⟩
  · have hval : Numeral.ofDigits ('0' :: (List.replicate z '0' ++ digits c)) = c := by
      rw [ofDigits_eq, Nat.ofDigitChars_cons, Nat.ofDigitChars_append,
        Nat.ofDigitChars_replicate_zero]
      simp only [Nat.sub_self, Nat.mul_zero, Nat.add_zero]
      rw [← ofDigits_eq, ofDigits_digits]
    simp only [Option.getD_some, Option.getD_none, List.singleton_append, hval, List.length_append,
      List.length_replicate]
    congr 2
    omega
  · have hdigits : ∀ x ∈ List.replicate z '0' ++ digits c, x.isDigit = true := by
      intro x hx
      rcases List.mem_append.mp hx with hx | hx
      · exact isDigit_zero z x hx
      · exact digits_isDigit c x hx
    have hne : List.replicate z '0' ++ digits c ≠ [] := by
      intro h
      exact digits_ne_nil c (List.append_eq_nil_iff.mp h).2
    have hzero : IsWhole ['0'] := ⟨isDigit_zero 1, by decide, .inl rfl⟩
    have hsplit : '0' :: '.' :: List.replicate z '0' ++ digits c =
        ['0'] ++ '.' :: (List.replicate z '0' ++ digits c) := rfl
    rw [hsplit, List.map_append, List.append_assoc]
    generalize List.replicate z '0' ++ digits c = ds at hdigits hne
    refine (scanNumber_whole negative hzero (point_not_digit _)).trans ?_
    exact (scanFraction_point negative _ hdigits hne hrest.not_digit).trans
      (scanExponent_end _ _ _ hrest)

theorem scan_positional {d : Decimal} (hd : d.Tidy) (negative : Bool) {rest : List Symbol}
    (hrest : EndsNumber rest) :
    ∃ n : Numeral, n.Writes negative d ∧
      scanNumber negative ((positional true d).map .char ++ rest) = ⟨n.token, some rest⟩ := by
  unfold positional
  simp only
  split
  · rename_i he
    exact scan_pointZero hd he negative hrest
  · rename_i he
    have hc : d.coefficient ≠ 0 := fun h => he (by rw [hd h])
    split
    · exact scan_pointInside hc (by omega) (by omega) (by omega) negative hrest
    · exact scan_pointFirst (by omega) negative hrest

theorem scan_scientific {d : Decimal} (hc : d.coefficient ≠ 0) (negative : Bool)
    {rest : List Symbol} (hrest : EndsNumber rest) :
    ∃ n : Numeral, n.Writes negative d ∧
      scanNumber negative ((scientific d).map .char ++ rest) = ⟨n.token, some rest⟩ := by
  have horder : d.order = d.exponent + (digits d.coefficient).length - 1 := rfl
  have hhead := digits_head hc
  have hall := digits_isDigit d.coefficient
  have hval := ofDigits_digits d.coefficient
  have hexp : (if decide (d.order < 0) then -((Numeral.ofDigits (digits d.order.natAbs) : Nat) : Int)
      else Numeral.ofDigits (digits d.order.natAbs)) = d.order := by
    rw [ofDigits_digits]
    exact signed_natAbs d.order
  unfold scientific
  simp only
  have hsign : (if d.order < 0 then '-' else '+') = if decide (d.order < 0) then '-' else '+' := by
    simp
  rw [hsign]
  split
  · rename_i h; exact absurd h (digits_ne_nil _)
  · rename_i c h
    rw [h] at hhead hall hval horder
    have hw : IsWhole [c] := ⟨hall, by simp, .inr hhead⟩
    refine ⟨⟨negative, [c], none, some d.order⟩, ⟨rfl, rfl, ?_⟩, ?_⟩
    · have he : d.order - (([] : List Char).length : Int) = d.exponent := by
        simp only [List.length_singleton] at horder
        simp only [List.length_nil]
        omega
      simp only [Option.getD_some, Option.getD_none, List.append_nil, hval, he]
    · refine (scanNumber_whole negative hw (exponent_not_digit _)).trans ?_
      refine Eq.trans ?_ ((scanExponent_signed negative [c] none (decide (d.order < 0))
        (digits_isDigit d.order.natAbs) (digits_ne_nil _) hrest.not_digit).trans ?_)
      · rfl
      · rw [hexp]
  · rename_i c cs hcs h
    rw [h] at hhead hall hval horder
    have hw : IsWhole [c] := ⟨fun x hx => hall x (by simp_all), by simp, .inr (by simpa using hhead)⟩
    have hne : cs ≠ [] := fun h0 => hcs h0
    refine ⟨⟨negative, [c], some cs, some d.order⟩, ⟨rfl, rfl, ?_⟩, ?_⟩
    · have he : d.order - (cs.length : Int) = d.exponent := by
        simp only [List.length_cons] at horder
        omega
      simp only [Option.getD_some, List.singleton_append, hval, he]
    · refine (scanNumber_whole negative hw (point_not_digit _)).trans ?_
      rw [List.append_eq]
      refine Eq.trans ?_ ((scanFraction_point negative [c] (fun x hx => hall x (by simp [hx])) hne
        (exponent_not_digit _)).trans
        ((scanExponent_signed negative [c] (some cs) (decide (d.order < 0))
          (digits_isDigit d.order.natAbs) (digits_ne_nil _) hrest.not_digit).trans ?_))
      · simp
      · rw [hexp]

/-- The digits of a float without its sign, as messages show them. -/
def wireDigits (d : Decimal) : List Char :=
  if Layout.wire.positional d.order then positional Layout.wire.pointZero d else scientific d

theorem write_wire (x : Float) :
    write .wire x = if isNegative x then '-' :: wireDigits (shortest .even (magnitudeBits x))
      else wireDigits (shortest .even (magnitudeBits x)) := rfl

/-- A finite float is read back from its digits. -/
theorem scanNumber_wireDigits {x : Float} (hx : x.isFinite = true) {rest : List Symbol}
    (hrest : EndsNumber rest) :
    scanNumber (isNegative x) ((wireDigits (shortest .even (magnitudeBits x))).map .char ++ rest) =
      ⟨.sound (.float x hx), some rest⟩ := by
  have hbits := bits_shortest .even (magnitudeBits x)
  have hfin := (isFinite_iff x).mp hx
  have htidy : (shortest .even (magnitudeBits x)).Tidy := tidy_trim _
  have hfloat : floatOfBits (isNegative x) (shortest .even (magnitudeBits x)).bits = x := by
    rw [hbits, floatOfBits_magnitudeBits]
  rw [← hbits] at hfin
  generalize shortest .even (magnitudeBits x) = d at *
  have hscan : ∃ n : Numeral, n.Writes (isNegative x) d ∧
      scanNumber (isNegative x) ((wireDigits d).map .char ++ rest) = ⟨n.token, some rest⟩ := by
    unfold wireDigits
    split
    · exact scan_positional htidy _ hrest
    · rename_i hpos
      refine scan_scientific (fun h0 => hpos ?_) _ hrest
      rw [htidy h0]
      decide
  obtain ⟨n, hn, hs⟩ := hscan
  rw [hs, Numeral.token, hn.number_eq hfloat hx hfin]
  rfl

end Decimal

end ContextProtocol
