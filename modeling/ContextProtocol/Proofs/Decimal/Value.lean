import ContextProtocol.Proofs.Decimal.Rounding
import Mathlib

/-!
# What bit patterns stand for

The patterns without sign are in the order of their values: the next pattern is one unit in the last
place above, also where the exponent goes up. So a fraction lies between two neighbouring patterns,
and `nearestBits` takes the nearer one, in a tie the even one.

* `patternValue`: the value of a pattern, `mantissa * 2 ^ exponent`.

Results:
* `patternValue_strictMono`: patterns are ordered as their values.
* `nearestBits_between`: what `nearestBits` takes, seen from the two patterns next to a fraction.
* `nearestBits_nearest`: no pattern is nearer, and one that is as near is odd.
* `nearestBits_mono`: rounding keeps the order.
-/
namespace ContextProtocol.Decimal

/-! ## Values in their order -/

namespace Magnitude

variable {m : Magnitude}

/-- The number `mantissa * 2 ^ exponent`. -/
def value (m : Magnitude) : ℚ := m.mantissa * (2 : ℚ) ^ m.exponent

/-- A magnitude that fits is read off its own pattern. -/
theorem ofBits_bits (h : m.Fits) : ofBits m.bits = m := by
  obtain ⟨mantissa, exponent⟩ := m
  obtain ⟨hexponent, hlt, hfull⟩ := h
  simp only at hexponent hlt hfull
  obtain ⟨k, rfl⟩ : ∃ k : Nat, exponent = k - 1074 := ⟨(exponent + 1074).toNat, by omega⟩
  have hk : ((k : Int) - 1074 + 1074).toNat = k := by omega
  simp only [bits, hk, ofBits, hiddenBit]
  split
  · have h0 : k = 0 := by omega
    subst h0
    simp
  · have hmod : 0x10000000000000 + (k * 0x10000000000000 + mantissa) % 0x10000000000000 =
        mantissa := by omega
    have hdiv : (k * 0x10000000000000 + mantissa) / 0x10000000000000 = k + 1 := by omega
    rw [hmod, hdiv, Magnitude.mk.injEq]
    omega

end Magnitude

/-- The number that a pattern without sign stands for. -/
def patternValue (bits : Nat) : ℚ := (Magnitude.ofBits bits).value

theorem patternValue_bits {m : Magnitude} (h : m.Fits) : patternValue m.bits = m.value := by
  rw [patternValue, Magnitude.ofBits_bits h]

/-- The next pattern is one unit in the last place above. -/
theorem patternValue_bits_succ {m : Magnitude} (h : m.Fits) :
    patternValue (m.bits + 1) = (m.mantissa + 1) * (2 : ℚ) ^ m.exponent := by
  obtain ⟨mantissa, exponent⟩ := m
  obtain ⟨hexponent, hlt, hfull⟩ := h
  simp only at hexponent hlt hfull
  by_cases hcarry : mantissa + 1 = 2 ^ 53
  · -- the mantissa goes back to `2 ^ 52`, the exponent up
    have hnext : Magnitude.Fits ⟨2 ^ 52, exponent + 1⟩ :=
      ⟨by simp only; omega, by simp only; omega, .inl (Nat.le_refl _)⟩
    have hbits : Magnitude.bits ⟨mantissa, exponent⟩ + 1 = Magnitude.bits ⟨2 ^ 52, exponent + 1⟩ := by
      have hexp : (exponent + 1 + 1074).toNat = (exponent + 1074).toNat + 1 := by omega
      simp only [Magnitude.bits, Magnitude.hiddenBit, hexp]
      omega
    have hcast : (mantissa : ℚ) + 1 = 2 ^ 53 := by exact_mod_cast hcarry
    rw [hbits, patternValue_bits hnext, Magnitude.value, hcast, zpow_add_one₀ two_ne_zero]
    push_cast
    ring
  · have hnext : Magnitude.Fits ⟨mantissa + 1, exponent⟩ :=
      ⟨hexponent, by simp only; omega, by simp only; omega⟩
    have hbits : Magnitude.bits ⟨mantissa, exponent⟩ + 1 = Magnitude.bits ⟨mantissa + 1, exponent⟩ :=
      Nat.add_assoc ..
    rw [hbits, patternValue_bits hnext, Magnitude.value]
    push_cast
    rfl

/-- Patterns are ordered as their values. -/
theorem patternValue_strictMono : StrictMono patternValue := by
  refine strictMono_nat_of_lt_succ fun n => ?_
  have hfits := Magnitude.fits_ofBits n
  have hnext := patternValue_bits_succ hfits
  rw [Magnitude.bits_ofBits] at hnext
  rw [hnext, patternValue, Magnitude.value]
  have hunit : (0 : ℚ) < 2 ^ (Magnitude.ofBits n).exponent := zpow_pos two_pos _
  exact mul_lt_mul_of_pos_right (lt_add_one _) hunit

@[simp] theorem patternValue_zero : patternValue 0 = 0 := by
  simp [patternValue, Magnitude.ofBits, Magnitude.value, Magnitude.hiddenBit]

theorem patternValue_nonneg (n : Nat) : 0 ≤ patternValue n :=
  patternValue_zero ▸ patternValue_strictMono.monotone (Nat.zero_le n)

theorem patternValue_pos {n : Nat} (h : 0 < n) : 0 < patternValue n :=
  patternValue_zero ▸ patternValue_strictMono h

/-! ## The pattern that is taken -/

/-- Of two neighbouring patterns, `b` and the next one, the nearer to `x`, in a tie the even one. -/
def nearer (x : ℚ) (b : Nat) : Nat :=
  if 2 * x < patternValue b + patternValue (b + 1) then b
  else if patternValue b + patternValue (b + 1) < 2 * x then b + 1
  else b + b % 2

/-- What `roundQuotient` takes, by the fraction itself. -/
theorem roundQuotient_eq (num : Nat) {den : Nat} (hd : 0 < den) :
    roundQuotient num den =
      if 2 * ((num : ℚ) / den) < 2 * (num / den : Nat) + 1 then num / den
      else if 2 * ((num / den : Nat) : ℚ) + 1 < 2 * ((num : ℚ) / den) then num / den + 1
      else num / den + num / den % 2 := by
  have hden : (0 : ℚ) < den := by exact_mod_cast hd
  have hsplit : (num : ℚ) / den = (num / den : Nat) + ((num % den : Nat) : ℚ) / den := by
    rw [eq_comm, ← eq_sub_iff_add_eq', div_eq_iff hden.ne', sub_mul, div_mul_cancel₀ _ hden.ne',
      eq_sub_iff_add_eq]
    exact_mod_cast Nat.mod_add_div' num den
  have hlow : 2 * ((num : ℚ) / den) < 2 * (num / den : Nat) + 1 ↔ 2 * (num % den) < den := by
    rw [hsplit, mul_add, add_lt_add_iff_left, ← mul_div_assoc, div_lt_one hden]
    exact_mod_cast Iff.rfl
  have hhigh : 2 * ((num / den : Nat) : ℚ) + 1 < 2 * ((num : ℚ) / den) ↔ den < 2 * (num % den) := by
    rw [hsplit, mul_add, add_lt_add_iff_left, ← mul_div_assoc, one_lt_div hden]
    exact_mod_cast Iff.rfl
  simp only [hlow, hhigh]
  rfl

/-- The exponent that `nearestBits` takes leaves 53 bits before the point. -/
theorem fits_floor {num den : Nat} (hn : 0 < num) (hd : 0 < den) {e : Int}
    (he : e = max (binaryOrder num den - 52) (-1074)) :
    Magnitude.Fits ⟨(num <<< (-e).toNat) / (den <<< e.toNat), e⟩ := by
  obtain ⟨hlow, hhigh⟩ := powLe_binaryOrder hn hd
  have hD : 0 < den <<< e.toNat := by
    rw [Nat.shiftLeft_eq]
    exact Nat.mul_pos hd (Nat.two_pow_pos _)
  have hpow : ∀ k : Nat, PowLe (e + k) num den ↔
      2 ^ k ≤ (num <<< (-e).toNat) / (den <<< e.toNat) := by
    intro k
    rw [powLe_iff (x := k + e.toNat) (y := (-e).toNat) (by omega), Nat.le_div_iff_mul_le hD,
      Nat.shiftLeft_eq, Nat.shiftLeft_eq, Nat.pow_add, Nat.mul_left_comm]
  refine ⟨by simp only; omega, ?_, ?_⟩
  · refine Nat.not_le.mp fun h => hhigh (((hpow 53).mpr h).anti ?_)
    omega
  · by_cases hleast : e = -1074
    · exact .inr hleast
    · refine .inl ((hpow 52).mp ?_)
      have horder : e + (52 : Nat) = binaryOrder num den := by omega
      rw [horder]
      exact hlow

/-- A fraction lies between two patterns, and `nearestBits` takes one of them. -/
theorem nearestBits_between (num : Nat) {den : Nat} (hd : 0 < den) :
    ∃ b, patternValue b ≤ (num : ℚ) / den ∧ (num : ℚ) / den < patternValue (b + 1) ∧
      nearestBits num den = nearer ((num : ℚ) / den) b := by
  rcases Nat.eq_zero_or_pos num with rfl | hn
  · have hpos : 0 < patternValue 1 := patternValue_pos one_pos
    refine ⟨0, ?_⟩
    simp [nearestBits, nearer, hpos]
  · obtain ⟨e, he⟩ : ∃ e, e = max (binaryOrder num den - 52) (-1074) := ⟨_, rfl⟩
    have hfits := fits_floor hn hd he
    have hround : nearestBits num den = Magnitude.bits
        ⟨roundQuotient (num <<< (-e).toNat) (den <<< e.toNat), e⟩ := by
      rw [nearestBits, if_neg (Nat.ne_of_gt hn), he]
    have hvalue : (num : ℚ) / den =
        ((num <<< (-e).toNat : Nat) : ℚ) / (den <<< e.toNat : Nat) * 2 ^ e := by
      have hpow : (2 : ℚ) ^ e = 2 ^ e.toNat / 2 ^ (-e).toNat := by
        rw [← zpow_natCast, ← zpow_natCast, ← zpow_sub₀ two_ne_zero]
        congr 1
        omega
      rw [hpow, Nat.shiftLeft_eq, Nat.shiftLeft_eq]
      push_cast
      field_simp
    have hD : 0 < den <<< e.toNat := by
      rw [Nat.shiftLeft_eq]
      exact Nat.mul_pos hd (Nat.two_pow_pos _)
    generalize num <<< (-e).toNat = N at *
    generalize den <<< e.toNat = D at *
    have hunit : (0 : ℚ) < 2 ^ e := zpow_pos two_pos _
    have hfloor : ((N / D : Nat) : ℚ) ≤ (N : ℚ) / D := Nat.cast_div_le
    have hnext : (N : ℚ) / D < (N / D : Nat) + 1 := by
      rw [← Nat.floor_div_eq_div (K := ℚ)]
      exact Nat.lt_floor_add_one _
    refine ⟨Magnitude.bits ⟨N / D, e⟩, ?_, ?_, ?_⟩
    · rw [patternValue_bits hfits, hvalue]
      exact mul_le_mul_of_nonneg_right hfloor hunit.le
    · rw [patternValue_bits_succ hfits, hvalue]
      exact mul_lt_mul_of_pos_right hnext hunit
    · have hsum : patternValue (Magnitude.bits ⟨N / D, e⟩) +
          patternValue (Magnitude.bits ⟨N / D, e⟩ + 1) = (2 * (N / D : Nat) + 1) * 2 ^ e := by
        rw [patternValue_bits hfits, patternValue_bits_succ hfits, Magnitude.value]
        ring
      -- the unit in the last place drops out of both comparisons
      rw [hround, roundQuotient_eq N hD, nearer, hsum, hvalue, ← mul_assoc]
      simp only [mul_lt_mul_iff_left₀ hunit, Magnitude.bits, Magnitude.hiddenBit]
      split_ifs <;> omega

/-- The lower pattern is taken below the middle and the upper one above it, in the middle the one
that is even. -/
theorem nearer_cases (x : ℚ) (b : Nat) :
    nearer x b = b ∧ 2 * x ≤ patternValue b + patternValue (b + 1) ∧
        (2 * x = patternValue b + patternValue (b + 1) → b % 2 = 0) ∨
      nearer x b = b + 1 ∧ patternValue b + patternValue (b + 1) ≤ 2 * x ∧
        (2 * x = patternValue b + patternValue (b + 1) → (b + 1) % 2 = 0) := by
  unfold nearer
  split_ifs with hlow hhigh
  · exact .inl ⟨rfl, hlow.le, fun h => absurd h hlow.ne⟩
  · exact .inr ⟨rfl, hhigh.le, fun h => absurd h.symm hhigh.ne⟩
  · rcases Nat.mod_two_eq_zero_or_one b with heven | hodd
    · exact .inl ⟨by omega, not_lt.mp hhigh, fun _ => heven⟩
    · exact .inr ⟨by omega, not_lt.mp hlow, fun _ => by omega⟩

/-- Every other pattern is farther from a fraction than the one that is taken, or it is as far and
the one that is taken is even. -/
theorem nearestBits_nearest (num : Nat) {den : Nat} (hd : 0 < den) {c : Nat}
    (hc : c ≠ nearestBits num den) :
    |(num : ℚ) / den - patternValue (nearestBits num den)| < |(num : ℚ) / den - patternValue c| ∨
      |(num : ℚ) / den - patternValue (nearestBits num den)| = |(num : ℚ) / den - patternValue c| ∧
        nearestBits num den % 2 = 0 := by
  obtain ⟨b, hlow, hhigh, hround⟩ := nearestBits_between num hd
  rw [hround] at hc ⊢
  generalize (num : ℚ) / den = x at *
  have hbelow : ∀ {c}, c ≤ b → |x - patternValue c| = x - patternValue c := by
    intro c h
    have := patternValue_strictMono.monotone h
    exact abs_of_nonneg (by linarith)
  have habove : ∀ {c}, b < c → |x - patternValue c| = patternValue c - x := by
    intro c h
    have := patternValue_strictMono.monotone (Nat.succ_le_of_lt h)
    rw [abs_sub_comm]
    exact abs_of_nonneg (by linarith)
  rcases nearer_cases x b with ⟨htaken, hhalf, heven⟩ | ⟨htaken, hhalf, heven⟩ <;>
    rw [htaken] at hc ⊢
  · rw [hbelow (Nat.le_refl b)]
    rcases Nat.lt_or_gt_of_ne hc with hlt | hgt
    · have := patternValue_strictMono hlt
      rw [hbelow hlt.le]
      exact .inl (by linarith)
    · have := patternValue_strictMono.monotone (Nat.succ_le_of_lt hgt)
      rw [habove hgt]
      rcases lt_or_eq_of_le (show x - patternValue b ≤ patternValue c - x by linarith) with h | h
      · exact .inl h
      · exact .inr ⟨h, heven (by linarith)⟩
  · rw [habove (Nat.lt_succ_self b)]
    rcases Nat.lt_or_gt_of_ne hc with hlt | hgt
    · have := patternValue_strictMono.monotone (Nat.le_of_lt_succ hlt)
      rw [hbelow (Nat.le_of_lt_succ hlt)]
      rcases lt_or_eq_of_le (show patternValue (b + 1) - x ≤ x - patternValue c by linarith)
        with h | h
      · exact .inl h
      · exact .inr ⟨h, heven (by linarith)⟩
    · have := patternValue_strictMono hgt
      rw [habove (Nat.lt_of_succ_lt hgt)]
      exact .inl (by linarith)

/-- Rounding keeps the order. -/
theorem nearestBits_mono {num num' den den' : Nat} (hd : 0 < den) (hd' : 0 < den')
    (h : (num : ℚ) / den ≤ (num' : ℚ) / den') : nearestBits num den ≤ nearestBits num' den' := by
  obtain ⟨b, hlow, hhigh, hround⟩ := nearestBits_between num hd
  obtain ⟨c, hlow', hhigh', hround'⟩ := nearestBits_between num' hd'
  rw [hround, hround']
  generalize (num : ℚ) / den = x at *
  generalize (num' : ℚ) / den' = y at *
  have hx := nearer_cases x b
  have hy := nearer_cases y c
  have hbc : b < c + 1 := patternValue_strictMono.lt_iff_lt.mp (by linarith)
  rcases Nat.lt_or_eq_of_le (Nat.le_of_lt_succ hbc) with hlt | rfl
  · omega
  · rcases hx with ⟨hx, -⟩ | ⟨hx, hhalf, heven⟩
    · omega
    · rcases hy with ⟨hy, hhalf', heven'⟩ | ⟨hy, -⟩
      · -- both are in the middle, where they go the same way
        have := heven (by linarith)
        have := heven' (by linarith)
        omega
      · omega

end ContextProtocol.Decimal
