import ContextProtocol.Decimal.Nearest
import Mathlib.Tactic.Ring

/-!
# Rounding to the nearest pattern

`nearestBits num den` depends on the fraction alone, leaves a magnitude of 53 bits as it is, and is
out of range or zero where the fraction is far enough from one. The order of a fraction is pinned
down by two comparisons with powers of two, `PowLe`, and no proof unfolds it.

Results:
* `binaryOrder_eq`: the order of a fraction is the only `e` that the two comparisons allow.
* `nearestBits_congr`: equal fractions have the same nearest pattern.
* `nearestBits_exact`: a magnitude of at most 53 bits is its own nearest pattern.
* `infinityBits_le_nearestBits`, `nearestBits_eq_zero`: fractions that are too large or too small.
-/
namespace ContextProtocol.Decimal

theorem roundQuotient_mul {k : Nat} (hk : 0 < k) (num den : Nat) :
    roundQuotient (k * num) (k * den) = roundQuotient num den := by
  have h1 : 2 * (k * (num % den)) < k * den ↔ 2 * (num % den) < den := by
    rw [Nat.mul_left_comm, Nat.mul_lt_mul_left hk]
  have h2 : k * den < 2 * (k * (num % den)) ↔ den < 2 * (num % den) := by
    rw [Nat.mul_left_comm, Nat.mul_lt_mul_left hk]
  unfold roundQuotient
  simp only [Nat.mul_div_mul_left _ _ hk, Nat.mul_mod_mul_left, h1, h2]

theorem roundQuotient_exact {den : Nat} (hd : 0 < den) (m : Nat) :
    roundQuotient (m * den) den = m := by
  unfold roundQuotient
  simp [Nat.mul_div_cancel _ hd, hd]

theorem le_roundQuotient (num den : Nat) : num / den ≤ roundQuotient num den := by
  unfold roundQuotient
  simp only
  split
  · exact Nat.le_refl _
  · split <;> omega

/-- `2 ^ e` is at most `num / den`. -/
def PowLe (e : Int) (num den : Nat) : Prop := den <<< e.toNat ≤ num <<< (-e).toNat

/-- It does not matter how the exponent is split into a difference. -/
theorem powLe_iff {e : Int} {x y : Nat} (he : (x : Int) - y = e) (num den : Nat) :
    PowLe e num den ↔ den * 2 ^ x ≤ num * 2 ^ y := by
  obtain ⟨k, hx, hy⟩ : ∃ k, x = e.toNat + k ∧ y = (-e).toNat + k :=
    ⟨min x y, by omega, by omega⟩
  unfold PowLe
  rw [Nat.shiftLeft_eq, Nat.shiftLeft_eq, hx, hy, Nat.pow_add, Nat.pow_add, ← Nat.mul_assoc,
    ← Nat.mul_assoc]
  exact (Nat.mul_le_mul_right_iff (Nat.two_pow_pos k)).symm

theorem PowLe.anti {e f : Int} {num den : Nat} (h : PowLe f num den) (hef : e ≤ f) :
    PowLe e num den := by
  obtain ⟨k, rfl⟩ : ∃ k : Nat, f = e + k := ⟨(f - e).toNat, by omega⟩
  rw [powLe_iff (x := e.toNat + k) (y := (-e).toNat) (by omega), Nat.pow_add] at h
  rw [powLe_iff (x := e.toNat) (y := (-e).toNat) (by omega)]
  refine Nat.le_trans (Nat.mul_le_mul_left den ?_) h
  exact Nat.le_mul_of_pos_right _ (Nat.two_pow_pos k)

theorem powLe_mul {k : Nat} (hk : 0 < k) (e : Int) (num den : Nat) :
    PowLe e (k * num) (k * den) ↔ PowLe e num den := by
  have he : (e.toNat : Int) - (-e).toNat = e := by omega
  rw [powLe_iff he, powLe_iff he, Nat.mul_assoc, Nat.mul_assoc]
  exact Nat.mul_le_mul_left_iff hk

/-- The order is the greatest exponent whose power is not above the fraction. -/
theorem powLe_binaryOrder {num den : Nat} (hn : 0 < num) (hd : 0 < den) :
    PowLe (binaryOrder num den) num den ∧ ¬ PowLe (binaryOrder num den + 1) num den := by
  have hn1 := Nat.log2_self_le (Nat.ne_of_gt hn)
  have hd1 := Nat.log2_self_le (Nat.ne_of_gt hd)
  have hn2 := Nat.lt_log2_self (n := num)
  have hd2 := Nat.lt_log2_self (n := den)
  have hlow : PowLe ((num.log2 : Int) - den.log2 - 1) num den := by
    rw [powLe_iff (x := num.log2) (y := den.log2 + 1) (by omega), Nat.mul_comm num]
    exact Nat.mul_le_mul (Nat.le_of_lt hd2) hn1
  have hhigh : ¬ PowLe ((num.log2 : Int) - den.log2 + 1) num den := by
    rw [powLe_iff (x := num.log2 + 1) (y := den.log2) (by omega), Nat.mul_comm num, Nat.not_le]
    exact Nat.lt_of_lt_of_le (Nat.mul_lt_mul_of_pos_left hn2 (Nat.two_pow_pos _))
      (Nat.mul_le_mul_right _ hd1)
  unfold binaryOrder
  simp only
  split
  · rename_i h
    exact ⟨hlow, by rw [Int.sub_add_cancel]; exact Nat.not_le.mpr h⟩
  · rename_i h
    exact ⟨Nat.not_lt.mp h, hhigh⟩

/-- No other exponent is the greatest. -/
theorem binaryOrder_eq {num den : Nat} (hn : 0 < num) (hd : 0 < den) {e : Int}
    (h : PowLe e num den) (h' : ¬ PowLe (e + 1) num den) : binaryOrder num den = e := by
  obtain ⟨h1, h2⟩ := powLe_binaryOrder hn hd
  rcases Int.lt_trichotomy (binaryOrder num den) e with hlt | heq | hgt
  · exact absurd (h.anti (by omega)) h2
  · exact heq
  · exact absurd (h1.anti (by omega)) h'

theorem binaryOrder_mul {k : Nat} (hk : 0 < k) {num den : Nat} (hn : 0 < num) (hd : 0 < den) :
    binaryOrder (k * num) (k * den) = binaryOrder num den := by
  obtain ⟨h1, h2⟩ := powLe_binaryOrder hn hd
  exact binaryOrder_eq (Nat.mul_pos hk hn) (Nat.mul_pos hk hd) ((powLe_mul hk ..).mpr h1)
    fun h => h2 ((powLe_mul hk ..).mp h)

theorem nearestBits_mul {k : Nat} (hk : 0 < k) (num : Nat) {den : Nat} (hd : 0 < den) :
    nearestBits (k * num) (k * den) = nearestBits num den := by
  unfold nearestBits
  by_cases hn : num = 0
  · simp [hn]
  · have hkn : k * num ≠ 0 := Nat.mul_ne_zero (Nat.ne_of_gt hk) hn
    rw [if_neg hn, if_neg hkn, binaryOrder_mul hk (Nat.pos_of_ne_zero hn) hd]
    simp only [Nat.shiftLeft_eq, Nat.mul_assoc, roundQuotient_mul hk]

/-- Equal fractions round to the same pattern. -/
theorem nearestBits_congr {num den num' den' : Nat} (hd : 0 < den) (hd' : 0 < den')
    (h : num * den' = num' * den) : nearestBits num den = nearestBits num' den' := by
  rw [← nearestBits_mul hd' num hd, ← nearestBits_mul hd num' hd', Nat.mul_comm den' num, h,
    Nat.mul_comm num' den, Nat.mul_comm den' den]

/-- A magnitude whose mantissa has its full width, or the least exponent. -/
def Magnitude.Fits (m : Magnitude) : Prop :=
  -1074 ≤ m.exponent ∧ m.mantissa < 2 ^ 53 ∧ (2 ^ 52 ≤ m.mantissa ∨ m.exponent = -1074)

theorem Magnitude.fits_ofBits (n : Nat) : (ofBits n).Fits := by
  unfold Fits ofBits hiddenBit
  split
  · exact ⟨Int.le_refl _, by simp only; omega, .inr rfl⟩
  · simp only; omega

/-- A magnitude that fits is its own nearest pattern. -/
theorem nearestBits_exact {m : Magnitude} (h : m.Fits) :
    nearestBits (m.mantissa * 2 ^ m.exponent.toNat) (2 ^ (-m.exponent).toNat) = m.bits := by
  obtain ⟨mantissa, e⟩ := m
  obtain ⟨he, hlt, hfull⟩ := h
  simp only at *
  unfold nearestBits
  by_cases h0 : mantissa = 0
  · have : e = -1074 := by omega
    subst h0 this
    simp [Magnitude.bits]
  · have hpos : 0 < mantissa := Nat.pos_of_ne_zero h0
    have h1 := Nat.log2_self_le h0
    have h2 := Nat.lt_log2_self (n := mantissa)
    have hd : 0 < 2 ^ (-e).toNat := Nat.two_pow_pos _
    have hn : 0 < mantissa * 2 ^ e.toNat := Nat.mul_pos hpos (Nat.two_pow_pos _)
    have horder : binaryOrder (mantissa * 2 ^ e.toNat) (2 ^ (-e).toNat) = mantissa.log2 + e := by
      apply binaryOrder_eq hn hd
      · rw [powLe_iff (x := mantissa.log2 + e.toNat) (y := (-e).toNat) (by omega), Nat.pow_add,
          Nat.mul_comm]
        exact Nat.mul_le_mul_right _ (Nat.mul_le_mul_right _ h1)
      · rw [powLe_iff (x := mantissa.log2 + 1 + e.toNat) (y := (-e).toNat) (by omega), Nat.pow_add,
          Nat.mul_comm, Nat.not_le]
        exact Nat.mul_lt_mul_of_pos_right (Nat.mul_lt_mul_of_pos_right h2 (Nat.two_pow_pos _)) hd
    have hexp : max (binaryOrder (mantissa * 2 ^ e.toNat) (2 ^ (-e).toNat) - 52) (-1074) = e := by
      have hlog : mantissa.log2 ≤ 52 := by have := (Nat.log2_lt h0).mpr hlt; omega
      rw [horder]
      rcases hfull with hfull | rfl
      · have := (Nat.le_log2 h0).mpr hfull
        omega
      · omega
    simp only [if_neg (Nat.ne_of_gt hn), hexp, Nat.shiftLeft_eq]
    congr 2
    rw [Nat.mul_comm (2 ^ (-e).toNat), Nat.mul_assoc]
    exact roundQuotient_exact (Nat.mul_pos (Nat.two_pow_pos _) (Nat.two_pow_pos _)) _

/-- Fractions from `2 ^ 1024` on have the pattern of infinity or a greater one. -/
theorem infinityBits_le_nearestBits {k num den : Nat} (hk : 1024 ≤ k) (hd : 0 < den)
    (h : den <<< k ≤ num) : infinityBits ≤ nearestBits num den := by
  have hn : 0 < num := by
    rw [Nat.shiftLeft_eq] at h
    exact Nat.lt_of_lt_of_le (Nat.mul_pos hd (Nat.two_pow_pos _)) h
  obtain ⟨h1, h2⟩ := powLe_binaryOrder hn hd
  have horder : 1024 ≤ binaryOrder num den := by
    by_contra hc
    apply h2
    have : PowLe k num den := by
      rw [powLe_iff (e := k) (x := k) (y := 0) (by omega), Nat.pow_zero, Nat.mul_one, ← Nat.shiftLeft_eq]
      exact h
    exact this.anti (by omega)
  unfold nearestBits
  rw [if_neg (Nat.ne_of_gt hn)]
  have hexp : max (binaryOrder num den - 52) (-1074) = binaryOrder num den - 52 := by omega
  simp only [hexp]
  generalize binaryOrder num den = o at *
  have hmant : 2 ^ 52 ≤ roundQuotient (num <<< (-(o - 52)).toNat) (den <<< (o - 52).toNat) := by
    refine Nat.le_trans ?_ (le_roundQuotient _ _)
    rw [Nat.shiftLeft_eq, Nat.shiftLeft_eq,
      Nat.le_div_iff_mul_le (Nat.mul_pos hd (Nat.two_pow_pos _))]
    rw [powLe_iff (x := 52 + (o - 52).toNat) (y := (-(o - 52)).toNat) (by omega), Nat.pow_add] at h1
    rw [Nat.mul_left_comm]
    exact h1
  unfold Magnitude.bits Magnitude.hiddenBit infinityBits
  simp only
  have hexp' : 2046 ≤ (o - 52 + 1074).toNat := by omega
  have := Nat.mul_le_mul_right 0x10000000000000 hexp'
  omega

/-- Fractions below `2 ^ (-1075)` round to zero. -/
theorem nearestBits_eq_zero {num den : Nat} (h : 2 * num <<< 1074 < den) :
    nearestBits num den = 0 := by
  unfold nearestBits
  split
  · rfl
  · rename_i hn
    obtain ⟨h1, -⟩ := powLe_binaryOrder (Nat.pos_of_ne_zero hn) (Nat.zero_lt_of_lt h)
    have horder : binaryOrder num den < -1074 := by
      by_contra hc
      have : den <<< 0 ≤ num <<< 1074 := h1.anti (Int.not_lt.mp hc)
      rw [Nat.shiftLeft_zero] at this
      omega
    have hexp : max (binaryOrder num den - 52) (-1074) = -1074 := by omega
    have hq : roundQuotient (num <<< 1074) (den <<< 0) = 0 := by
      rw [Nat.shiftLeft_zero]
      unfold roundQuotient
      rw [Nat.div_eq_of_lt (by omega), Nat.mod_eq_of_lt (by omega)]
      simp only [h, if_true]
    simp only [hexp]
    exact congrArg (fun q => Magnitude.bits ⟨q, -1074⟩) hq

end ContextProtocol.Decimal
