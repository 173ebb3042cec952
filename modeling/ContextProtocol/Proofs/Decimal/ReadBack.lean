import ContextProtocol.Decimal.Shortest
import ContextProtocol.Proofs.Decimal.Rounding
import Mathlib.Tactic.Ring

/-!
# Decimals read back

The pattern nearest to a decimal depends on its value alone, so zeros may move between the
coefficient and the exponent. The exact expansion of a pattern has that pattern, hence its shortest
digits have it too.

Results:
* `bits_mul_pow_ten`: zeros at the end of the coefficient go to the exponent.
* `bits_shortest`: the shortest digits of a pattern read back as that pattern.
* `ofScientific_eq`: the shortcuts for large and small exponents change no result.
-/
namespace ContextProtocol.Decimal

/-! ## Decimals of one value -/

/-- A zero at the end of the coefficient can go to the exponent. -/
theorem bits_mul_ten (c : Nat) (e : Int) : bits ⟨c * 10, e⟩ = bits ⟨c, e + 1⟩ := by
  unfold bits powerOfTen
  apply nearestBits_congr (Nat.pow_pos (by decide)) (Nat.pow_pos (by decide))
  simp only [Nat.pow_eq]
  rcases Int.lt_or_le e 0 with h | h
  · obtain ⟨k, rfl⟩ : ∃ k : Nat, e = -(k + 1 : Int) := ⟨(-e - 1).toNat, by omega⟩
    have h1 : (-(k + 1 : Int)).toNat = 0 := by omega
    have h2 : (-(-(k + 1 : Int) + 1)).toNat = k := by omega
    have h3 : (-(k + 1 : Int) + 1).toNat = 0 := by omega
    have h4 : (-(-(k + 1 : Int))).toNat = k + 1 := by omega
    simp only [h1, h2, h3, h4, Nat.pow_succ]
    ring
  · obtain ⟨k, rfl⟩ : ∃ k : Nat, e = k := ⟨e.toNat, by omega⟩
    have h1 : (-(k : Int)).toNat = 0 := by omega
    have h2 : (-((k : Int) + 1)).toNat = 0 := by omega
    have h3 : ((k : Int) + 1).toNat = k + 1 := by omega
    simp only [h1, h2, h3, Int.toNat_natCast, Nat.pow_succ]
    ring

theorem bits_mul_pow_ten (c k : Nat) (e : Int) : bits ⟨c * 10 ^ k, e⟩ = bits ⟨c, e + k⟩ := by
  induction k generalizing e with
  | zero => simp
  | succ k ih =>
    rw [Nat.pow_succ, ← Nat.mul_assoc, bits_mul_ten, ih]
    congr 2
    omega

theorem bits_trim (d : Decimal) : d.trim.bits = d.bits := by
  have go : ∀ n d, (trim.go n d).bits = d.bits := by
    intro n
    induction n with
    | zero => intro d; rfl
    | succ n ih =>
      intro d
      rw [trim.go]
      split
      · rename_i h
        have hc : d.coefficient / 10 * 10 = d.coefficient := by omega
        rw [ih, ← bits_mul_ten, hc]
      · rfl
  unfold trim
  split
  · rename_i h
    unfold bits
    rw [h]
    simp [nearestBits]
  · exact go _ _

/-- The exact value of a pattern has that pattern. -/
theorem bits_ofMagnitude (n : Nat) : (ofMagnitude (.ofBits n)).bits = n := by
  have hfits := Magnitude.fits_ofBits n
  have hbits := Magnitude.bits_ofBits n
  have hexact := nearestBits_exact hfits
  rw [hbits] at hexact
  generalize Magnitude.ofBits n = m at *
  unfold ofMagnitude
  split
  · rename_i he
    rw [← hexact]
    unfold bits powerOfTen
    have h0 : (-m.exponent).toNat = 0 := by omega
    rw [h0, Nat.shiftLeft_eq]
    simp
  · rename_i he
    rw [← hexact]
    unfold bits powerOfTen
    apply nearestBits_congr (Nat.pow_pos (by decide)) (Nat.two_pow_pos _)
    obtain ⟨k, hk⟩ : ∃ k : Nat, m.exponent = -(k : Int) := ⟨(-m.exponent).toNat, by omega⟩
    have h0 : (-(k : Int)).toNat = 0 := by omega
    simp only [hk, h0, Int.neg_neg, Int.toNat_natCast, Nat.pow_eq, Nat.pow_zero, Nat.mul_one]
    rw [Nat.mul_assoc, ← Nat.mul_pow]

/-- The shortest digits of a pattern read back as that pattern. -/
theorem bits_shortest (tie : Tie) (n : Nat) : (shortest tie n).bits = n := by
  unfold shortest
  rw [bits_trim]
  exact bits_shortestFrom tie n _ (bits_ofMagnitude n) _ _

/-- Zero has no exponent. -/
def Tidy (d : Decimal) : Prop := d.coefficient = 0 → d = ⟨0, 0⟩

theorem tidy_trim (d : Decimal) : d.trim.Tidy := by
  have go : ∀ n d, d.coefficient ≠ 0 → (trim.go n d).coefficient ≠ 0 := by
    intro n
    induction n with
    | zero => intro d h; exact h
    | succ n ih =>
      intro d h
      rw [trim.go]
      split
      · apply ih; simp only; omega
      · exact h
  unfold trim
  split
  · intro; rfl
  · rename_i h; intro h0; exact absurd h0 (go _ _ h)

/-! ## Reading decimals -/

theorem eight_pow_le_ten_pow (k : Nat) : 2 ^ (3 * k) ≤ 10 ^ k := by
  rw [Nat.pow_mul]
  exact Nat.pow_le_pow_left (by decide) k

/-- The bounds under which a power is not computed decide as the power would. -/
theorem ofScientific_eq (negative : Bool) (c : Nat) (e : Int) :
    ofScientific negative c e = floatOfBits negative (min (bits ⟨c, e⟩) infinityBits) := by
  have hbits : bits ⟨c, e⟩ = nearestBits (c * 10 ^ e.toNat) (10 ^ (-e).toNat) := rfl
  unfold ofScientific
  split
  · rename_i h0
    rw [hbits, h0, Nat.zero_mul]
    rfl
  · rename_i h0
    split
    · rename_i hlarge
      have hneg : (-e).toNat = 0 := by omega
      have h : 1 <<< (3 * e.toNat) ≤ c * 10 ^ e.toNat := by
        rw [Nat.shiftLeft_eq, Nat.one_mul]
        exact Nat.le_trans (eight_pow_le_ten_pow _)
          (Nat.le_mul_of_pos_left _ (Nat.pos_of_ne_zero h0))
      have := infinityBits_le_nearestBits (by omega) Nat.one_pos h
      rw [hbits, hneg, Nat.pow_zero, Nat.min_eq_right this]
    · split
      · rename_i hsmall
        have hpos : e.toNat = 0 := by omega
        have hlog := Nat.lt_log2_self (n := c)
        have h : ∀ k ≤ 1074, 2 * (c * 10 ^ e.toNat) <<< k < 10 ^ (-e).toNat := by
          intro k hk
          rw [hpos, Nat.pow_zero, Nat.mul_one, Nat.shiftLeft_eq]
          calc 2 * (c * 2 ^ k) < 2 * (2 ^ (c.log2 + 1) * 2 ^ k) := by
                exact Nat.mul_lt_mul_of_pos_left
                  (Nat.mul_lt_mul_of_pos_right hlog (Nat.two_pow_pos _)) (by decide)
            _ = 2 ^ (1 + (c.log2 + 1 + k)) := by rw [← Nat.pow_add, Nat.pow_add 2 1, Nat.pow_one]
            _ ≤ 2 ^ (3 * (-e).toNat) := Nat.pow_le_pow_right (by decide) (by omega)
            _ ≤ 10 ^ (-e).toNat := eight_pow_le_ten_pow _
        rw [hbits, nearestBits_eq_zero (h 1074 (Nat.le_refl _))]
        rfl
      · rfl

end Decimal
end ContextProtocol
