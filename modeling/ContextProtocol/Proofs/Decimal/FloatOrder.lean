import ContextProtocol.Proofs.Decimal.FloatBits
import ContextProtocol.Proofs.Decimal.Value

/-!
# The order of floats

Floats that are no NaN compare as their patterns do, taken with their signs: the two zeros are one,
and the infinities stand at both ends. For finite floats this is the order of the numbers that they
stand for. So what a rule says of floats it says of these numbers, and no arithmetic of floats comes
into it.

* `rank`: the place of a float in the order, its pattern with its sign.
* `exact`: the number that a finite float stands for.

Results:
* `lt_iff_rank`, `le_iff_rank`, `not_lt_iff_le`: floats that are no NaN are ordered as their ranks.
* `isFinite_of_between`: so what lies between two finite floats is finite.
* `lt_iff_exact`, `le_iff_exact`: finite floats are ordered as the numbers that they stand for.
* `isFinite_ofInt`, `exact_ofInt_nearest`, `exact_ofInt_mono`, `exact_ofInt_pos`: the float of a count
  is finite, none is nearer, counts keep their order, and only zero becomes zero.
-/
namespace ContextProtocol.Decimal
open Float.Model (Format UnpackedFloat)
open Float.Model.UnpackedFloat

variable {x y : Float}

/-! ## The order of patterns -/

/-- Numbers are compared by the exponent and then by the mantissa, and so are their patterns. -/
theorem compare_magnitudes (a b : Nat) :
    (compare (Magnitude.ofBits a).exponent (Magnitude.ofBits b).exponent).then
      (compare (Magnitude.ofBits a).mantissa (Magnitude.ofBits b).mantissa) = compare a b := by
  have hlt : ∀ {a b : Nat}, a < b → (Magnitude.ofBits a).exponent < (Magnitude.ofBits b).exponent ∨
      (Magnitude.ofBits a).exponent = (Magnitude.ofBits b).exponent ∧
        (Magnitude.ofBits a).mantissa < (Magnitude.ofBits b).mantissa := by
    intro a b hab
    unfold Magnitude.ofBits Magnitude.hiddenBit
    split_ifs <;> simp only [true_and] <;> omega
  rcases Nat.lt_trichotomy a b with h | rfl | h
  · rw [Nat.compare_eq_lt.mpr h]
    rcases hlt h with hexp | ⟨hexp, hman⟩
    · rw [compare_lt_iff_lt.mpr hexp]
      rfl
    · rw [compare_eq_iff_eq.mpr hexp, compare_lt_iff_lt.mpr hman]
      rfl
  · simp
  · rw [Nat.compare_eq_gt.mpr h]
    rcases hlt h with hexp | ⟨hexp, hman⟩
    · rw [compare_gt_iff_gt.mpr hexp]
      rfl
    · rw [compare_eq_iff_eq.mpr hexp.symm, compare_gt_iff_gt.mpr hman]
      rfl

/-- The place of a float in the order: its pattern, with its sign. -/
def rank (x : Float) : Int := (sign x).apply (magnitudeBits x)

theorem natAbs_rank (x : Float) : (rank x).natAbs = magnitudeBits x := by
  unfold rank
  cases sign x <;> simp [Sign.apply]

theorem compare_positive (a b : Nat) : compare a b = compare (a : Int) (b : Int) := by
  rcases Nat.lt_trichotomy a b with h | rfl | h
  · rw [Nat.compare_eq_lt.mpr h, Int.compare_eq_lt.mpr (by omega)]
  · simp
  · rw [Nat.compare_eq_gt.mpr h, Int.compare_eq_gt.mpr (by omega)]

theorem compare_negative (a b : Nat) : (compare a b).swap = compare (-a : Int) (-b) := by
  rw [Nat.compare_swap]
  rcases Nat.lt_trichotomy a b with h | rfl | h
  · rw [Nat.compare_eq_gt.mpr h, Int.compare_eq_gt.mpr (by omega)]
  · simp
  · rw [Nat.compare_eq_lt.mpr h, Int.compare_eq_lt.mpr (by omega)]

/-- Floats that are no NaN compare as their ranks. -/
theorem compare_eq (hnx : x.isNaN = false) (hny : y.isNaN = false) :
    x.toModel.unpack.compare y.toModel.unpack = some (compare (rank x) (rank y)) := by
  have hx' := mt (isNaN_iff x).mpr (Bool.eq_false_iff.mp hnx)
  have hy' := mt (isNaN_iff y).mpr (Bool.eq_false_iff.mp hny)
  have hrank := compare_magnitudes (magnitudeBits x) (magnitudeBits y)
  have hpos : (0 : Int) < infinityBits := by decide
  unfold rank
  -- zero, a number, infinity or no number, for both; then both signs
  rcases unpack_cases x with ⟨h, hx⟩ | ⟨h0, h, _, hx⟩ | ⟨h, hx⟩ | ⟨h, hx⟩ <;>
  rcases unpack_cases y with ⟨h', hy⟩ | ⟨h0', h', _, hy⟩ | ⟨h', hy⟩ | ⟨h', hy⟩ <;>
  rw [hx, hy] <;> try contradiction
  all_goals
    cases sign x <;> cases sign y <;> simp only [UnpackedFloat.compare, Sign.apply, hrank]
  all_goals
    first
    | exact congrArg some (compare_positive ..)
    | exact congrArg some (compare_negative ..)
    | exact congrArg some (Int.compare_eq_lt.mpr (by omega)).symm
    | exact congrArg some (Int.compare_eq_gt.mpr (by omega)).symm
    | exact congrArg some (Int.compare_eq_eq.mpr (by omega)).symm

/-- Comparing floats compares what their patterns unpack to. -/
theorem lt_iff_compare (x y : Float) :
    x < y ↔ x.toModel.unpack.compare y.toModel.unpack = some .lt := by
  show Float.lt x y = true ↔ _
  unfold Float.lt
  rw [decide_eq_true_iff]
  show (x.toModel.unpack.compare y.toModel.unpack == some .lt) = true ↔ _
  exact beq_iff_eq

theorem lt_iff_rank (hx : x.isNaN = false) (hy : y.isNaN = false) : x < y ↔ rank x < rank y := by
  rw [lt_iff_compare, compare_eq hx hy, Option.some_inj, Int.compare_eq_lt]

theorem le_iff_rank (hx : x.isNaN = false) (hy : y.isNaN = false) : x ≤ y ↔ rank x ≤ rank y := by
  have hle : x ≤ y ↔ (x.toModel.unpack.compare y.toModel.unpack).any (·.isLE) = true := by
    show Float.le x y = true ↔ _
    unfold Float.le
    rw [decide_eq_true_iff]
    exact Iff.rfl
  rw [hle, compare_eq hx hy, Option.any_some, Int.isLE_compare]

/-- Where there is no NaN, what is not below is above or equal. -/
theorem not_lt_iff_le (hx : x.isNaN = false) (hy : y.isNaN = false) : ¬ x < y ↔ y ≤ x := by
  rw [lt_iff_rank hx hy, le_iff_rank hy hx, Int.not_lt]

theorem isNaN_of_isFinite (h : x.isFinite = true) : x.isNaN = false := by
  rw [isFinite_iff] at h
  rw [← Bool.not_eq_true, isNaN_iff]
  omega

/-- A number between two finite ones is finite. -/
theorem isFinite_of_between {min max : Float} (hx : x.isNaN = false) (hmin : min.isFinite = true)
    (hlow : ¬ x < min) (hmax : max.isFinite = true) (hhigh : ¬ max < x) : x.isFinite = true := by
  rw [lt_iff_rank hx (isNaN_of_isFinite hmin)] at hlow
  rw [lt_iff_rank (isNaN_of_isFinite hmax) hx] at hhigh
  rw [isFinite_iff, ← natAbs_rank] at *
  omega

/-! ## The numbers that floats stand for -/

/-- The number that a finite float stands for. -/
def exact (x : Float) : ℚ :=
  match sign x with
  | .positive => patternValue (magnitudeBits x)
  | .negative => -patternValue (magnitudeBits x)

@[simp] theorem exact_zero : exact 0 = 0 := patternValue_zero

theorem exact_lt_iff (x y : Float) : exact x < exact y ↔ rank x < rank y := by
  have hx := patternValue_nonneg (magnitudeBits x)
  have hy := patternValue_nonneg (magnitudeBits y)
  unfold exact rank
  cases sign x <;> cases sign y <;> simp only [Sign.apply]
  · rw [neg_lt_neg_iff, patternValue_strictMono.lt_iff_lt]
    omega
  · by_cases h : magnitudeBits x = 0 ∧ magnitudeBits y = 0
    · simp [h]
    · refine iff_of_true ?_ (by omega)
      rcases Nat.eq_zero_or_pos (magnitudeBits x) with hzero | hpos
      · have := patternValue_pos (n := magnitudeBits y) (by omega)
        linarith
      · have := patternValue_pos hpos
        linarith
  · exact iff_of_false (by linarith) (by omega)
  · rw [patternValue_strictMono.lt_iff_lt]
    omega

theorem exact_le_iff (x y : Float) : exact x ≤ exact y ↔ rank x ≤ rank y := by
  rw [← not_lt, exact_lt_iff, Int.not_lt]

/-- Finite floats are ordered as the numbers that they stand for. -/
theorem lt_iff_exact (hx : x.isFinite = true) (hy : y.isFinite = true) :
    x < y ↔ exact x < exact y := by
  rw [lt_iff_rank (isNaN_of_isFinite hx) (isNaN_of_isFinite hy), exact_lt_iff]

theorem le_iff_exact (hx : x.isFinite = true) (hy : y.isFinite = true) :
    x ≤ y ↔ exact x ≤ exact y := by
  rw [le_iff_rank (isNaN_of_isFinite hx) (isNaN_of_isFinite hy), exact_le_iff]

/-! ## Counts -/

/-- A pattern up to that of infinity is the pattern of its float. -/
theorem toBits_floatOfBits {b : Nat} (h : b ≤ infinityBits) :
    (floatOfBits false b).toBits.toNat = b := by
  obtain ⟨p, hp⟩ : ∃ p : Pattern, p = (UInt64.ofNat b).toBitVec := ⟨_, rfl⟩
  have hb : b < 2 ^ 64 := Nat.lt_of_le_of_lt h (by decide)
  have hbits : p.toNat = b := by
    rw [hp]
    exact Nat.mod_eq_of_lt hb
  have hvalid : Format.binary64.Valid p := by
    refine ⟨fun hexponent hmantissa => absurd (BitVec.eq_of_toNat_eq ?_) hmantissa⟩
    have htop : (unpackExponent p).toNat = 2047 := by rw [hexponent]; rfl
    rw [unpackExponent_toNat, hbits] at htop
    rw [unpackMantissa_toNat, hbits, BitVec.toNat_zero]
    rw [infinityBits] at h
    omega
  have hpack : (floatOfBits false b).toBits.toBitVec =
      pack .binary64 (UnpackedFloat.unpack .binary64 p) := by rw [hp]; rfl
  rw [← UInt64.toNat_toBitVec, hpack, pack_unpack hvalid, hbits]

theorem magnitudeBits_floatOfBits {b : Nat} (h : b ≤ infinityBits) :
    magnitudeBits (floatOfBits false b) = b := by
  rw [magnitudeBits, toBits_floatOfBits h]
  exact Nat.mod_eq_of_lt (Nat.lt_of_le_of_lt h (by decide))

theorem sign_floatOfBits {b : Nat} (h : b ≤ infinityBits) :
    sign (floatOfBits false b) = .positive := by
  have hsign : ¬ signBit ≤ b := Nat.not_le.mpr (Nat.lt_of_le_of_lt h (by decide))
  rw [sign, isNegative, toBits_floatOfBits h, decide_eq_false hsign]
  rfl

/-- Counts stay far below infinity. -/
theorem nearestBits_lt_infinityBits (n : UInt64) : nearestBits n.toNat 1 < infinityBits := by
  have hn : (n.toNat : ℚ) ≤ (2 ^ 64 : Nat) := by exact_mod_cast n.toNat_lt.le
  have hmono : nearestBits n.toNat 1 ≤ nearestBits (2 ^ 64) 1 :=
    nearestBits_mono one_pos one_pos (div_le_div_of_nonneg_right hn (by norm_num))
  exact Nat.lt_of_le_of_lt hmono (by decide +kernel)

/-- The float nearest to a count is finite. -/
theorem isFinite_ofInt (n : UInt64) : (ofInt n.toNat).isFinite = true := by
  have h := nearestBits_lt_infinityBits n
  rw [isFinite_iff]
  show magnitudeBits (floatOfBits false (nearestBits n.toNat 1)) < infinityBits
  rwa [magnitudeBits_floatOfBits h.le]

theorem exact_ofInt (n : UInt64) : exact (ofInt n.toNat) = patternValue (nearestBits n.toNat 1) := by
  have h := (nearestBits_lt_infinityBits n).le
  show exact (floatOfBits false (nearestBits n.toNat 1)) = _
  rw [exact, sign_floatOfBits h, magnitudeBits_floatOfBits h]

/-- No float stands for a number that is nearer to a count. -/
theorem exact_ofInt_nearest (n : UInt64) (y : Float) :
    |(n.toNat : ℚ) - exact (ofInt n.toNat)| ≤ |(n.toNat : ℚ) - exact y| := by
  have hnearest : ∀ c, |(n.toNat : ℚ) - patternValue (nearestBits n.toNat 1)| ≤
      |(n.toNat : ℚ) - patternValue c| := by
    intro c
    by_cases hc : c = nearestBits n.toNat 1
    · rw [hc]
    · have h := nearestBits_nearest n.toNat one_pos hc
      rw [Nat.cast_one, div_one] at h
      exact h.elim le_of_lt fun h => h.1.le
  have hn : (0 : ℚ) ≤ n.toNat := Nat.cast_nonneg _
  rw [exact_ofInt]
  unfold exact
  cases sign y with
  | positive => exact hnearest _
  | negative =>
    -- zero is nearer than a negative number
    have hy := patternValue_nonneg (magnitudeBits y)
    refine (hnearest 0).trans ?_
    rw [patternValue_zero, abs_of_nonneg (by linarith), abs_of_nonneg (by linarith)]
    linarith

theorem exact_ofInt_nonneg (n : UInt64) : 0 ≤ exact (ofInt n.toNat) := by
  rw [exact_ofInt]
  exact patternValue_nonneg _

/-- Counts keep their order when they are rounded. -/
theorem exact_ofInt_mono {m n : UInt64} (h : m ≤ n) :
    exact (ofInt m.toNat) ≤ exact (ofInt n.toNat) := by
  have hmn : (m.toNat : ℚ) ≤ n.toNat := by exact_mod_cast h
  rw [exact_ofInt, exact_ofInt, patternValue_strictMono.le_iff_le]
  exact nearestBits_mono one_pos one_pos (div_le_div_of_nonneg_right hmn (by norm_num))

/-- A count that is positive does not become zero. -/
theorem exact_ofInt_pos {n : UInt64} (h : 0 < n) : 0 < exact (ofInt n.toNat) := by
  have hone : (1 : UInt64) ≤ n := h
  refine lt_of_lt_of_le ?_ (exact_ofInt_mono hone)
  rw [exact_ofInt]
  exact patternValue_pos (by decide +kernel)

end ContextProtocol.Decimal
