import ContextProtocol.Decimal.Nearest
import Mathlib

/-!
# Floats and their bit patterns

A float and its 64 bits say the same: the sign of a float and its bits without the sign put it
together again, and they say what kind of float it is.

Results:
* `pack_unpack`, `floatOfBits_magnitudeBits`: a float is put together from its own bits.
* `unpack_cases`: what a float unpacks to, by its sign and its bits without the sign.
* `isFinite_iff`, `isNaN_iff`: the finite floats are those whose bits are below those of infinity, and
  those above are no numbers.
-/
namespace ContextProtocol.Decimal
open Float.Model (Format UnpackedFloat)
open Float.Model.UnpackedFloat

/-- The bits of a binary64 number. -/
abbrev Pattern := BitVec Format.binary64.numBits

theorem unpackMantissa_toNat (b : Pattern) :
    (unpackMantissa b).toNat = b.toNat % 2 ^ 52 := by
  simp [unpackMantissa]

theorem unpackExponent_toNat (b : Pattern) :
    (unpackExponent b).toNat = b.toNat / 2 ^ 52 % 2 ^ 11 := by
  simp [unpackExponent, Nat.shiftRight_eq_div_pow]

theorem unpackSign_toNat (b : Pattern) : (unpackSign b).toNat = b.toNat / 2 ^ 63 := by
  have hb : b.toNat < 2 ^ 64 := b.isLt
  simp only [unpackSign, BitVec.toNat_cast, BitVec.extractLsb_toNat]
  rw [Nat.shiftRight_eq_div_pow]
  norm_num
  omega

theorem sign_toBitVec : ∀ s : BitVec 1, (Sign.ofBitVec s).toBitVec = s := by decide

/-- A pattern is put together from its own fields. -/
theorem packComponents_fields {b : Pattern} {e : BitVec 11} {m : BitVec 52}
    (he : unpackExponent b = e) (hm : unpackMantissa b = m) :
    packComponents .binary64 (.ofBitVec (unpackSign b)) e m = b := by
  apply BitVec.eq_of_toNat_eq
  have hb : b.toNat < 2 ^ 64 := b.isLt
  have he' : e.toNat = b.toNat / 2 ^ 52 % 2 ^ 11 := by rw [← he, unpackExponent_toNat]
  have hm' : m.toNat = b.toNat % 2 ^ 52 := by rw [← hm, unpackMantissa_toNat]
  have hs := unpackSign_toNat b
  rw [packComponents, sign_toBitVec, BitVec.toNat_append, BitVec.toNat_append,
    ← Nat.shiftLeft_add_eq_or_of_lt e.isLt, ← Nat.shiftLeft_add_eq_or_of_lt m.isLt, hs, he', hm',
    Nat.shiftLeft_eq, Nat.shiftLeft_eq]
  simp only [Nat.reducePow] at *
  omega

theorem log2_of_normal {m : Nat} (h : 2 ^ 52 ≤ m) (h' : m < 2 ^ 53) : m.log2 = 52 := by
  have h0 : m ≠ 0 := by omega
  have h1 := (Nat.le_log2 h0).mpr h
  have h2 := (Nat.log2_lt h0).mpr h'
  omega

/-- The biased exponent that packing computes from an unpacked one. -/
theorem biased_exponent (e k : Nat) :
    ((e : Int) - ((Format.binary64.exponentBias : Nat) + (52 : Nat)) + k +
      (Format.binary64.exponentBias : Nat) + (52 : Nat)).toNat = e + k := by
  omega

theorem pack_unpack {b : Pattern} (hb : Format.binary64.Valid b) :
    pack .binary64 (UnpackedFloat.unpack .binary64 b) = b := by
  have hlt : (unpackMantissa b).toNat < 2 ^ 52 := (unpackMantissa b).isLt
  have hbits : Format.binary64.mantissaBits = 53 := rfl
  unfold UnpackedFloat.unpack
  simp only
  split
  · rename_i hexp
    split
    · rename_i hman; exact packComponents_fields hexp hman
    · rename_i hman; exact (hb.eq_packedNaN hexp hman).symm
  · rename_i hexp
    have htop : (unpackExponent b).toNat ≠ 2047 := fun h => hexp (BitVec.eq_of_toNat_eq h)
    split
    · rename_i hzero
      split
      · rename_i hman; exact packComponents_fields hzero hman
      · rename_i hman
        have h0 : (unpackMantissa b).toNat ≠ 0 := fun h => hman (BitVec.eq_of_toNat_eq h)
        have hlog := (Nat.log2_lt h0).mpr hlt
        rw [pack]
        simp only
        rw [if_neg (by rw [hzero]; decide), if_neg (by omega)]
        exact packComponents_fields hzero (by rw [BitVec.ofNat_toNat, BitVec.setWidth_eq])
    · have happ : (1#1 ++ unpackMantissa b).toNat = 2 ^ 52 + (unpackMantissa b).toNat := by
        rw [BitVec.toNat_append, ← Nat.shiftLeft_add_eq_or_of_lt (unpackMantissa b).isLt]; rfl
      have hlog := log2_of_normal (m := (1#1 ++ unpackMantissa b).toNat) (by omega) (by omega)
      have hbias := biased_exponent (unpackExponent b).toNat 0
      simp only [Int.natCast_zero, Int.add_zero, Nat.add_zero] at hbias
      have he := (unpackExponent b).isLt
      rw [pack]
      simp only [hbias]
      rw [if_neg (by simp only [Format.binary64, Nat.reducePow] at *; omega), if_pos (by omega)]
      refine packComponents_fields (by rw [BitVec.ofNat_toNat, BitVec.setWidth_eq]) ?_
      apply BitVec.eq_of_toNat_eq
      rw [BitVec.toNat_ofNat, happ]
      simp only [Format.binary64, Nat.reducePow] at *
      omega

/-- Reading a float off its own bits gives it back. -/
theorem ofBits_toBits (x : Float) : Float.ofBits x.toBits = x := by
  obtain ⟨bits, hv⟩ := x
  have h : pack .binary64 (UnpackedFloat.unpack .binary64 bits.toBitVec) = bits.toBitVec :=
    pack_unpack hv
  simp only [Float.ofBits, Float.toBits, Float.Model.ofBits, Float.Model.pack, h]

/-- A float is put together from its sign and its magnitude. -/
theorem floatOfBits_magnitudeBits (x : Float) :
    floatOfBits (isNegative x) (magnitudeBits x) = x := by
  have hx : x.toBits.toNat < 2 ^ 64 := x.toBits.toNat_lt
  have h : (if isNegative x then signBit + magnitudeBits x else magnitudeBits x) =
      x.toBits.toNat := by
    unfold isNegative magnitudeBits signBit
    by_cases hs : 0x8000000000000000 ≤ x.toBits.toNat
    · simp only [hs, decide_true, if_true]
      omega
    · simp only [hs, decide_false, Bool.false_eq_true, if_false]
      omega
  rw [floatOfBits, h, UInt64.ofNat_toNat, ofBits_toBits]

/-! ## Floats taken apart -/

/-- The bits of a float. -/
def pattern (x : Float) : Pattern := x.toBits.toBitVec

theorem unpack_eq_unpack_pattern (x : Float) :
    x.toModel.unpack = UnpackedFloat.unpack .binary64 (pattern x) := rfl

/-- The sign of a float. -/
def sign (x : Float) : Sign := if isNegative x then .negative else .positive

variable {x : Float}

theorem ofBitVec_unpackSign (x : Float) : Sign.ofBitVec (unpackSign (pattern x)) = sign x := by
  have hsign := unpackSign_toNat (pattern x)
  have hx : (pattern x).toNat < 2 ^ 64 := (pattern x).isLt
  have hneg : isNegative x = decide (2 ^ 63 ≤ (pattern x).toNat) := rfl
  rw [Sign.ofBitVec, sign, hneg]
  by_cases h : 2 ^ 63 ≤ (pattern x).toNat
  · have hone : unpackSign (pattern x) ≠ 0#1 := by
      intro hzero
      rw [hzero, BitVec.toNat_zero] at hsign
      omega
    rw [if_neg hone, decide_eq_true h, if_pos rfl]
  · have hzero : unpackSign (pattern x) = 0#1 := by
      apply BitVec.eq_of_toNat_eq
      rw [hsign, BitVec.toNat_zero]
      omega
    rw [if_pos hzero, decide_eq_false h, if_neg Bool.false_ne_true]

/-- The pattern without its sign is the exponent field and then the mantissa field. -/
theorem magnitudeBits_eq_fields (x : Float) : magnitudeBits x =
    (unpackExponent (pattern x)).toNat * 2 ^ 52 + (unpackMantissa (pattern x)).toNat := by
  have hx : (pattern x).toNat < 2 ^ 64 := (pattern x).isLt
  have hmag : magnitudeBits x = (pattern x).toNat % 2 ^ 63 := rfl
  rw [unpackExponent_toNat, unpackMantissa_toNat, hmag]
  omega

theorem exists_finite_eq {s : Sign} {m m' : Nat} {e e' : Int} {h : 0 < m} (hm : m = m')
    (he : e = e') : ∃ h', UnpackedFloat.finite s m e h = .finite s m' e' h' := by
  subst hm he
  exact ⟨h, rfl⟩

/-- A pattern with the greatest exponent field is that of an infinity, or of no number. -/
theorem unpack_of_top (h : (unpackExponent (pattern x)).toNat = 2047) :
    (magnitudeBits x = infinityBits ∧ x.toModel.unpack = .infinity (sign x)) ∨
      (infinityBits < magnitudeBits x ∧ x.toModel.unpack = .notANumber) := by
  have hmag := magnitudeBits_eq_fields x
  have hexp : unpackExponent (pattern x) = -1#11 := BitVec.eq_of_toNat_eq h
  rw [unpack_eq_unpack_pattern, UnpackedFloat.unpack, ofBitVec_unpackSign]
  simp only [infinityBits]
  rw [if_pos hexp]
  split
  · rename_i hman
    have hzero : (unpackMantissa (pattern x)).toNat = 0 := by rw [hman]; rfl
    exact .inl ⟨by omega, rfl⟩
  · rename_i hman
    have hzero : (unpackMantissa (pattern x)).toNat ≠ 0 := fun h => hman (BitVec.eq_of_toNat_eq h)
    exact .inr ⟨by omega, rfl⟩

/-- Another pattern is that of a zero, or of the number that is read off it. -/
theorem unpack_of_not_top (h : (unpackExponent (pattern x)).toNat ≠ 2047) :
    (magnitudeBits x = 0 ∧ x.toModel.unpack = .zero (sign x)) ∨
      ∃ h, x.toModel.unpack = .finite (sign x) (Magnitude.ofBits (magnitudeBits x)).mantissa
        (Magnitude.ofBits (magnitudeBits x)).exponent h := by
  have hmag := magnitudeBits_eq_fields x
  have hmantissa : (unpackMantissa (pattern x)).toNat < 2 ^ 52 := (unpackMantissa (pattern x)).isLt
  have hexp : unpackExponent (pattern x) ≠ -1#11 := fun htop => h (by rw [htop]; rfl)
  rw [unpack_eq_unpack_pattern, UnpackedFloat.unpack, ofBitVec_unpackSign]
  simp only
  rw [if_neg hexp]
  split
  · rename_i hleast
    have hzero : (unpackExponent (pattern x)).toNat = 0 := by rw [hleast]; rfl
    split
    · rename_i hman
      have hnone : (unpackMantissa (pattern x)).toNat = 0 := by rw [hman]; rfl
      exact .inl ⟨by omega, rfl⟩
    · have hsubnormal : Magnitude.ofBits (magnitudeBits x) =
          ⟨(unpackMantissa (pattern x)).toNat, -1074⟩ := by
        rw [hmag, hzero, Nat.zero_mul, Nat.zero_add]
        exact if_pos (by rw [Magnitude.hiddenBit]; omega)
      refine .inr (exists_finite_eq (by rw [hsubnormal]) ?_)
      rw [hsubnormal, hzero]
      rfl
  · rename_i hleast
    have hzero : (unpackExponent (pattern x)).toNat ≠ 0 := fun h => hleast (BitVec.eq_of_toNat_eq h)
    have hleading : (1#1 ++ unpackMantissa (pattern x)).toNat =
        2 ^ 52 + (unpackMantissa (pattern x)).toNat := by
      rw [BitVec.toNat_append, ← Nat.shiftLeft_add_eq_or_of_lt (unpackMantissa (pattern x)).isLt]
      rfl
    have hnormal : Magnitude.ofBits (magnitudeBits x) =
        ⟨2 ^ 52 + (unpackMantissa (pattern x)).toNat,
          (unpackExponent (pattern x)).toNat - 1075⟩ := by
      rw [hmag, Magnitude.ofBits, Magnitude.hiddenBit, if_neg (by omega), Magnitude.mk.injEq]
      omega
    exact .inr (exists_finite_eq (by rw [hleading, hnormal]) (by rw [hnormal]; rfl))

/-- What a float unpacks to, by its sign and its pattern without sign. -/
theorem unpack_cases (x : Float) :
    (magnitudeBits x = 0 ∧ x.toModel.unpack = .zero (sign x)) ∨
    (0 < magnitudeBits x ∧ magnitudeBits x < infinityBits ∧ ∃ h, x.toModel.unpack =
      .finite (sign x) (Magnitude.ofBits (magnitudeBits x)).mantissa
        (Magnitude.ofBits (magnitudeBits x)).exponent h) ∨
    (magnitudeBits x = infinityBits ∧ x.toModel.unpack = .infinity (sign x)) ∨
    (infinityBits < magnitudeBits x ∧ x.toModel.unpack = .notANumber) := by
  by_cases h : (unpackExponent (pattern x)).toNat = 2047
  · exact .inr (.inr (unpack_of_top h))
  · have hmag := magnitudeBits_eq_fields x
    have hmantissa : (unpackMantissa (pattern x)).toNat < 2 ^ 52 := (unpackMantissa (pattern x)).isLt
    have hexponent : (unpackExponent (pattern x)).toNat < 2 ^ 11 := (unpackExponent (pattern x)).isLt
    have hfinite : magnitudeBits x < infinityBits := by rw [infinityBits]; omega
    rcases unpack_of_not_top h with hzero | ⟨hpos, hnumber⟩
    · exact .inl hzero
    · have hne : 0 < magnitudeBits x := by
        refine Nat.pos_of_ne_zero fun hzero => ?_
        rw [hzero] at hpos
        exact absurd hpos (by decide)
      exact .inr (.inl ⟨hne, hfinite, hpos, hnumber⟩)

/-- The finite floats are those whose magnitude is below that of infinity. -/
theorem isFinite_iff (x : Float) : x.isFinite = true ↔ magnitudeBits x < infinityBits := by
  have hfinite : x.isFinite = x.toModel.unpack.isFinite := rfl
  rw [hfinite]
  rcases unpack_cases x with ⟨h, hx⟩ | ⟨-, h, _, hx⟩ | ⟨h, hx⟩ | ⟨h, hx⟩ <;> rw [hx]
  · exact iff_of_true rfl (by rw [h]; decide)
  · exact iff_of_true rfl h
  · exact iff_of_false nofun (by omega)
  · exact iff_of_false nofun (by omega)

theorem isNaN_iff (x : Float) : x.isNaN = true ↔ infinityBits < magnitudeBits x := by
  have hnan : x.isNaN = x.toModel.unpack.isNaN := rfl
  rw [hnan]
  rcases unpack_cases x with ⟨h, hx⟩ | ⟨-, h, _, hx⟩ | ⟨h, hx⟩ | ⟨h, hx⟩ <;> rw [hx]
  · exact iff_of_false nofun (by rw [h]; decide)
  · exact iff_of_false nofun (by omega)
  · exact iff_of_false nofun (by omega)
  · exact iff_of_true rfl h

end ContextProtocol.Decimal
