import Mathlib
import Script.Number.Nearest

/-! Doubles by their bit patterns.
A double is determined by what it stands for, and so by the pattern that is packed of it. -/
namespace Script.Number

open Float.Model UnpackedFloat

theorem packComponents_fields {b : BitVec Format.binary64.numBits} {e : BitVec 11} {m : BitVec 52}
    (exponent : unpackExponent b = e) (mantissa : unpackMantissa b = m) :
    packComponents .binary64 (Sign.ofBitVec (unpackSign b)) e m = b := by
  have sign (v : BitVec 1) : (Sign.ofBitVec v).toBitVec = v := by
    revert v
    decide
  rw [packComponents, sign, ← exponent, ← mantissa]
  ext i hi
  simp only [unpackSign, unpackExponent, unpackMantissa, BitVec.extractLsb]
  grind

theorem toNat_one_append (m : BitVec 52) : (1#1 ++ m).toNat = 2 ^ 52 + m.toNat := by
  rw [BitVec.toNat_append, ← Nat.shiftLeft_add_eq_or_of_lt m.isLt]
  rfl

theorem log2_significand (m : BitVec 52) : (2 ^ 52 + m.toNat).log2 = 52 := by
  have hm := m.isLt
  rw [Nat.log2_eq_iff (by omega)]
  omega

theorem log2_fraction {m : BitVec 52} (hm : m ≠ 0#52) : m.toNat.log2 < 52 :=
  (Nat.log2_lt fun h => hm (BitVec.eq_of_toNat_eq h)).mpr m.isLt

/-- A bit pattern is what is packed of what it stands for. -/
theorem pack_unpack {b : BitVec Format.binary64.numBits} (valid : Format.binary64.Valid b) :
    UnpackedFloat.pack .binary64 (UnpackedFloat.unpack .binary64 b) = b := by
  have bias : Format.binary64.exponentBias = 1023 := rfl
  have width : Format.binary64.mantissaBits = 53 := rfl
  have bound : (unpackExponent b).toNat < 2048 := (unpackExponent b).isLt
  unfold UnpackedFloat.unpack
  dsimp only
  split
  · rename_i top
    split
    · exact packComponents_fields top ‹_›
    · exact (valid.eq_packedNaN top ‹_›).symm
  rename_i top
  have top : (unpackExponent b).toNat ≠ 2047 := fun h => top (BitVec.eq_of_toNat_eq h)
  split
  · rename_i low
    split
    · exact packComponents_fields low ‹_›
    · rename_i nonzero
      have log := log2_fraction nonzero
      simp only [UnpackedFloat.pack, low, bias, width]
      rw [if_neg (by decide), if_neg (by omega)]
      exact packComponents_fields low (BitVec.eq_of_toNat_eq (by simp))
  · have log := log2_significand (unpackMantissa b)
    have biased (e : Nat) : ((e : Int) - ((1023 : Nat) + (52 : Nat)) + (1023 : Nat) +
        (52 : Nat)).toNat = e := by omega
    simp only [UnpackedFloat.pack, toNat_one_append, log, width, bias, biased]
    rw [if_neg (show ¬ 2048 ≤ _ by omega), if_pos trivial]
    refine packComponents_fields (BitVec.eq_of_toNat_eq ?_) (BitVec.eq_of_toNat_eq ?_)
    · exact (Nat.mod_eq_of_lt bound).symm
    · rw [BitVec.toNat_ofNat, Nat.add_mod_left]
      exact (Nat.mod_eq_of_lt (unpackMantissa b).isLt).symm

/-- A double is determined by what it stands for. -/
theorem ofModel_pack (x : Float) : Float.ofModel (.pack x.toModel.unpack) = x := by
  obtain ⟨⟨bits, valid⟩⟩ := x
  have packed : pack .binary64 (unpack .binary64 bits.toBitVec) = bits.toBitVec := pack_unpack valid
  simp only [Float.Model.pack, Float.Model.unpack, packed]

theorem unpack_inj {x y : Float} (h : x.toModel.unpack = y.toModel.unpack) : x = y := by
  rw [← ofModel_pack x, h, ofModel_pack]

def IsZero (x : Float) : Prop := x = 0 ∨ x = -0

theorem isZero_iff {x : Float} : IsZero x ↔ ∃ s, x.toModel.unpack = .zero s := by
  constructor
  · rintro (rfl | rfl)
    · exact ⟨.positive, rfl⟩
    · exact ⟨.negative, rfl⟩
  · rintro ⟨s, hs⟩
    rw [← ofModel_pack x, hs]
    cases s
    · exact .inr rfl
    · exact .inl rfl

theorem compare_sign_eq_iff {s t : Sign} : compare s t = .eq ↔ s = t := by
  constructor
  · intro h
    cases s <;> cases t <;> cases h <;> rfl
  · rintro rfl
    cases s <;> rfl

theorem compare_eq_iff {u v : UnpackedFloat} :
    u.compare v = some .eq ↔ u.isNaN = false ∧ u = v ∨ (∃ s, u = .zero s) ∧ ∃ s, v = .zero s := by
  cases u with
  | notANumber => simp [UnpackedFloat.compare, UnpackedFloat.isNaN]
  | infinity s =>
    cases v with
    | infinity t => simp [UnpackedFloat.compare, UnpackedFloat.isNaN, compare_sign_eq_iff]
    | _ => cases s <;> simp [UnpackedFloat.compare]
  | zero s =>
    cases v with
    | zero t => simp [UnpackedFloat.compare]
    | notANumber => simp [UnpackedFloat.compare]
    | infinity t => cases t <;> simp [UnpackedFloat.compare]
    | finite t => cases t <;> simp [UnpackedFloat.compare]
  | finite s m e _ =>
    cases v with
    | finite t m' e' _ =>
      cases s <;> cases t <;> simp [UnpackedFloat.compare, UnpackedFloat.isNaN, and_comm]
    | infinity t => cases t <;> simp [UnpackedFloat.compare]
    | _ => cases s <;> simp [UnpackedFloat.compare]

/-- Doubles are equal if they are the same and not NaN, or both zero. -/
theorem beq_iff {x y : Float} :
    (x == y) = true ↔ x.isNaN = false ∧ x = y ∨ IsZero x ∧ IsZero y := by
  have compared : (x == y) = (x.toModel.unpack.compare y.toModel.unpack == some .eq) := rfl
  rw [compared, beq_iff_eq, compare_eq_iff, isZero_iff, isZero_iff]
  exact or_congr (and_congr Iff.rfl ⟨unpack_inj, fun h => h ▸ rfl⟩) Iff.rfl

def exponentField (bits : Nat) : Nat := bits / twoTo 52 % 2048

theorem unpackExponent_toNat (b : BitVec Format.binary64.numBits) :
    (unpackExponent b).toNat = exponentField b.toNat := by
  simp only [unpackExponent, BitVec.toNat_cast, BitVec.extractLsb_toNat, Nat.shiftRight_eq_div_pow]
  rfl

theorem unpackMantissa_toNat (b : BitVec Format.binary64.numBits) :
    (unpackMantissa b).toNat = b.toNat % twoTo 52 := by
  simp only [unpackMantissa, BitVec.toNat_cast, BitVec.extractLsb_toNat, Nat.shiftRight_zero]
  rfl

theorem unpack_isFinite_iff (b : BitVec Format.binary64.numBits) :
    (UnpackedFloat.unpack .binary64 b).isFinite = true ↔ exponentField b.toNat ≠ 2047 := by
  rw [← unpackExponent_toNat]
  unfold UnpackedFloat.unpack
  dsimp only
  split
  · rename_i top
    rw [top]
    split <;> simp [UnpackedFloat.isFinite]
  · rename_i top
    refine iff_of_true ?_ fun h => top (BitVec.eq_of_toNat_eq h)
    split
    · split <;> rfl
    · rfl

theorem isFinite_iff {x : Float} : x.isFinite = true ↔ exponentField x.toBits.toNat ≠ 2047 :=
  unpack_isFinite_iff x.toBits.toBitVec

/-- A bit pattern up to that of infinity is the pattern of a double. -/
theorem toBits_ofBits {bits : Nat} (h : bits ≤ infinityBits) :
    (Float.ofBits (UInt64.ofNat bits)).toBits.toNat = bits := by
  have top : infinityBits = 2047 * 4503599627370496 := rfl
  have small : (UInt64.ofNat bits).toBitVec.toNat = bits := Nat.mod_eq_of_lt (by omega)
  have valid : Format.binary64.Valid (UInt64.ofNat bits).toBitVec := by
    refine ⟨fun highest nonzero => absurd (BitVec.eq_of_toNat_eq ?_) nonzero⟩
    have field := congrArg BitVec.toNat highest
    rw [unpackExponent_toNat, small] at field
    rw [unpackMantissa_toNat, small]
    have field : bits / 4503599627370496 % 2048 = 2047 := field
    show bits % 4503599627370496 = 0
    omega
  have packed := pack_unpack valid
  show (UnpackedFloat.pack .binary64 (UnpackedFloat.unpack .binary64 _)).toNat = bits
  rw [packed, small]

end Script.Number
