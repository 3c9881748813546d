import GlobeDrag.Binary64
import GlobeDrag.Proofs.Binary64.Unpacked

/-!
# Packed doubles

What packing keeps of an unpacked double, and what a word unpacks to.

Main statements: `unpack_pack` (a canonical double comes back, or infinity if it is too large), `isCanonical_unpack` (words unpack
to canonical form) and `rational_unpack` (the exact number read off the fields of a word).
-/

namespace GlobeDrag.Binary64

open Float.Model (Format UnpackedFloat)
open Float.Model.UnpackedFloat

/-! ## Unpacking what was packed -/

/-- A packed infinity unpacks to it. -/
theorem unpack_packedInfinity (s : Sign) : unpack .binary64 (packedInfinity .binary64 s) = .infinity s := by
  simp [unpack, packedInfinity]

/-- In a normal double the highest bit of the mantissa is left out, and put back. -/
theorem unpack_normal (s : Sign) {m : ℕ} {e : ℤ} (hm : 0 < m) (h52 : 2 ^ 52 ≤ m) (h53 : m < 2 ^ 53) (he : -1074 ≤ e)
    (he' : e ≤ 971) :
    unpack .binary64 (packComponents .binary64 s (BitVec.ofNat 11 (e + 1075).toNat) (BitVec.ofNat 52 m)) = .finite s m e hm := by
  have h1 : (e + 1075).toNat < 2 ^ 11 := by omega
  have hne : BitVec.ofNat 11 (e + 1075).toNat ≠ -1#11 := by
    intro h
    have := congrArg BitVec.toNat h
    simp at this
    omega
  have hne' : BitVec.ofNat 11 (e + 1075).toNat ≠ 0#11 := by
    intro h
    have := congrArg BitVec.toNat h
    simp at this
    omega
  have hmant : (1#1 ++ BitVec.ofNat 52 m).toNat = m := by
    rw [BitVec.toNat_append, BitVec.toNat_ofNat, BitVec.toNat_ofNat, ← Nat.shiftLeft_add_eq_or_of_lt (by omega)]
    omega
  simp only [unpack, unpackExponent_packComponents, unpackMantissa_packComponents, unpackSign_packComponents,
    Sign.ofBitVec_toBitVec, if_neg hne, if_neg hne', hmant, Format.exponentBias]
  congr 1
  rw [BitVec.toNat_ofNat, Nat.mod_eq_of_lt h1]
  omega

/-- A double with the smallest exponent keeps its mantissa. -/
theorem unpack_subnormal (s : Sign) {m : ℕ} (hm : 0 < m) (h : m < 2 ^ 52) :
    unpack .binary64 (packComponents .binary64 s 0#11 (BitVec.ofNat 52 m)) = .finite s m (-1074) hm := by
  have hnat : (BitVec.ofNat 52 m).toNat = m := by
    rw [BitVec.toNat_ofNat, Nat.mod_eq_of_lt h]
  have hne : BitVec.ofNat 52 m ≠ 0#52 := by
    intro h0
    rw [h0, BitVec.toNat_ofNat] at hnat
    omega
  simp only [unpack, unpackExponent_packComponents, unpackMantissa_packComponents, unpackSign_packComponents,
    Sign.ofBitVec_toBitVec, hnat]
  rw [if_neg (by decide), if_pos trivial, dif_neg hne]
  rfl

/-- A double as it can be packed: beyond the largest exponent it is infinite. -/
def bounded : UnpackedFloat → UnpackedFloat
  | .finite s m e h => if e ≤ 971 then .finite s m e h else .infinity s
  | u => u

/-- Bounding does not make a NaN, nor does it take one away. -/
theorem isNaN_bounded (u : UnpackedFloat) : (bounded u).isNaN = u.isNaN := by
  cases u with
  | finite s m e h =>
    rw [bounded]
    split <;> rfl
  | _ => rfl

/-- What is finite after bounding was finite before. -/
theorem isFinite_of_bounded {u : UnpackedFloat} (h : (bounded u).isFinite = true) : u.isFinite = true := by
  cases u with
  | finite s m e h => rfl
  | _ => exact h

/-- Packing a canonical double keeps it, up to infinity. -/
theorem unpack_pack {u : UnpackedFloat} (h : IsCanonical u) : unpack .binary64 (pack .binary64 u) = bounded u := by
  cases u with
  | infinity s => exact unpack_packedInfinity s
  | notANumber => exact unpack_packedNaN
  | zero s => exact unpack_packedZero
  | finite s m e hm =>
    obtain ⟨hlt, hle, hn⟩ := h
    have hb : (e + Format.binary64.exponentBias + (52 : ℕ)).toNat = (e + 1075).toNat := by
      simp only [Format.exponentBias]
      omega
    simp only [pack, hb, Format.mantissaBits, bounded]
    by_cases he : e ≤ 971
    · rw [if_neg (by omega), if_pos he]
      have hbit : m.log2 + 1 = 1 + 52 ↔ 2 ^ 52 ≤ m := by
        rw [← Nat.le_log2 hm.ne']
        have := (Nat.log2_lt hm.ne').2 hlt
        omega
      by_cases hm52 : 2 ^ 52 ≤ m
      · rw [if_pos (hbit.2 hm52)]
        exact unpack_normal s hm hm52 hlt hle he
      · rw [if_neg (fun h => hm52 (hbit.1 h))]
        obtain rfl : e = -1074 := hn.resolve_left hm52
        exact unpack_subnormal s hm (by omega)
    · rw [if_pos (by omega), if_neg he]
      exact unpack_packedInfinity s

/-- The exact number of a packed double is cut off at the infinities. -/
theorem rational_bounded {u : UnpackedFloat} (h : IsCanonical u) : rational (bounded u) = clamp (rational u) := by
  have hl : clamp limit = limit := clamp_of_le le_rfl
  have h0 : clamp 0 = 0 := clamp_of_abs_le (by rw [abs_zero]; exact limit_pos.le)
  cases u with
  | infinity s =>
    change signed s limit = clamp (signed s limit)
    rw [clamp_signed, hl]
  | notANumber => exact h0.symm
  | zero s => exact h0.symm
  | finite s m e hm =>
    obtain ⟨hlt, hle, hn⟩ := h
    have hp := two_zpow_pos e
    by_cases he : e ≤ 971
    · rw [bounded, if_pos he, clamp_of_abs_le]
      rw [rational, abs_signed, abs_of_nonneg (by positivity)]
      have hm53 : (m : ℚ) ≤ 2 ^ (53 : ℤ) := by exact_mod_cast hlt.le
      calc (m : ℚ) * 2 ^ e ≤ 2 ^ (53 : ℤ) * 2 ^ (971 : ℤ) :=
            mul_le_mul hm53 (zpow_le_zpow_right₀ (by norm_num) he) hp.le (two_zpow_pos _).le
        _ = limit := two_zpow_mul_two_zpow (by norm_num)
    · rw [bounded, if_neg he, rational, rational, clamp_signed, clamp_of_le]
      have hm52 : (2 : ℚ) ^ (52 : ℤ) ≤ m := by exact_mod_cast hn.resolve_right (by omega)
      calc limit = 2 ^ (52 : ℤ) * 2 ^ (972 : ℤ) := (two_zpow_mul_two_zpow (by norm_num)).symm
        _ ≤ (m : ℚ) * 2 ^ e :=
            mul_le_mul hm52 (zpow_le_zpow_right₀ (by norm_num) (by omega)) (two_zpow_pos _).le (Nat.cast_nonneg _)

/-! ## The fields of a word -/

theorem toNat_unpackExponent (b : BitVec 64) :
    (@unpackExponent .binary64 b).toNat = b.toNat / 2 ^ 52 % 2 ^ 11 := by
  simp [unpackExponent, BitVec.extractLsb_toNat, Nat.shiftRight_eq_div_pow]

theorem toNat_unpackMantissa (b : BitVec 64) : (@unpackMantissa .binary64 b).toNat = b.toNat % 2 ^ 52 := by
  simp [unpackMantissa, BitVec.extractLsb_toNat]

/-- The sign of a word. -/
def signOf (w : ℕ) : Sign := if w < signWord then .positive else .negative

theorem ofBitVec_unpackSign (b : BitVec 64) : Sign.ofBitVec (@unpackSign .binary64 b) = signOf b.toNat := by
  have hb := b.isLt
  have h : (@unpackSign .binary64 b).toNat = b.toNat / 2 ^ 63 := by
    simp [unpackSign, BitVec.extractLsb_toNat, Nat.shiftRight_eq_div_pow]
    omega
  rw [Sign.ofBitVec, signOf, signWord]
  by_cases hlt : b.toNat < 0x8000000000000000
  · rw [if_pos hlt, if_pos (BitVec.eq_of_toNat_eq (by rw [h, BitVec.toNat_ofNat]; omega))]
  · rw [if_neg hlt, if_neg]
    intro h0
    rw [h0, BitVec.toNat_ofNat] at h
    omega

/-- The unpacked double of a word by its fields. -/
theorem unpack_eq (b : BitVec 64) :
    (b.toNat / 2 ^ 52 % 2 ^ 11 = 2047 ∧ b.toNat % 2 ^ 52 = 0 ∧ unpack .binary64 b = .infinity (signOf b.toNat)) ∨
      (b.toNat / 2 ^ 52 % 2 ^ 11 = 2047 ∧ b.toNat % 2 ^ 52 ≠ 0 ∧ unpack .binary64 b = .notANumber) ∨
      (b.toNat / 2 ^ 52 % 2 ^ 11 = 0 ∧ b.toNat % 2 ^ 52 = 0 ∧ unpack .binary64 b = .zero (signOf b.toNat)) ∨
      (b.toNat / 2 ^ 52 % 2 ^ 11 = 0 ∧
        ∃ h, unpack .binary64 b = .finite (signOf b.toNat) (b.toNat % 2 ^ 52) (-1074) h) ∨
      (0 < b.toNat / 2 ^ 52 % 2 ^ 11 ∧ b.toNat / 2 ^ 52 % 2 ^ 11 < 2047 ∧
        ∃ h, unpack .binary64 b =
          .finite (signOf b.toNat) (2 ^ 52 + b.toNat % 2 ^ 52) ((b.toNat / 2 ^ 52 % 2 ^ 11 : ℕ) - 1075) h) := by
  have hE := toNat_unpackExponent b
  have hM := toNat_unpackMantissa b
  have hE1 : @unpackExponent .binary64 b = -1#11 ↔ b.toNat / 2 ^ 52 % 2 ^ 11 = 2047 := by
    rw [← BitVec.toNat_inj, hE]
    rfl
  have hE0 : @unpackExponent .binary64 b = 0#11 ↔ b.toNat / 2 ^ 52 % 2 ^ 11 = 0 := by
    rw [← BitVec.toNat_inj, hE]
    rfl
  have hM0 : @unpackMantissa .binary64 b = 0#52 ↔ b.toNat % 2 ^ 52 = 0 := by
    rw [← BitVec.toNat_inj, hM]
    rfl
  simp only [unpack, ofBitVec_unpackSign]
  by_cases h1 : b.toNat / 2 ^ 52 % 2 ^ 11 = 2047
  · rw [if_pos (hE1.2 h1)]
    by_cases h2 : b.toNat % 2 ^ 52 = 0
    · exact Or.inl ⟨h1, h2, if_pos (hM0.2 h2)⟩
    · exact Or.inr (Or.inl ⟨h1, h2, if_neg (fun h => h2 (hM0.1 h))⟩)
  rw [if_neg (fun h => h1 (hE1.1 h))]
  by_cases h0 : b.toNat / 2 ^ 52 % 2 ^ 11 = 0
  · rw [if_pos (hE0.2 h0)]
    by_cases h2 : b.toNat % 2 ^ 52 = 0
    · exact Or.inr (Or.inr (Or.inl ⟨h0, h2, dif_pos (hM0.2 h2)⟩))
    · refine Or.inr (Or.inr (Or.inr (Or.inl ⟨h0, Nat.pos_of_ne_zero h2, ?_⟩)))
      rw [dif_neg (fun h => h2 (hM0.1 h))]
      simp only [hM, hE, h0]
      rfl
  · rw [if_neg (fun h => h0 (hE0.1 h))]
    refine Or.inr (Or.inr (Or.inr (Or.inr ⟨by omega, by omega, by omega, ?_⟩)))
    have hmant : (1#1 ++ @unpackMantissa .binary64 b).toNat = 2 ^ 52 + b.toNat % 2 ^ 52 := by
      rw [BitVec.toNat_append, hM, BitVec.toNat_ofNat, ← Nat.shiftLeft_add_eq_or_of_lt (Nat.mod_lt _ (by norm_num))]
      rfl
    simp only [hmant, hE]
    rfl

/-- Words unpack to canonical form, with no exponent beyond the largest. -/
theorem isCanonical_unpack (b : BitVec 64) :
    IsCanonical (unpack .binary64 b) ∧ bounded (unpack .binary64 b) = unpack .binary64 b := by
  rcases unpack_eq b with ⟨-, -, h⟩ | ⟨-, -, h⟩ | ⟨-, -, h⟩ | ⟨-, hp, h⟩ | ⟨h0, h1, hp, h⟩ <;> rw [h]
  · exact ⟨trivial, rfl⟩
  · exact ⟨trivial, rfl⟩
  · exact ⟨trivial, rfl⟩
  · exact ⟨⟨by omega, le_rfl, Or.inr rfl⟩, by rw [bounded, if_pos (by norm_num)]⟩
  · exact ⟨⟨by omega, by omega, Or.inl (by omega)⟩, by rw [bounded, if_pos (by omega)]⟩

end GlobeDrag.Binary64
