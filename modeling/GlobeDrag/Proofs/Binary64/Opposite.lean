import GlobeDrag.Proofs.Binary64.Whole

/-!
# Opposite operands

Multiplying, dividing and rounding to a whole number work on the sign apart from the rest, so opposite operands give opposite results: also
where the result is a zero, an infinity or no number at all.

Main statements: `neg_mul_double`, `neg_div_double` and `round_neg`.
-/

namespace GlobeDrag.Binary64

open Float.Model (Format UnpackedFloat)
open Float.Model.UnpackedFloat

/-! ## Unpacked operands -/

/-- The sign of a product changes with that of the first factor. -/
theorem neg_mul_sign (s t : Sign) : -s * t = -(s * t) := by
  cases s <;> cases t <;> rfl

/-- So does that of a quotient with that of the dividend. -/
theorem neg_div_sign (s t : Sign) : -s / t = -(s / t) := by
  cases s <;> cases t <;> rfl

/-- The model rounds a mantissa apart from its sign. -/
theorem roundWithAccuracy_neg (s : Sign) (m : ℕ) (e : ℤ) (a : Accuracy) :
    roundWithAccuracy .binary64 (-s) m e a = (roundWithAccuracy .binary64 s m e a).neg := by
  simp only [roundWithAccuracy]
  split <;> rfl

variable {u v : UnpackedFloat}

/-- The opposite factor gives the opposite product in the model. -/
theorem mul_neg_unpacked (u v : UnpackedFloat) : mul .binary64 u.neg v = (mul .binary64 u v).neg := by
  cases u <;> cases v <;> simp only [mul, neg, neg_mul_sign, roundWithAccuracy_neg]

/-- The opposite dividend gives the opposite quotient in the model. -/
theorem div_neg_unpacked (u v : UnpackedFloat) : div .binary64 u.neg v = (div .binary64 u v).neg := by
  cases u <;> cases v <;> simp only [div, neg, neg_div_sign, roundWithAccuracy_neg]

/-- Results are in canonical form. -/
theorem isCanonical_mul (hu : IsCanonical u) (hv : IsCanonical v) : IsCanonical (mul .binary64 u v) := by
  cases u with
  | finite s m e hm =>
    cases v with
    | finite s' m' e' hm' => exact (isRounding_mul hu hv rfl rfl).canonical
    | _ => trivial
  | _ => cases v <;> trivial

/-- A quotient of the model is canonical. -/
theorem isCanonical_div (u v : UnpackedFloat) : IsCanonical (div .binary64 u v) := by
  cases u with
  | finite s m e hm =>
    cases v with
    | finite s' m' e' hm' =>
      have nonzero : rational (.finite s' m' e' hm') ≠ 0 := by
        rw [rational, ← abs_ne_zero, abs_signed, abs_ne_zero]
        exact (mantissa_mul_pos hm' e').ne'
      exact (isRounding_div rfl rfl nonzero).canonical
    | _ => trivial
  | _ => cases v <;> trivial

/-! ## Doubles -/

/-- What is too large for a double is packed as infinity. -/
theorem pack_of_large {m : ℕ} {e : ℤ} (hm : 0 < m) (h : 971 < e) (s : Sign) :
    pack .binary64 (.finite s m e hm) = pack .binary64 (.infinity s) := by
  have exponent : (e + Format.binary64.exponentBias + (52 : ℕ)).toNat = (e + 1075).toNat := by
    simp only [Format.exponentBias]
    omega
  simp only [pack, exponent]
  rw [if_pos (by omega)]

/-- The opposite of a result is packed from the opposite of what the result is packed from. -/
theorem neg_ofModel_pack (h : IsCanonical u) : -Float.ofModel (.pack u) = .ofModel (.pack u.neg) := by
  have packed : (Float.ofModel (.pack u)).toModel.unpack = bounded u := unpack_pack h
  change Float.ofModel (.pack (Float.ofModel (.pack u)).toModel.unpack.neg) = _
  rw [packed]
  cases u with
  | finite s m e hm =>
    rw [bounded]
    split
    · rfl
    · next large =>
      simp only [neg, Float.Model.pack, pack_of_large hm (not_le.1 large)]
  | _ => rfl

/-- The opposite factor gives the opposite product, bit for bit. -/
theorem neg_mul_double (x c : Float) : -x * c = -(x * c) := by
  have packed (y : Float) : y * c = .ofModel (.pack (mul .binary64 y.toModel.unpack c.toModel.unpack)) := rfl
  rw [packed, packed, toModel_neg, mul_neg_unpacked, neg_ofModel_pack (isCanonical_mul (isCanonical_toModel x) (isCanonical_toModel c))]

/-- The opposite dividend gives the opposite quotient, bit for bit. -/
theorem neg_div_double (x c : Float) : -x / c = -(x / c) := by
  have packed (y : Float) : y / c = .ofModel (.pack (div .binary64 y.toModel.unpack c.toModel.unpack)) := rfl
  rw [packed, packed, toModel_neg, div_neg_unpacked, neg_ofModel_pack (isCanonical_div _ _)]

/-- The opposite sign gives the opposite double. -/
theorem ofDyadic_neg (s : Sign) (m : ℕ) (e : ℤ) : ofDyadic (-s) m e = -ofDyadic s m e := by
  rw [ofDyadic, ofDyadic, neg_ofModel_pack (isRounding_round s m e).canonical, UnpackedFloat.round, UnpackedFloat.round]
  exact congrArg (fun u => Float.ofModel (.pack u)) (roundWithAccuracy_neg s _ _ _)

/-- The opposite double is rounded to the opposite whole number. -/
theorem round_neg (x : Float) : round (-x) = -round x := by
  rw [round, round, toModel_neg]
  cases x.toModel.unpack with
  | finite s m e hm =>
    simp only [neg]
    split
    · rfl
    · exact ofDyadic_neg _ _ _
  | _ => rfl

end GlobeDrag.Binary64
