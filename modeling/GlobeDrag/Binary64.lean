/-!
# Double-precision numbers, exactly

The words of finite doubles, the next larger double, the two operations on doubles that are computed on their exact values, which
are the remainder of a division and rounding to a whole number, and powers.

Main statements: `toBits_ofWord` (a word that is not the code of a NaN is kept) and `headroom_successor?` (a step to the
next double uses up exactly one of the doubles above, so that climbing ends).
-/

namespace GlobeDrag.Binary64

open Float.Model (Format UnpackedFloat)
open Float.Model.UnpackedFloat (Sign)

/-! ## Words -/

/-- The word of positive infinity. A word whose lower 63 bits lie above it codes a NaN. -/
def infinityWord : Nat := 0x7ff0000000000000

/-- The word of negative zero: the sign bit alone. -/
def signWord : Nat := 0x8000000000000000

/-- A word whose lower 63 bits do not exceed those of infinity is a valid code. -/
theorem valid_of_le_infinityWord (w : UInt64) (h : w.toNat % signWord ≤ infinityWord) :
    Format.binary64.Valid w.toBitVec := by
  refine ⟨fun he hm => ?_⟩
  exfalso
  have he' := congrArg BitVec.toNat he
  have hm' : (@UnpackedFloat.unpackMantissa .binary64 w.toBitVec).toNat ≠ 0 := by
    intro h0
    exact hm (BitVec.eq_of_toNat_eq (by simpa using h0))
  have hw : w.toBitVec.toNat = w.toNat := rfl
  simp only [UnpackedFloat.unpackExponent, UnpackedFloat.unpackMantissa, BitVec.toNat_cast, BitVec.extractLsb_toNat,
    hw, BitVec.neg_one_eq_allOnes, BitVec.toNat_allOnes] at he' hm'
  simp only [signWord, infinityWord] at h
  simp [Nat.shiftRight_eq_div_pow] at he' hm'
  omega

/-- The double with the given word. -/
def ofWord (w : UInt64) (h : w.toNat % signWord ≤ infinityWord) : Float :=
  .ofModel ⟨w, valid_of_le_infinityWord w h⟩

/-- The word of the double that a word codes. -/
theorem toBits_ofWord (w : UInt64) (h : w.toNat % signWord ≤ infinityWord) : (ofWord w h).toBits = w := rfl

/-! ## The next double -/

/-- The smallest double above `x`; positive infinity and a NaN have none. Both zeros are followed by the smallest positive
double. -/
def successor? (x : Float) : Option Float :=
  let w := x.toBits
  if w.toNat % signWord = 0 then
    some (ofWord 1 (by decide))
  else if h : w.toNat < infinityWord then
    some (ofWord (w + 1) (by
      rw [UInt64.toNat_add]
      simp only [signWord, infinityWord] at h ⊢
      have : (1 : UInt64).toNat = 1 := rfl
      omega))
  else if h : signWord < w.toNat ∧ w.toNat ≤ signWord + infinityWord then
    some (ofWord (w - 1) (by
      have h1 : (1 : UInt64) ≤ w := by
        rw [UInt64.le_iff_toNat_le]
        have : (1 : UInt64).toNat = 1 := rfl
        omega
      rw [UInt64.toNat_sub_of_le _ _ h1]
      simp only [signWord, infinityWord] at h ⊢
      have : (1 : UInt64).toNat = 1 := rfl
      omega))
  else
    none

/-- How many steps to the next double lead from the word `w` to that of positive infinity; none from the code of a NaN. -/
def stepsToInfinity (w : Nat) : Nat :=
  if w ≤ infinityWord then infinityWord - w
  else if signWord ≤ w ∧ w ≤ signWord + infinityWord then infinityWord + (w - signWord)
  else 0

/-- From a double that is not negative, every word up to that of infinity is one step. -/
theorem stepsToInfinity_of_le {w : Nat} (h : w ≤ infinityWord) : stepsToInfinity w = infinityWord - w := if_pos h

/-- From a negative double, the steps lead down to zero first. -/
theorem stepsToInfinity_of_negative {w : Nat} (h : signWord ≤ w) (h' : w ≤ signWord + infinityWord) :
    stepsToInfinity w = infinityWord + (w - signWord) := by
  rw [stepsToInfinity, if_neg, if_pos ⟨h, h'⟩]
  simp only [infinityWord, signWord] at *
  omega

/-- How many doubles lie above `x`, positive infinity among them. -/
def headroom (x : Float) : Nat :=
  stepsToInfinity x.toBits.toNat

/-- The headroom of a double is that of its word. -/
theorem headroom_ofWord (w : UInt64) (h : w.toNat % signWord ≤ infinityWord) :
    headroom (ofWord w h) = stepsToInfinity w.toNat := rfl

/-- A step to the next double uses up one double of the headroom. -/
theorem headroom_successor? {x y : Float} (h : successor? x = some y) : headroom x = headroom y + 1 := by
  have one : (1 : UInt64).toNat = 1 := rfl
  have bound := x.toBits.toNat_lt
  have top : infinityWord = 0x7ff0000000000000 := rfl
  have half : signWord = 0x8000000000000000 := rfl
  unfold successor? at h
  simp only at h
  split at h
  · next h0 =>
    cases h
    rw [half] at h0
    rw [headroom_ofWord, one, stepsToInfinity_of_le (by decide), headroom]
    rcases Nat.lt_or_ge x.toBits.toNat signWord with hw | hw
    · rw [stepsToInfinity_of_le (by omega)]
      omega
    · rw [stepsToInfinity_of_negative hw (by omega)]
      omega
  · next h0 =>
    split at h
    · next h1 =>
      cases h
      have hs : (x.toBits + 1).toNat = x.toBits.toNat + 1 := by
        rw [UInt64.toNat_add, one]
        omega
      rw [headroom_ofWord, hs, headroom, stepsToInfinity_of_le (by omega), stepsToInfinity_of_le (by omega)]
      omega
    · next h1 =>
      split at h
      · next h2 =>
        cases h
        have hle : (1 : UInt64) ≤ x.toBits := by
          rw [UInt64.le_iff_toNat_le, one]
          omega
        rw [headroom_ofWord, UInt64.toNat_sub_of_le _ _ hle, one, headroom,
          stepsToInfinity_of_negative (by omega) (by omega), stepsToInfinity_of_negative (by omega) (by omega)]
        omega
      · cases h

/-! ## Exact operations -/

/-- The double nearest to `± m * 2 ^ e`, a tie going to the even significand. -/
def ofDyadic (s : Sign) (m : Nat) (e : Int) : Float :=
  .ofModel (.pack (.round .binary64 s m e))

/-- The remainder of `a` by `b` with the sign of `a`, without rounding: the exact remainder is a double. -/
def remainder (a b : Float) : Float :=
  match a.toModel.unpack, b.toModel.unpack with
  | .finite s m e _, .finite _ n f _ =>
    let g := min e f
    ofDyadic s ((m <<< (e - g).toNat) % (n <<< (f - g).toNat)) g
  | .zero _, .finite .. => a
  | .zero _, .infinity _ => a
  | .finite .., .infinity _ => a
  | _, _ => 0 / 0

/-- The remainder of `a` by a positive `b` that is not negative: one `b` is added to a negative remainder. -/
def modulo (a b : Float) : Float :=
  let r := remainder a b
  if r < 0 then r + b else r

/-- The nearest whole number, a half going away from zero. The sign is kept, also on a zero. -/
def round (x : Float) : Float :=
  match x.toModel.unpack with
  | .finite s m e _ =>
    if 0 ≤ e then x
    else
      let k := (-e).toNat
      ofDyadic s ((2 * m + 1 <<< k) >>> (k + 1)) 0
  | _ => x

/-! ## Powers -/

/-- A product times a power, rounded at each multiplication. The base is squared from one binary digit of the exponent to the next, and
multiplied in where the digit is one. -/
def timesPower (product base : Float) (n : Nat) : Float :=
  let product := if n % 2 = 1 then product * base else product
  if n / 2 = 0 then product else timesPower product (base * base) (n / 2)
termination_by n

end GlobeDrag.Binary64
