/-!
# Shortest decimals

A double stands for every real number that rounds to it. `shortest` finds the decimal of fewest digits among these, and of
two decimals with equally few digits the one nearer to the double. All comparisons are of natural numbers.
-/

namespace GlobeDrag.Decimal

/-- A decimal number `significand * 10 ^ exponent`. -/
structure Scaled where
  significand : Nat
  exponent : Int
deriving DecidableEq

namespace Scaled

/-- The decimal digits of the significand. -/
def digits (d : Scaled) : List Char :=
  Nat.toDigits 10 d.significand

/-- The power of ten of the first digit. -/
def magnitude (d : Scaled) : Int :=
  d.exponent + d.digits.length - 1

end Scaled

/-- Which of two decimals to take when both are equally near. -/
inductive Tie where
  /-- The one with an even last digit. -/
  | even
  /-- The larger one. -/
  | up
deriving DecidableEq

/-- The real numbers that round to one positive double, in units of `2 ^ exponent`: from `low` to `high` around `mid`, the
ends included when `closed`. -/
structure Interval where
  low : Nat
  mid : Nat
  high : Nat
  exponent : Int
  closed : Bool

/-- The interval of the double `m * 2 ^ e`, in quarters of its last place. Half a place is on either side, but only a quarter
below a power of two, where the doubles begin to lie closer. Its ends round to an even significand only. -/
def Interval.ofDouble (m : Nat) (e : Int) : Interval where
  low := 4 * m - if m = 0x10000000000000 ∧ -1074 < e then 1 else 2
  mid := 4 * m
  high := 4 * m + 2
  exponent := e - 2
  closed := m % 2 = 0

namespace Interval

/-- The unit of the interval over `10 ^ k`, as a fraction of natural numbers. -/
def scale (i : Interval) (k : Int) : Nat × Nat :=
  (Nat.pow 10 (-k).toNat <<< i.exponent.toNat, Nat.pow 10 k.toNat <<< (-i.exponent).toNat)

/-- Whether `d * 10 ^ k` lies in the interval. -/
def holds (i : Interval) (k : Int) (d : Nat) : Bool :=
  let (p, q) := i.scale k
  if i.closed then i.low * p ≤ d * q && d * q ≤ i.high * p
  else i.low * p < d * q && d * q < i.high * p

/-- The multiple of `10 ^ k` in the interval that is nearest to its middle, if there is one. If any multiple lies in the
interval, then one of the two neighbours of the middle does. -/
def nearest? (i : Interval) (tie : Tie) (k : Int) : Option Nat :=
  let (p, q) := i.scale k
  let d := i.mid * p / q
  match i.holds k d, i.holds k (d + 1) with
  | true, true =>
    match compare (i.mid * p - d * q) ((d + 1) * q - i.mid * p), tie with
    | .lt, _ => some d
    | .gt, _ => some (d + 1)
    | .eq, .even => some (if d % 2 = 0 then d else d + 1)
    | .eq, .up => some (d + 1)
  | true, false => some d
  | false, true => some (d + 1)
  | false, false => none

/-- A power of ten at or above every number of the interval: the middle is below `2 ^ b`, and `log 2 / log 10` lies between
30 and 31 hundredths. -/
def coarsest (i : Interval) : Int :=
  let b := i.mid.log2 + 1 + i.exponent
  if 0 ≤ b then b * 31 / 100 + 1 else b * 30 / 100 + 1

end Interval

/-- The shortest decimal of the positive double `m * 2 ^ e`: the first multiple of a power of ten in its interval, from
coarse powers to fine ones. Seventeen digits are always enough, so the search finds one. -/
def shortest (tie : Tie) (m : Nat) (e : Int) : Scaled :=
  let i := Interval.ofDouble m e
  let found := (List.range 64).findSome? fun (n : Nat) =>
    let k := i.coarsest - n
    (i.nearest? tie k).map (⟨·, k⟩)
  found.getD ⟨0, 0⟩

end GlobeDrag.Decimal
