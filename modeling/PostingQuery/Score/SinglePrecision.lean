import PostingQuery.Decimal.Layout
import PostingQuery.Score.Basic

/-!
Scores of single precision, summed in double precision.
-/

namespace PostingQuery.SinglePrecision

open Decimal

/-- The sign, the exponent field and the fraction field of the bit pattern, taken apart. A subnormal
number has exponent field zero and no hidden bit. -/
def parts (x : Float32) : Parts :=
  let bits := x.toBits.toNat
  let negative := decide (2147483648 ≤ bits)
  let field := bits / 8388608 % 256
  let fraction := bits % 8388608
  if field = 255 then if fraction = 0 then .infinite negative else .notANumber
  else if field = 0 then
    if fraction = 0 then .zero negative else .positive negative ⟨fraction, -149, false⟩
  else .positive negative ⟨8388608 + fraction, field - 150, fraction = 0 && 1 < field⟩

def inText : Layout := ⟨.up, none, false, false⟩

def inInspection : Layout := ⟨.up, some (-3, 16), true, false⟩

def inData : Layout := ⟨.even, some (-5, 13), true, true⟩

/-- A whole number rounded once. Rounding is the same on both sides of zero. -/
def ofInt (n : Int) : Float32 :=
  let magnitude := n.natAbs.toUInt64.toFloat32
  if n < 0 then -magnitude else magnitude

/-- The larger of two scores. A score that is no number is passed over, and of equal ones the first
stays. -/
def larger (x y : Float32) : Float32 :=
  if x.isNaN then y else if x < y then y else x

/-- Sums run in double precision and are rounded to single precision at the end. -/
instance : Score Float32 where
  Total := Float
  zero := 0
  one := 1
  ofInt := ofInt
  ofNat n := n.toUInt64.toFloat32
  nothing := 0
  widen := Float32.toFloat
  accumulate total score := total + score.toFloat
  round total := total.toFloat32
  scaled total factor := (total * factor.toFloat).toFloat32
  largest scores := scores.foldl larger (-1 / 0)
  isOne x := x == 1
  isPositive x := 0 < x
  text x := (parts x).write inText
  inspected x := (parts x).write inInspection

end PostingQuery.SinglePrecision
