import PostingQuery.Json.Token

/-!
The numbers that JSON texts stand for. Whole numbers of 64 bits are exact. All others are reckoned in
double precision from a significand of 64 bits and a power of ten: digits that the significand has no
room for are dropped, and the power is applied by one multiplication or division.
-/

namespace PostingQuery.Json

inductive Number where
  | natural (value : UInt64)
  | negative (value : Int64)
  | fraction (value : Float)

namespace NumberText

def largestSignificand : Nat := 18446744073709551615

def absorb (largest : Nat) : Nat → List Nat → Nat × Nat
  | significand, [] => (significand, 0)
  | significand, d :: rest =>
    if largest < 10 * significand + d then (significand, 0)
    else
      let (significand, appended) := absorb largest (10 * significand + d) rest
      (significand, appended + 1)

def power (exponent : Nat) : Float := Float.ofScientific 1 false exponent

/-- Divides by a power of ten. Powers beyond the range of double precision are applied in parts. -/
def divide (x : Float) (exponent : Nat) : Float :=
  if exponent ≤ 308 then x / power exponent
  else if x == 0 then x
  else divide (x / power 308) (exponent - 308)
termination_by exponent

def scale? (significand : Nat) (exponent : Int) : Option Float :=
  let x := significand.toUInt64.toFloat
  if exponent < 0 then some (divide x exponent.natAbs)
  else if 308 < exponent then if significand = 0 then some x else none
  else
    let product := x * power exponent.toNat
    if product.isInf then none else some product

def largestExponent : Nat := 2147483647

def magnitude? (significand : Nat) (power : Int) : Option (Bool × List Nat) → Option Float
  | none => scale? significand power
  | some (down, digits) =>
    let (exponent, read) := absorb largestExponent 0 digits
    if read < digits.length then if significand = 0 ∨ down then some 0 else none
    else scale? significand (if down then power - exponent else power + exponent)

/-- The number that a text stands for, unless it is out of range. Zero with a minus sign is no whole
number. -/
def number? (n : NumberText) : Option Number :=
  let (significand, read) := absorb largestSignificand 0 n.whole
  let dropped := n.whole.length - read
  if n.fraction.isEmpty ∧ n.exponent.isNone ∧ dropped = 0 ∧
      (!n.negative ∨ (0 < significand ∧ significand ≤ 9223372036854775808)) then
    if n.negative then some (.negative (-(significand : Int)).toInt64)
    else some (.natural significand.toUInt64)
  else
    let (significand, places) := absorb largestSignificand significand n.fraction
    (magnitude? significand (dropped - places) n.exponent).map fun x =>
      .fraction (if n.negative then -x else x)

end NumberText

namespace Number

def uint64? : Number → Option UInt64
  | natural value => some value
  | _ => none

def int32? (n : Number) : Option Int :=
  let inRange (value : Int) : Option Int :=
    if -2147483648 ≤ value ∧ value ≤ 2147483647 then some value else none
  match n with
  | natural value => inRange value.toNat
  | negative value => inRange value.toInt
  | fraction _ => none

def single : Number → Float32
  | natural value => value.toFloat32
  | negative value => value.toFloat32
  | fraction value => value.toFloat32

end Number

end PostingQuery.Json
