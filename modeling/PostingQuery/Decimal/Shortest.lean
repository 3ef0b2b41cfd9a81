/-!
The shortest decimal that reads back as a given binary fraction of single precision. All
arithmetic is on natural numbers, so no step rounds.
-/

namespace PostingQuery.Decimal

/-- A positive binary fraction `mantissa * 2 ^ exponent` with its two neighbours: the next larger one
is `2 ^ exponent` away, the next smaller one as far, or half as far at the foot of a binade. -/
structure Binary where
  mantissa : Nat
  exponent : Int
  footOfBinade : Bool

structure Digits where
  digits : List Char
  point : Int

namespace Binary

/-- Scaled by this, the fraction has a whole value on every decimal grid that is tried: four parts
for the quarter steps, and powers of two and ten for the two negative exponents. -/
def numerator (x : Binary) (grid : Int) : Nat :=
  Nat.pow 2 (x.exponent - 2).toNat * Nat.pow 10 (-grid).toNat

def step (x : Binary) (grid : Int) : Nat :=
  Nat.pow 2 (2 - x.exponent).toNat * Nat.pow 10 grid.toNat

/-- Whether `count` steps of the grid read back as the fraction: they lie between the midpoints to its
two neighbours, and on a midpoint only if the mantissa is even, for a tie goes to the even one. -/
def reads (x : Binary) (grid : Int) (count : Nat) : Bool :=
  let candidate := count * x.step grid
  let low := (4 * x.mantissa - if x.footOfBinade then 1 else 2) * x.numerator grid
  let high := (4 * x.mantissa + 2) * x.numerator grid
  if x.mantissa % 2 = 0 then low ≤ candidate && candidate ≤ high
  else low < candidate && candidate < high

inductive Tie where
  | up
  | even
  deriving DecidableEq

def nearest (x : Binary) (tie : Tie) (grid : Int) : Option Nat :=
  let value := 4 * x.mantissa * x.numerator grid
  let below := value / x.step grid
  let rest := value % x.step grid
  match x.reads grid below, x.reads grid (below + 1) with
  | true, true =>
    if 2 * rest < x.step grid ∨ (2 * rest = x.step grid ∧ tie = .even ∧ below % 2 = 0) then
      some below
    else some (below + 1)
  | true, false => some below
  | false, true => some (below + 1)
  | false, false => none

/-- The place of the decimal point before the first digit. No single is below `10 ^ (-45)`, so the
digits of its whole part after 46 shifts tell the place. -/
def point (x : Binary) : Int :=
  let shifted := 4 * x.mantissa * x.numerator (-46) / x.step (-46)
  (Nat.toDigits 10 shifted).length - 46

/-- Tries grids of more and more digits and takes the first that reads back. Nine digits always do. -/
def search (x : Binary) (tie : Tie) (point : Int) : Nat → Nat → Nat × Int
  | 0, _ => (0, point)
  | tries + 1, digits =>
    match x.nearest tie (point - digits) with
    | some count => (count, point - digits)
    | none => x.search tie point tries (digits + 1)

def shortest (x : Binary) (tie : Tie) : Digits :=
  let (count, grid) := x.search tie x.point 9 1
  let digits := Nat.toDigits 10 count
  ⟨(digits.reverse.dropWhile (· == '0')).reverse, digits.length + grid⟩

end Binary

end PostingQuery.Decimal
