import PostingQuery.Decimal.Shortest

/-!
How the digits of a number are laid out as text. Each place that writes numbers has one `Layout`.
-/

namespace PostingQuery.Decimal

structure Layout where
  tie : Binary.Tie
  /-- The least and the greatest place of the point that are written without an exponent. Every place
  is when this is absent. -/
  positional : Option (Int × Int)
  keepsFraction : Bool
  marksPlus : Bool

inductive Parts where
  | notANumber
  | infinite (negative : Bool)
  | zero (negative : Bool)
  | positive (negative : Bool) (magnitude : Binary)

namespace Digits

def positional (d : Digits) (keepsFraction : Bool) : List Char :=
  let shift := d.point.toNat
  if d.point ≤ 0 then '0' :: '.' :: (List.replicate (-d.point).toNat '0' ++ d.digits)
  else if d.digits.length ≤ shift then
    d.digits ++ List.replicate (shift - d.digits.length) '0' ++
      (if keepsFraction then ['.', '0'] else [])
  else d.digits.take shift ++ '.' :: d.digits.drop shift

def scientific (d : Digits) (marksPlus : Bool) : List Char :=
  let exponent := d.point - 1
  let mark := if marksPlus && 0 ≤ exponent then ['e', '+'] else ['e']
  let digits := match d.digits with
    | first :: next :: rest => first :: '.' :: next :: rest
    | digits => digits
  digits ++ mark ++ (toString exponent).toList

def write (d : Digits) (layout : Layout) : List Char :=
  match layout.positional with
  | none => d.positional layout.keepsFraction
  | some (least, greatest) =>
    if least ≤ d.point ∧ d.point ≤ greatest then d.positional layout.keepsFraction
    else d.scientific layout.marksPlus

end Digits

namespace Parts

def signed (negative : Bool) (text : List Char) : String :=
  String.ofList (if negative then '-' :: text else text)

def write (layout : Layout) : Parts → String
  | notANumber => "NaN"
  | infinite negative => signed negative ['i', 'n', 'f']
  | zero negative => signed negative (if layout.keepsFraction then ['0', '.', '0'] else ['0'])
  | positive negative magnitude => signed negative ((magnitude.shortest layout.tie).write layout)

end Parts

end PostingQuery.Decimal
