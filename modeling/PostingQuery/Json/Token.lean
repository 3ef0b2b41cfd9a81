/-!
The tokens of JSON text. A scan reads the text character by character; what it has read of an
unfinished token is its mode.
-/

namespace PostingQuery.Json

structure NumberText where
  negative : Bool := false
  whole : List Nat := []
  fraction : List Nat := []
  /-- The digits after the exponent mark, and whether a minus sign stands before them. -/
  exponent : Option (Bool × List Nat) := none
  deriving DecidableEq

inductive Piece where
  | char (c : Char)
  | unit (code : Nat)
  deriving DecidableEq

inductive Token where
  | openArray
  | closeArray
  | openObject
  | closeObject
  | comma
  | colon
  | null
  | bool (value : Bool)
  | number (value : NumberText)
  | text (pieces : List Piece)
  deriving DecidableEq

inductive NumberPart where
  | sign
  | zero
  | whole
  | point
  | fraction
  | mark
  | markSign
  | exponent
  deriving DecidableEq

/-- What a scan is in the middle of. Digits, letters and pieces are held with the last one first. -/
inductive Mode where
  | between
  | word (letters : List Char)
  | number (part : NumberPart) (value : NumberText)
  | text (pieces : List Piece)
  | escape (pieces : List Piece)
  | unit (pieces : List Piece) (digitsLeft code : Nat)
  deriving DecidableEq

def digit? (c : Char) : Option Nat := if '0' ≤ c ∧ c ≤ '9' then some (c.toNat - 48) else none

def hexDigit? (c : Char) : Option Nat :=
  if '0' ≤ c ∧ c ≤ '9' then some (c.toNat - 48)
  else if 'a' ≤ c ∧ c ≤ 'f' then some (c.toNat - 87)
  else if 'A' ≤ c ∧ c ≤ 'F' then some (c.toNat - 55)
  else none

def isBlank (c : Char) : Bool := c == ' ' || c == '\n' || c == '\t' || c == '\r'

def shortEscape? (c : Char) : Option Char :=
  match c with
  | '"' => some '"'
  | '\\' => some '\\'
  | '/' => some '/'
  | 'b' => some '\x08'
  | 'f' => some '\x0c'
  | 'n' => some '\n'
  | 'r' => some '\r'
  | 't' => some '\t'
  | _ => none

namespace NumberText

def inOrder (n : NumberText) : NumberText :=
  ⟨n.negative, n.whole.reverse, n.fraction.reverse, n.exponent.map fun (sign, e) => (sign, e.reverse)⟩

def pushExponent (n : NumberText) (d : Nat) : NumberText :=
  match n.exponent with
  | some (sign, digits) => { n with exponent := some (sign, d :: digits) }
  | none => { n with exponent := some (false, [d]) }

end NumberText

namespace NumberPart

def isComplete : NumberPart → Bool
  | zero | whole | fraction | exponent => true
  | sign | point | mark | markSign => false

def step? (part : NumberPart) (n : NumberText) (c : Char) : Option (NumberPart × NumberText) :=
  match part, digit? c with
  | sign, some 0 => some (zero, { n with whole := [0] })
  | sign, some d | whole, some d => some (whole, { n with whole := d :: n.whole })
  | point, some d | fraction, some d => some (fraction, { n with fraction := d :: n.fraction })
  | mark, some d | markSign, some d | exponent, some d => some (exponent, n.pushExponent d)
  | mark, none =>
    if c = '+' then some (markSign, { n with exponent := some (false, []) })
    else if c = '-' then some (markSign, { n with exponent := some (true, []) })
    else none
  | zero, none | whole, none =>
    if c = '.' then some (point, n) else if c = 'e' ∨ c = 'E' then some (mark, n) else none
  | fraction, none => if c = 'e' ∨ c = 'E' then some (mark, n) else none
  | _, _ => none

end NumberPart

structure Scan where
  mode : Mode := .between
  tokens : List Token := []
  deriving DecidableEq

namespace Scan

def word? (letters : List Char) : Option Token :=
  if letters = ['l', 'l', 'u', 'n'] then some .null
  else if letters = ['e', 'u', 'r', 't'] then some (.bool true)
  else if letters = ['e', 's', 'l', 'a', 'f'] then some (.bool false)
  else none

def push (scan : Scan) (token : Token) : Scan := ⟨.between, token :: scan.tokens⟩

def begin? (scan : Scan) (c : Char) : Option Scan :=
  match c with
  | '[' => some (scan.push .openArray)
  | ']' => some (scan.push .closeArray)
  | '{' => some (scan.push .openObject)
  | '}' => some (scan.push .closeObject)
  | ',' => some (scan.push .comma)
  | ':' => some (scan.push .colon)
  | '"' => some { scan with mode := .text [] }
  | '-' => some { scan with mode := .number .sign { negative := true } }
  | c =>
    match digit? c with
    | some 0 => some { scan with mode := .number .zero { whole := [0] } }
    | some d => some { scan with mode := .number .whole { whole := [d] } }
    | none =>
      if 'a' ≤ c ∧ c ≤ 'z' then some { scan with mode := .word [c] }
      else if isBlank c then some { scan with mode := .between }
      else none

/-- Ends a word or a number, which the text does not mark itself. -/
def settle? (scan : Scan) : Option Scan :=
  match scan.mode with
  | .between => some scan
  | .word letters => (word? letters).map scan.push
  | .number part n => if part.isComplete then some (scan.push (.number n.inOrder)) else none
  | .text _ | .escape _ | .unit .. => none

def step? (scan : Scan) (c : Char) : Option Scan :=
  match scan.mode with
  | .between => scan.begin? c
  | .word letters =>
    if 'a' ≤ c ∧ c ≤ 'z' then some { scan with mode := .word (c :: letters) }
    else scan.settle?.bind (·.begin? c)
  | .number part n =>
    match part.step? n c with
    | some (part, n) => some { scan with mode := .number part n }
    | none => scan.settle?.bind (·.begin? c)
  | .text pieces =>
    if c = '"' then some (scan.push (.text pieces.reverse))
    else if c = '\\' then some { scan with mode := .escape pieces }
    else if c < ' ' then none
    else some { scan with mode := .text (.char c :: pieces) }
  | .escape pieces =>
    if c = 'u' then some { scan with mode := .unit pieces 3 0 }
    else (shortEscape? c).map fun c => { scan with mode := .text (.char c :: pieces) }
  | .unit pieces digitsLeft code =>
    (hexDigit? c).map fun d =>
      match digitsLeft with
      | 0 => { scan with mode := .text (.unit (16 * code + d) :: pieces) }
      | left + 1 => { scan with mode := .unit pieces left (16 * code + d) }

end Scan

def tokens? (text : List Char) : Option (List Token) := do
  let scan ← text.foldlM Scan.step? {}
  let scan ← scan.settle?
  return scan.tokens.reverse

end PostingQuery.Json
