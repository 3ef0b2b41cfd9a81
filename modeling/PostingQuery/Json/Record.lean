import PostingQuery.Json.Number
import PostingQuery.Json.Text
import PostingQuery.Json.Value

/-!
Reading values of a known shape. A record is written as an object, or as an array of its fields in
order.
-/

namespace PostingQuery.Json.Value

def bool? : Value → Option Bool
  | bool value => some value
  | _ => none

def string? : Value → Option String
  | text pieces => Json.string? pieces
  | _ => none

def number? : Value → Option Number
  | number value => value.number?
  | _ => none

def uint64? (value : Value) : Option UInt64 := value.number?.bind Number.uint64?

def int32? (value : Value) : Option Int := value.number?.bind Number.int32?

def single? (value : Value) : Option Float32 := value.number?.map Number.single

def items? : Value → Option (List Value)
  | array items => some items
  | _ => none

/-- The value of a field among named members. A field given twice is refused. -/
def field? (members : List (String × Value)) (name : String) : Option (Option Value) :=
  match members.filter (·.1 == name) with
  | [] => some none
  | [(_, value)] => some (some value)
  | _ => none

/-- The fields of a record, with nothing for those that are not given. Other members of an object are
passed over, and an array may be short but not too long. -/
def record? (names : List String) : Value → Option (List (Option Value))
  | object members => do
    let named ← members.mapM fun (key, value) => (Json.string? key).map (·, value)
    names.mapM (field? named)
  | array items =>
    if items.length ≤ names.length then
      some (items.map some ++ List.replicate (names.length - items.length) none)
    else none
  | _ => none

end PostingQuery.Json.Value
