import PostingQuery.Json.Token

/-!
JSON values. A value is built from its tokens one by one. The arrays and objects that are still open
wait on a stack, so nesting may be as deep as the text makes it.
-/

namespace PostingQuery.Json

inductive Value where
  | null
  | bool (value : Bool)
  | number (value : NumberText)
  | text (pieces : List Piece)
  | array (items : List Value)
  | object (members : List (List Piece × Value))

/-- An open array or object with what it holds so far, the last item first. An object is held open by
the member whose key was read last. -/
inductive Frame where
  | array (items : List Value)
  | object (members : List (List Piece × Value)) (key : List Piece)

inductive Expected where
  | value
  /-- A value, or the end of an empty array. -/
  | firstItem
  | key (members : List (List Piece × Value))
  /-- A key, or the end of an empty object. -/
  | firstKey
  | colon (members : List (List Piece × Value)) (key : List Piece)
  /-- A comma, or the end of the innermost frame. -/
  | separator
  | nothing (value : Value)

structure Builder where
  frames : List Frame := []
  expected : Expected := .value

namespace Builder

def complete (frames : List Frame) (value : Value) : Builder :=
  match frames with
  | [] => ⟨[], .nothing value⟩
  | .array items :: outer => ⟨.array (value :: items) :: outer, .separator⟩
  | .object members key :: outer => ⟨.object ((key, value) :: members) key :: outer, .separator⟩

def beginValue? (frames : List Frame) : Token → Option Builder
  | .null => some (complete frames .null)
  | .bool value => some (complete frames (.bool value))
  | .number value => some (complete frames (.number value))
  | .text pieces => some (complete frames (.text pieces))
  | .openArray => some ⟨.array [] :: frames, .firstItem⟩
  | .openObject => some ⟨frames, .firstKey⟩
  | .closeArray | .closeObject | .comma | .colon => none

def step? (builder : Builder) (token : Token) : Option Builder :=
  match builder.expected, builder.frames, token with
  | .value, frames, token => beginValue? frames token
  | .firstItem, .array _ :: outer, .closeArray => some (complete outer (.array []))
  | .firstItem, frames, token => beginValue? frames token
  | .firstKey, frames, .closeObject => some (complete frames (.object []))
  | .firstKey, frames, .text key => some ⟨frames, .colon [] key⟩
  | .key members, frames, .text key => some ⟨frames, .colon members key⟩
  | .colon members key, frames, .colon => some ⟨.object members key :: frames, .value⟩
  | .separator, .array items :: outer, .comma => some ⟨.array items :: outer, .value⟩
  | .separator, .array items :: outer, .closeArray => some (complete outer (.array items.reverse))
  | .separator, .object members _ :: outer, .comma => some ⟨outer, .key members⟩
  | .separator, .object members _ :: outer, .closeObject =>
    some (complete outer (.object members.reverse))
  | _, _, _ => none

def value? (builder : Builder) : Option Value :=
  match builder.expected with
  | .nothing value => some value
  | _ => none

end Builder

namespace Value

def ofTokens? (tokens : List Token) : Option Value := do
  let builder ← tokens.foldlM Builder.step? {}
  builder.value?

def parse? (text : String) : Option Value := do
  let tokens ← tokens? text.toList
  ofTokens? tokens

end Value

end PostingQuery.Json
