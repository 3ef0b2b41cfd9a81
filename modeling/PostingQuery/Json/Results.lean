import PostingQuery.Collect.Collector
import PostingQuery.Explanation
import PostingQuery.Json.Record
import PostingQuery.Score.SinglePrecision

/-!
Explanations and hits as JSON text.
-/

namespace PostingQuery

open Json

/-- A score as a JSON number. What is no finite number is null. -/
def scoreJson (score : Float32) : String :=
  if score.isFinite then (SinglePrecision.parts score).write SinglePrecision.inData else "null"

namespace Explanation

def fieldNames : List String := ["value", "description", "matched", "details"]

def ofJson? : Nat → Value → Option (Explanation Float32)
  | 0, _ => none
  | levels + 1, value => do
    match ← value.record? fieldNames with
    | [some value, some description, some matched, some details] =>
      let value ← value.single?
      let description ← description.string?
      let matched ← matched.bool?
      let details ← details.items?
      let details ← details.mapM (ofJson? levels)
      return ⟨value, description, matched, details⟩
    | _ => none

/-- How deep explanations may be nested in JSON text. Each level nests an object and an array, and 127
of these are the limit. -/
def deepest : Nat := 63

def parse (text : String) : Except Failure (Explanation Float32) :=
  match (Value.parse? text).bind (ofJson? deepest) with
  | some explanation => .ok explanation
  | none => .error .json

mutual

def json : Explanation Float32 → String
  | ⟨value, description, matched, details⟩ =>
    "\x7b\"value\":" ++ scoreJson value ++ ",\"description\":" ++ quote description ++
      ",\"matched\":" ++ (if matched then "true" else "false") ++
      ",\"details\":[" ++ detailsJson details ++ "]\x7d"

def detailsJson : List (Explanation Float32) → String
  | [] => ""
  | [detail] => json detail
  | detail :: rest => json detail ++ "," ++ detailsJson rest

end

end Explanation

namespace Hit

def fieldNames : List String := ["doc_id", "score"]

def parse (text : String) : Except Failure (Hit Float32) :=
  let hit? : Option (Hit Float32) := do
    match ← (← Value.parse? text).record? fieldNames with
    | [some doc, some score] => return ⟨← doc.int32?, ← score.single?⟩
    | _ => none
  match hit? with
  | some hit => .ok hit
  | none => .error .json

def json (hit : Hit Float32) : String :=
  let doc := toString hit.doc
  "\x7b\"doc_id\":" ++ doc ++ ",\"score\":" ++ scoreJson hit.score ++ "\x7d"

end Hit

end PostingQuery
