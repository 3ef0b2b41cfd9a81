import PostingQuery.Json.Package
import PostingQuery.Json.Record
import PostingQuery.Settings.Basic

/-!
The settings as JSON text.
-/

namespace PostingQuery.Settings

def fieldNames : List String :=
  ["bucket_table_size", "phrase_chunk_size", "phrase_advance_ratio", "phrase_max_next_calls",
    "coord_disabled"]

/-- A given field must have the right shape; one that is not given has its standard value. -/
def given? {α : Type} (read? : Json.Value → Option α) (standard : α) : Option Json.Value → Option α
  | some value => read? value
  | none => some standard

def ofJson? (value : Json.Value) : Option Settings := do
  match ← value.record? fieldNames with
  | [table, chunk, ratio, calls, disabled] =>
    let bucketTableSize ← given? Json.Value.uint64? standard.bucketTableSize table
    let phraseChunkSize ← given? Json.Value.uint64? standard.phraseChunkSize chunk
    let phraseAdvanceRatio ← given? Json.Value.uint64? standard.phraseAdvanceRatio ratio
    let phraseMaxNextCalls ← given? Json.Value.uint64? standard.phraseMaxNextCalls calls
    let coordDisabled ← given? Json.Value.bool? standard.coordDisabled disabled
    return {
      bucketTableSize, phraseChunkSize, phraseAdvanceRatio, phraseMaxNextCalls, coordDisabled }
  | _ => none

def parseBy (package : Json.Package) (text : String) : Except Failure Settings :=
  match (package.read text).bind ofJson? with
  | none => .error .json
  | some settings =>
    match settings.validate with
    | .ok () => .ok settings
    | .error failure => .error failure

def fields (settings : Settings) : List (String × Json.Scalar) :=
  fieldNames.zip [
    .natural settings.bucketTableSize, .natural settings.phraseChunkSize, .natural settings.phraseAdvanceRatio,
    .natural settings.phraseMaxNextCalls, .bool settings.coordDisabled]

def renderBy (package : Json.Package) (settings : Settings) : String := package.write settings.fields

def parse : String → Except Failure Settings := parseBy .builtIn

def render : Settings → String := renderBy .builtIn

end PostingQuery.Settings
