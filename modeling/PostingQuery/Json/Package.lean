import PostingQuery.Json.Text
import PostingQuery.Json.Value

/-!
Packages for JSON. A package reads texts as values and writes flat objects as texts.
-/

namespace PostingQuery.Json

inductive Scalar where
  | natural (value : UInt64)
  | bool (value : Bool)

def Scalar.text : Scalar → String
  | natural value => toString value
  | bool value => if value then "true" else "false"

structure Package where
  read : String → Option Value
  write : List (String × Scalar) → String

def line (field : String × Scalar) : String := "  " ++ quote field.1 ++ ": " ++ field.2.text

def writeLines (fields : List (String × Scalar)) : String :=
  "\x7b\n" ++ String.intercalate ",\n" (fields.map line) ++ "\n\x7d"

def Package.builtIn : Package := ⟨Value.parse?, writeLines⟩

end PostingQuery.Json
