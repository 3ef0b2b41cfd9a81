import PostingQuery.Score.Basic

/-!
Explanations: how a document came by its score, as a tree. A node holds the value that it
contributes and the details that the value was computed from.
-/

namespace PostingQuery

structure Explanation (S : Type) where
  value : S
  description : String
  matched : Bool
  details : List (Explanation S)

namespace Explanation

variable {S : Type} [Score S]

def matching (value : S) (description : String) (details : List (Explanation S)) : Explanation S :=
  ⟨value, description, true, details⟩

def noMatch (description : String) (details : List (Explanation S)) : Explanation S :=
  ⟨Score.zero, description, false, details⟩

mutual

def linesAt (depth : Nat) : Explanation S → List String
  | ⟨value, description, _, details⟩ =>
    (String.ofList (List.replicate (2 * depth) ' ') ++ Score.text value ++ " = " ++ description)
      :: detailLinesAt (depth + 1) details

def detailLinesAt (depth : Nat) : List (Explanation S) → List String
  | [] => []
  | detail :: rest => linesAt depth detail ++ detailLinesAt depth rest

end

def render (explanation : Explanation S) : String :=
  String.join ((explanation.linesAt 0).map (· ++ "\n"))

end Explanation

end PostingQuery
