/-!
Sorting that keeps the order of equal elements. `ordered a b` says that `a` may stand before `b`.
-/

namespace PostingQuery

namespace StableSort

variable {α : Type}

def insert (ordered : α → α → Bool) (x : α) : List α → List α
  | [] => [x]
  | y :: rest => if ordered x y then x :: y :: rest else y :: insert ordered x rest

/-- Inserts the elements from the last to the first, so that equal elements keep their order. -/
def sort (ordered : α → α → Bool) (xs : List α) : List α := xs.foldr (insert ordered) []

end StableSort

end PostingQuery
