import PostingQuery.Score.Basic

/-!
Coordination: documents that match more clauses of a query are rewarded. The raw sum of a document is
multiplied by a factor that a table gives for the number of matching clauses.
-/

namespace PostingQuery

abbrev CoordinationPolicy (S : Type) := Nat → Nat → S

namespace CoordinationPolicy

variable {S : Type} [Score S]

/-- The share of clauses that match. A query of one clause is never penalised. -/
def share : CoordinationPolicy S := fun overlap largest =>
  if largest ≤ 1 then Score.one else Score.ofNat overlap / Score.ofNat largest

def neutral : CoordinationPolicy S := fun _ _ => Score.one

end CoordinationPolicy

structure CoordinationTable (S : Type) where
  factors : Array S

namespace CoordinationTable

variable {S : Type} [Score S]

def ofPolicy (policy : CoordinationPolicy S) (largest : Nat) : CoordinationTable S :=
  ⟨Array.ofFn fun overlap : Fin (largest + 1) => policy overlap largest⟩

def disabled (largest : Nat) : CoordinationTable S :=
  ofPolicy CoordinationPolicy.neutral largest

def largest (table : CoordinationTable S) : Nat := table.factors.size - 1

/-- The factor for some number of matching clauses. Numbers that are not covered leave scores as they are. -/
def factor (table : CoordinationTable S) (overlap : Nat) : S :=
  table.factors.getD overlap Score.one

end CoordinationTable

def overlaps : Nat → List Nat → List Nat
  | _, [] => []
  | overlap, count :: rest => (overlap + count) :: overlaps (overlap + count) rest

end PostingQuery
