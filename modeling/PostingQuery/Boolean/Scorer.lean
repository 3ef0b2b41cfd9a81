import PostingQuery.Scorer.Bonus
import PostingQuery.Scorer.Conjunction
import PostingQuery.Scorer.Coordinated
import PostingQuery.Scorer.Disjunction
import PostingQuery.Scorer.Exclusion
import PostingQuery.Scorer.Quorum
import PostingQuery.Scorer.Single

/-!
The scorers that boolean queries are evaluated by. Each type lists the shapes that one level of such
a scorer can have, and behaves as the shape that it holds.
-/

namespace PostingQuery

inductive ClauseGroup (S σ : Type) [Score S] where
  | one (clause : Single σ)
  | all (clauses : Conjunction S σ)
  | any (clauses : Disjunction S σ)
  | atLeast (clauses : Quorum S σ)

namespace ClauseGroup

variable {S σ : Type} [Score S] [Scorer S σ]

def focus : ClauseGroup S σ → Scorer.Focus S (ClauseGroup S σ)
  | one clause => ⟨clause, one⟩
  | all clauses => ⟨clauses, all⟩
  | any clauses => ⟨clauses, any⟩
  | atLeast clauses => ⟨clauses, atLeast⟩

instance : Scorer S (ClauseGroup S σ) := Scorer.ofFocus focus

end ClauseGroup

/-- What keeps documents out: one prohibited clause, or several of which one match is enough. -/
inductive Barrier (S σ : Type) [Score S] where
  | one (clause : σ)
  | any (clauses : Quorum S σ)

namespace Barrier

variable {S σ : Type} [Score S] [Scorer S σ]

def focus : Barrier S σ → Scorer.Focus S (Barrier S σ)
  | one clause => ⟨clause, one⟩
  | any clauses => ⟨clauses, any⟩

instance : Scorer S (Barrier S σ) := Scorer.ofFocus focus

end Barrier

inductive Filtered (S ρ σ : Type) [Score S] where
  | free (scorer : ρ)
  | behind (exclusion : Exclusion ρ (Barrier S σ))

namespace Filtered

variable {S ρ σ : Type} [Score S] [Scorer S ρ] [Scorer S σ]

def focus : Filtered S ρ σ → Scorer.Focus S (Filtered S ρ σ)
  | free scorer => ⟨scorer, free⟩
  | behind exclusion => ⟨exclusion, behind⟩

instance : Scorer S (Filtered S ρ σ) := Scorer.ofFocus focus

end Filtered

inductive CountingTree (S σ : Type) [Score S] where
  | group (scorer : Filtered S (ClauseGroup S σ) σ)
  | gated (scorer : Filtered S (Conjunction S (ClauseGroup S σ)) σ)
  | bonus (scorer : Bonus (Filtered S (ClauseGroup S σ) σ) (ClauseGroup S σ))

namespace CountingTree

variable {S σ : Type} [Score S] [Scorer S σ]

def focus : CountingTree S σ → Scorer.Focus S (CountingTree S σ)
  | group scorer => ⟨scorer, group⟩
  | gated scorer => ⟨scorer, gated⟩
  | bonus scorer => ⟨scorer, bonus⟩

instance : Scorer S (CountingTree S σ) := Scorer.ofFocus focus

end CountingTree

inductive BooleanScorer (S σ : Type) [Score S] where
  | nothing (scorer : EmptyScorer S)
  | all (scorer : Conjunction S σ)
  | any (scorer : Disjunction S σ)
  | counting (scorer : Coordinated S (CountingTree S σ))

namespace BooleanScorer

variable {S σ : Type} [Score S] [Scorer S σ]

def focus : BooleanScorer S σ → Scorer.Focus S (BooleanScorer S σ)
  | nothing scorer => ⟨scorer, nothing⟩
  | all scorer => ⟨scorer, all⟩
  | any scorer => ⟨scorer, any⟩
  | counting scorer => ⟨scorer, counting⟩

instance : Scorer S (BooleanScorer S σ) := Scorer.ofFocus focus

end BooleanScorer

end PostingQuery
