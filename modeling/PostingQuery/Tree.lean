import PostingQuery.Boolean.Scorer
import PostingQuery.Phrase.Exact
import PostingQuery.Phrase.Sloppy
import PostingQuery.Scorer.Term

/-!
Trees of scorers. A tree of a given height holds trees of the height below, so every combinator can
hold any other.
-/

namespace PostingQuery

inductive Leaf (P S : Type) where
  | term (scorer : TermScorer P S)
  | exact (scorer : ExactPhrase P S)
  | sloppy (scorer : SloppyPhrase P S)
  | empty (scorer : EmptyScorer S)

namespace Leaf

variable {P S : Type} [PostingSource P] [Score S]

def focus : Leaf P S → Scorer.Focus S (Leaf P S)
  | term scorer => ⟨scorer, term⟩
  | exact scorer => ⟨scorer, exact⟩
  | sloppy scorer => ⟨scorer, sloppy⟩
  | empty scorer => ⟨scorer, empty⟩

instance : Scorer S (Leaf P S) := Scorer.ofFocus focus

end Leaf

inductive Node (P S σ : Type) [Score S] where
  | leaf (scorer : Leaf P S)
  | conjunction (scorer : Conjunction S σ)
  | disjunction (scorer : Disjunction S σ)
  | quorum (scorer : Quorum S σ)
  | single (scorer : Single σ)
  | exclusion (scorer : Exclusion σ σ)
  | bonus (scorer : Bonus σ σ)
  | coordinated (scorer : Coordinated S σ)
  | boolean (scorer : BooleanScorer S σ)

namespace Node

variable {P S σ : Type} [PostingSource P] [Score S] [Scorer S σ]

def focus : Node P S σ → Scorer.Focus S (Node P S σ)
  | leaf scorer => ⟨scorer, leaf⟩
  | conjunction scorer => ⟨scorer, conjunction⟩
  | disjunction scorer => ⟨scorer, disjunction⟩
  | quorum scorer => ⟨scorer, quorum⟩
  | single scorer => ⟨scorer, single⟩
  | exclusion scorer => ⟨scorer, exclusion⟩
  | bonus scorer => ⟨scorer, bonus⟩
  | coordinated scorer => ⟨scorer, coordinated⟩
  | boolean scorer => ⟨scorer, boolean⟩

instance : Scorer S (Node P S σ) := Scorer.ofFocus focus

end Node

/-- Trees of scorers up to some height, over posting sources of type `P` and with scores of type `S`. -/
def Tree (P S : Type) [Score S] : Nat → Type
  | 0 => Leaf P S
  | height + 1 => Node P S (Tree P S height)

namespace Tree

variable {P S : Type} [PostingSource P] [Score S]

@[reducible]
def scorer : (height : Nat) → Scorer S (Tree P S height)
  | 0 => inferInstanceAs (Scorer S (Leaf P S))
  | height + 1 =>
    let _ := scorer height
    inferInstanceAs (Scorer S (Node P S (Tree P S height)))

instance (height : Nat) : Scorer S (Tree P S height) := scorer height

end Tree

end PostingQuery
