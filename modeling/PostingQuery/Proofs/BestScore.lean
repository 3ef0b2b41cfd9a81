import Mathlib
import PostingQuery.Proofs.ExactScore
import PostingQuery.Proofs.Term

/-!
What a disjunction knows of the documents it lands on. It combines one score of each part that has the
document: into their sum, or into the best of them and a share of the others.
-/

namespace PostingQuery

namespace Score

class Ranks (S : Type) [Score S] [LinearOrder S] : Prop where
  isGreatest_largest : ∀ scores : List S, scores ≠ [] → IsGreatest {score | score ∈ scores} (largest scores)

instance : Ranks ℚ where
  isGreatest_largest
    | [], nonempty => absurd rfl nonempty
    | first :: rest, _ => by
      change IsGreatest _ (rest.foldl max (max first first))
      rw [max_self]
      exact isGreatest_foldl_max first rest

end Score

namespace Aggregation

variable {S : Type} [Score S] [LinearOrder S]

/-- What becomes of some scores where nothing is rounded: their sum, or the greatest of them and the share
that a tie breaker leaves of the rest of their sum. -/
def Makes (aggregation : Aggregation S) (scores : List S) (value : S) : Prop :=
  match aggregation with
  | sum => value = Score.sum scores
  | best tieBreaker => ∃ greatest, IsGreatest {score | score ∈ scores} greatest ∧
      value = greatest + tieBreaker * (Score.sum scores - greatest)

theorem makes_combine [Score.IsExact S] [Score.Ranks S] (aggregation : Aggregation S) {scores : List S}
    (nonempty : scores ≠ []) : aggregation.Makes scores (aggregation.combine scores) := by
  cases aggregation with
  | sum => exact Score.round_total scores
  | best tieBreaker =>
    refine ⟨Score.largest scores, Score.Ranks.isGreatest_largest scores nonempty, ?_⟩
    cases scores with
    | nil => exact absurd rfl nonempty
    | cons first rest =>
      change _ + tieBreaker * (Score.round (Score.total (first :: rest)) - _) = _
      rw [Score.round_total]

end Aggregation

namespace Disjunction

variable {S σ : Type} [Score S] [Scorer S σ]

/-- A disjunction lands on exactly the documents that some part of it has, from wherever a legal walk has led
it. There it knows the exact number of the parts that have the document, and where nothing is rounded its score
is made of one score of each of them and no others, times the factor for their number if there is a table. -/
theorem lands_on_documents_of_some_part [LinearOrder S] [Score.IsExact S] [Score.Ranks S]
    {meanings : List (Meaning S)} {scorers : List σ}
    (denote : List.Forall₂ (fun meaning scorer => Denotes scorer meaning) meanings scorers)
    (nonempty : scorers ≠ []) (aggregation : Aggregation S) (coordination : Option (CoordinationTable S))
    (counting : Bool) :
    ∃ made disjunction : Disjunction S σ, (ofList scorers aggregation coordination).outcome = .ok made ∧
      disjunction = (if counting then made.counted else made) ∧ Cursor.doc disjunction = unpositioned ∧
      ∃ docs : Finset DocId, (∀ doc, doc ∈ docs ↔ ∃ part ∈ meanings, doc ∈ part.docs) ∧
        ∀ state, Reaches disjunction state →
          (Cursor.doc state ≠ noMoreDocs →
            (Cursor.next state).Yields (Arrival docs (Cursor.doc state + 1))) ∧
          (∀ target, Cursor.doc state < target → target ≤ noMoreDocs →
            (Cursor.advance state target).Yields (Arrival docs target)) ∧
          (Cursor.doc state ∈ docs →
            Scorer.matchCount state = (Meaning.matching meanings (Cursor.doc state)).length ∧
            (Scorer.score state).Yields fun value after => Cursor.doc after = Cursor.doc state ∧
              ∃ values combined, Gathers (fun part : Meaning S => part.scores (Cursor.doc state))
                  (Meaning.matching meanings (Cursor.doc state)) values ∧
                aggregation.Makes values combined ∧
                value = match coordination with
                  | none => combined
                  | some table =>
                    combined * table.factor (Meaning.matching meanings (Cursor.doc state)).length) := by
  obtain ⟨made, same, plain, counted⟩ := ofList_denotes denote nonempty aggregation coordination
  have denotes : Denotes (if counting then made.counted else made)
      (Meaning.any meanings aggregation coordination counting) := by
    cases counting with
    | true => exact counted
    | false => exact plain
  refine ⟨made, _, same, rfl, denotes.fresh, (Meaning.any meanings aggregation coordination counting).docs,
    fun doc => Meaning.mem_any, fun state reached => ?_⟩
  have behaves := denotes.refines state reached
  refine ⟨behaves.next, behaves.advance, fun member => ⟨behaves.count member, ?_⟩⟩
  refine (behaves.score member).mono fun value after ⟨⟨values, gathers, scored⟩, stays⟩ => ⟨stays, ?_⟩
  have some : values ≠ [] := by
    obtain ⟨part, listed, has⟩ := Meaning.mem_any.mp member
    have matching : part ∈ Meaning.matching meanings (Cursor.doc state) :=
      List.mem_filter.mpr ⟨listed, decide_eq_true has⟩
    apply List.ne_nil_of_length_pos
    rw [gathers.length_eq]
    exact List.length_pos_of_mem matching
  refine ⟨values, aggregation.combine values, gathers, aggregation.makes_combine some, ?_⟩
  rw [scored, ← gathers.length_eq]
  cases coordination with
  | none => rfl
  | some table => rfl

/-- Two terms with the scores 3 and 1. On the document that both have, the best one counts in full and the other
one by half. -/
theorem other_term_counts_by_half :
    ∃ (disjunction after : Disjunction ℚ (TermScorer PostingList ℚ)),
      (ofList [⟨.fresh [.ofDoc 1, .ofDoc 5], .constant 3 1⟩,
        ⟨.fresh [.ofDoc 5, .ofDoc 9], .constant 1 1⟩] (.best (1 / 2)) none).outcome = .ok disjunction ∧
      Cursor.advance disjunction 2 = (.ok 5, after) ∧ Scorer.matchCount after = 2 ∧
      (Scorer.score after).1 = .ok (7 / 2) := by
  have first : Posting.Accepted [.ofDoc 1, .ofDoc 5] := ⟨rfl, by decide⟩
  have second : Posting.Accepted [.ofDoc 5, .ofDoc 9] := ⟨rfl, by decide⟩
  let parts : List (Meaning ℚ) :=
    [TermScorer.meaning first (.constant 3 1), TermScorer.meaning second (.constant 1 1)]
  have docsFirst : ∀ doc, doc ∈ (TermScorer.meaning first (.constant (3 : ℚ) 1)).docs ↔ doc = 1 ∨ doc = 5 :=
    fun doc => by simp [TermScorer.meaning, Meaning.leaf, Posting.docs, Posting.ofDoc]
  have docsSecond : ∀ doc, doc ∈ (TermScorer.meaning second (.constant (1 : ℚ) 1)).docs ↔ doc = 5 ∨ doc = 9 :=
    fun doc => by simp [TermScorer.meaning, Meaning.leaf, Posting.docs, Posting.ofDoc]
  have both : Meaning.matching parts 5 = parts := by simp [parts, Meaning.matching, docsFirst, docsSecond]
  obtain ⟨made, disjunction, same, plain, fresh, docs, mem, walk⟩ := lands_on_documents_of_some_part
    (.cons (TermScorer.denotes_of_ofPostings rfl first (.constant (3 : ℚ) 1))
      (.cons (TermScorer.denotes_of_ofPostings rfl second (.constant (1 : ℚ) 1)) .nil))
    (by simp) (.best (1 / 2)) none false
  obtain rfl : disjunction = made := plain
  have beyond : Cursor.doc disjunction < 2 := by
    rw [fresh]
    decide
  obtain ⟨landing, after, answer, here, lands⟩ := (walk disjunction .refl).2.1 2 beyond (by decide)
  have listed : ∀ doc, doc ∈ docs ↔ doc = 1 ∨ doc = 5 ∨ doc = 9 := by
    intro doc
    rw [mem]
    simp [docsFirst, docsSecond]
    tauto
  have landed : landing = 5 := by
    have upper := lands.first 5 ((listed 5).mpr (by simp)) (by decide)
    have lower := lands.reached
    rcases lands.place with member | ended
    · have known := (listed landing).mp member
      lia
    · rw [ended] at upper
      exact absurd upper (by decide)
  subst landed
  have moved := LegalStep.advance disjunction 2 beyond (by decide)
  rw [answer] at moved
  obtain ⟨count, value, later, scored, -, values, combined, gathers, made, scoreSame⟩ :=
    (walk after (.single moved)).2.2 (by rw [here]; exact (listed 5).mpr (by simp))
  obtain ⟨greatest, ⟨top, upper⟩, rfl⟩ := made
  have only : ∀ part ∈ parts, ∀ answer, part.scores 5 answer → answer = part.value 5 := by
    intro part member answer scored
    rcases List.mem_pair.mp member with rfl | rfl
    · exact Meaning.leaf_valued _ _ _ 5 ((docsFirst 5).mpr (.inr rfl)) answer scored
    · exact Meaning.leaf_valued _ _ _ 5 ((docsSecond 5).mpr (.inl rfl)) answer scored
  rw [here] at count gathers
  change Gathers _ (Meaning.matching parts 5) values at gathers
  change Scorer.matchCount after = (Meaning.matching parts 5).length at count
  rw [both] at count gathers
  have perm := gathers.perm_map only
  have scores : parts.map (fun part => part.value 5) = [3, 1] := by
    simp only [parts, List.map_cons, List.map_nil, TermScorer.meaning, Meaning.value_leaf]
    simp [Relevance.constant]
  rw [scores] at perm
  have sums : Score.sum values = 4 := by
    rw [Score.sum_perm perm]
    change (3 + (1 + 0) : ℚ) = 4
    norm_num
  have three : greatest = 3 := by
    have known := perm.mem_iff.mp top
    have above : (3 : ℚ) ≤ greatest := upper (perm.mem_iff.mpr (by simp))
    rcases List.mem_pair.mp known with same | same
    · exact same
    · rw [same] at above
      norm_num at above
  refine ⟨disjunction, after, same, answer, count, ?_⟩
  rw [scored, scoreSame, sums, three]
  change Except.ok (3 + 1 / 2 * (4 - 3) : ℚ) = _
  norm_num

end Disjunction

end PostingQuery
