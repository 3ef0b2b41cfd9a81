import Mathlib
import PostingQuery.Proofs.CallContract
import PostingQuery.Proofs.Conjunction
import PostingQuery.Proofs.ExactScore
import PostingQuery.Proofs.Term

/-!
What a conjunction does with its parts. It lands on the documents that all of them have and brings all of them
there, and it never asks one of them for a move that a cursor need not answer: it is the same walk whether its
parts are watched or not, and under watch no illegal move is noted.
-/

namespace PostingQuery

theorem Step.each_map {σ τ α : Type} {strip : τ → σ} {step : σ → Step σ α} {watchedStep : τ → Step τ α}
    (same : ∀ state, step (strip state) = (watchedStep state).within strip) (states : List τ) :
    each step (states.map strip) = (each watchedStep states).within (List.map strip) := by
  induction states with
  | nil => rfl
  | cons state states ih =>
    simp only [List.map_cons, each, same, ih, within]
    rcases watchedStep state with ⟨failure | answer, after⟩
    · rfl
    · rcases each watchedStep states with ⟨failure | answers, rest⟩ <;> rfl

namespace Placed

variable {S σ τ : Type} {strip : τ → σ}

def map (strip : τ → σ) (place : Placed τ) : Placed σ := ⟨place.doc, strip place.scorer⟩

theorem move_map {move : σ → Step σ DocId} {watchedMove : τ → Step τ DocId}
    (same : ∀ scorer, move (strip scorer) = (watchedMove scorer).within strip) (place : Placed τ) :
    (place.map strip).move move = (place.move watchedMove).within (map strip) := by
  simp only [Placed.move, map, same, Step.within]
  rcases watchedMove place.scorer with ⟨failure | doc, after⟩ <;> rfl

variable [Scorer S σ] [Scorer S τ]

theorem align_map (embeds : Embeds strip) (candidate : DocId) (places : List (Placed τ)) :
    align candidate (places.map (map strip)) = (align candidate places).within (List.map (map strip)) := by
  induction places with
  | nil => rfl
  | cons place places ih =>
    have moved : (place.map strip).move (Cursor.advance · candidate) =
        (place.move (Cursor.advance · candidate)).within (map strip) :=
      move_map (fun scorer => embeds.advance scorer candidate) place
    have doc : (place.map strip).doc = place.doc := rfl
    simp only [List.map_cons, align, moved, doc, ih]
    by_cases lagging : place.doc < candidate
    · simp only [if_pos lagging]
      rcases place.move (Cursor.advance · candidate) with ⟨failure | reached, after⟩
      · rfl
      · by_cases overshot : candidate < reached
        · simp [Step.within, overshot]
        · simp [Step.within, overshot]
    · simp [Step.within, lagging]

end Placed

namespace Conjunction

variable {S σ τ : Type} {strip : τ → σ}

def map (strip : τ → σ) (conjunction : Conjunction S τ) : Conjunction S σ :=
  { conjunction with
    lead := conjunction.lead.map strip, followers := conjunction.followers.map (Placed.map strip) }

variable [Score S] [Scorer S σ] [Scorer S τ]

omit [Score S] in
theorem settle_map (embeds : Embeds strip) (moves : Nat) (conjunction : Conjunction S τ) (candidate : DocId) :
    settle moves (conjunction.map strip) candidate =
      (settle moves conjunction candidate).within (map strip) := by
  induction moves generalizing conjunction candidate with
  | zero => rfl
  | succ moves ih =>
    have aligned : Placed.align candidate (conjunction.map strip).followers =
        (Placed.align candidate conjunction.followers).within (List.map (Placed.map strip)) :=
      Placed.align_map embeds candidate conjunction.followers
    simp only [settle, aligned]
    split
    next => rfl
    next =>
      rcases Placed.align candidate conjunction.followers with ⟨failure | _ | beyond, followers⟩
      · rfl
      · rfl
      · have moved : (conjunction.map strip).lead.move (Cursor.advance · beyond) =
            (conjunction.lead.move (Cursor.advance · beyond)).within (Placed.map strip) :=
          Placed.move_map (fun scorer => embeds.advance scorer beyond) conjunction.lead
        simp only [Step.within, moved]
        rcases conjunction.lead.move (Cursor.advance · beyond) with ⟨failure | reached, lead⟩
        · rfl
        · exact ih { conjunction with lead, followers } reached

omit [Score S] in
theorem moveLead_map (embeds : Embeds strip) {move : σ → Step σ DocId} {watchedMove : τ → Step τ DocId}
    (same : ∀ scorer, move (strip scorer) = (watchedMove scorer).within strip) (conjunction : Conjunction S τ) :
    (conjunction.map strip).moveLead move = (conjunction.moveLead watchedMove).within (map strip) := by
  have moved : (conjunction.map strip).lead.move move =
      (conjunction.lead.move watchedMove).within (Placed.map strip) :=
    Placed.move_map same conjunction.lead
  simp only [moveLead, moved]
  rcases conjunction.lead.move watchedMove with ⟨failure | reached, lead⟩
  · rfl
  · exact settle_map embeds moveLimit { conjunction with lead } reached

theorem scoreCounting_map (embeds : Embeds strip) (conjunction : Conjunction S τ) :
    (conjunction.map strip).scoreCounting = conjunction.scoreCounting.within (map strip) := by
  have single : ∀ place : Placed τ,
      (Scorer.scoreCounting (place.map strip).scorer).within (Placed.mk (place.map strip).doc) =
        ((Scorer.scoreCounting place.scorer).within (Placed.mk place.doc)).within (Placed.map strip) := by
    intro place
    change (Scorer.scoreCounting (strip place.scorer)).within _ = _
    rw [embeds.scoreCounting]
    rfl
  have led : (Scorer.scoreCounting (conjunction.map strip).lead.scorer).within
      (Placed.mk (conjunction.map strip).lead.doc) = _ := single conjunction.lead
  have followed : Step.each (fun place : Placed σ =>
      (Scorer.scoreCounting place.scorer).within (Placed.mk place.doc)) (conjunction.map strip).followers =
      (Step.each (fun place : Placed τ => (Scorer.scoreCounting place.scorer).within (Placed.mk place.doc))
        conjunction.followers).within (List.map (Placed.map strip)) :=
    Step.each_map single conjunction.followers
  have size : (conjunction.map strip).size = conjunction.size := by simp [size, parts, map]
  simp only [scoreCounting, led, followed, size]
  rcases (Scorer.scoreCounting conjunction.lead.scorer).within (Placed.mk conjunction.lead.doc) with
    ⟨failure | first, lead⟩
  · rfl
  · rcases Step.each (fun place : Placed τ => (Scorer.scoreCounting place.scorer).within
      (Placed.mk place.doc)) conjunction.followers with ⟨failure | answers, followers⟩ <;> rfl

theorem embeds_map (embeds : Embeds strip) : Embeds (map strip : Conjunction S τ → Conjunction S σ) where
  doc _ := rfl
  next conjunction := moveLead_map embeds embeds.next conjunction
  advance conjunction target := by
    change (conjunction.map strip).advance target = (conjunction.advance target).within (map strip)
    unfold advance
    change (if conjunction.lead.doc < target then _ else _) = _
    split
    next => exact moveLead_map embeds (fun scorer => embeds.advance scorer target) conjunction
    next => exact settle_map embeds moveLimit conjunction conjunction.lead.doc
  score conjunction := by
    change (conjunction.map strip).scoreCounting.map (·.1) = _
    rw [scoreCounting_map embeds]
    rfl
  scoreCounting := scoreCounting_map embeds
  matchCount conjunction := by
    change (conjunction.map strip).size = conjunction.size
    simp [size, parts, map]

variable {holds : Meaning S → σ → Prop} {leadMeaning : Meaning S} {meanings : List (Meaning S)} {factor : S}
  {counting : Bool} {conjunction : Conjunction S σ}

omit [Score S] [Scorer S τ] in
theorem Aligned.exists_follows (aligned : Aligned holds leadMeaning meanings factor counting conjunction)
    {place : Placed σ} (member : place ∈ conjunction.parts) :
    ∃ meaning ∈ leadMeaning :: meanings, place.Follows (holds meaning) := by
  have each : List.Forall₂ (fun meaning place => Placed.Follows (holds meaning) place)
      (leadMeaning :: meanings) conjunction.parts := .cons aligned.lead aligned.followers
  exact exists_partner each.flip member

omit [Score S] [Scorer S τ] in
theorem Aligned.doc_eq (aligned : Aligned holds leadMeaning meanings factor counting conjunction)
    (live : conjunction.doc ≠ noMoreDocs) {place : Placed σ} (member : place ∈ conjunction.parts) :
    Cursor.doc place.scorer = conjunction.doc := by
  obtain ⟨meaning, -, follows⟩ := aligned.exists_follows member
  rw [← follows.noted]
  rcases List.mem_cons.mp member with rfl | later
  · exact aligned.leads
  · exact aligned.together live place later

omit [Score S] [Scorer S τ] in
theorem Aligned.watched (aligned : Aligned holds leadMeaning meanings factor counting conjunction) :
    Aligned (fun meaning (watched : Watched σ) => holds meaning watched.inner ∧ watched.KeepsContract)
      leadMeaning meanings factor counting (conjunction.map Watched.start) where
  lead := ⟨aligned.lead.noted, aligned.lead.here, List.forall_mem_nil _⟩
  followers := List.forall₂_map_right_iff.mpr
    (aligned.followers.imp fun _ _ follows => ⟨follows.noted, follows.here, List.forall_mem_nil _⟩)
  leads := aligned.leads
  together live place member := by
    obtain ⟨unwatched, listed, rfl⟩ := List.mem_map.mp member
    exact aligned.together live unwatched listed
  factor := aligned.factor
  counting := aligned.counting

omit [Scorer S τ] in
/-- However a legal walk leads a conjunction, watching its parts shows legal moves only. -/
theorem calls_keep_contract (invariant : ∀ part, Invariant part (holds part))
    (aligned : Aligned holds leadMeaning meanings factor counting conjunction) {state : Conjunction S σ}
    (reached : Reaches conjunction state) :
    ∃ watched, Reaches (conjunction.map Watched.start) watched ∧ watched.map Watched.inner = state ∧
      ∀ place ∈ watched.parts, place.scorer.KeepsContract := by
  have unwatched : (conjunction.map Watched.start).map Watched.inner = conjunction := by
    simp [map, Placed.map, Watched.start, Function.comp_def]
  rw [← unwatched] at reached
  obtain ⟨watched, walked, same⟩ := (embeds_map Watched.embeds_inner).exists_of_reaches reached
  refine ⟨watched, walked, same, fun place member => ?_⟩
  have kept := (aligned_invariant (fun part => Watched.invariant (invariant part)) leadMeaning meanings factor
    counting).holds_of_reaches aligned.watched walked
  obtain ⟨meaning, -, follows⟩ := kept.exists_follows member
  exact follows.here.2

omit [Scorer S τ] in
/-- A conjunction lands on exactly the documents that all parts have, from wherever a legal walk has led it, and
brings all of them there. It asks its parts for legal moves only. Where nothing is rounded, its score is the sum
of the scores of all parts times its factor. -/
theorem lands_on_shared_documents [Score.IsExact S] {meanings : List (Meaning S)} {scorers : List σ}
    (denote : List.Forall₂ (fun meaning scorer => Denotes scorer meaning) meanings scorers)
    (nonempty : scorers ≠ []) (factor : S) (counting : Bool) :
    ∃ made conjunction : Conjunction S σ, ofList scorers factor = .ok made ∧
      conjunction = (if counting then made.counted else made) ∧ Cursor.doc conjunction = unpositioned ∧
      ∃ docs : Finset DocId, (∀ doc, doc ∈ docs ↔ ∀ part ∈ meanings, doc ∈ part.docs) ∧
        ∀ state, Reaches conjunction state →
          (∃ watched, Reaches (conjunction.map Watched.start) watched ∧ watched.map Watched.inner = state ∧
            ∀ place ∈ watched.parts, ∀ call ∈ place.scorer.calls, call.IsLegal) ∧
          (Cursor.doc state ≠ noMoreDocs →
            (Cursor.next state).Yields (Arrival docs (Cursor.doc state + 1))) ∧
          (∀ target, Cursor.doc state < target → target ≤ noMoreDocs →
            (Cursor.advance state target).Yields (Arrival docs target)) ∧
          (Cursor.doc state ∈ docs →
            state.parts.length = scorers.length ∧
            (∀ place ∈ state.parts, Cursor.doc place.scorer = Cursor.doc state) ∧
            (Scorer.score state).Yields fun value after => Cursor.doc after = Cursor.doc state ∧
              ∃ answers : List (S × Nat),
                Gathers (fun part : Meaning S => part.tallies (Cursor.doc state)) meanings answers ∧
                value = Score.sum (answers.map (·.1)) * factor ∧
                ((∀ part ∈ meanings, ∀ answer, part.tallies (Cursor.doc state) answer →
                    part.scores (Cursor.doc state) answer.1) →
                  Gathers (fun part : Meaning S => part.scores (Cursor.doc state)) meanings
                    (answers.map (·.1)))) := by
  obtain ⟨made, leadMeaning, order, same, perm, fresh, plain⟩ := ofList_aligned denote nonempty factor
  obtain ⟨conjunction, chosen, unmoved, aligned⟩ : ∃ conjunction : Conjunction S σ,
      conjunction = (if counting then made.counted else made) ∧ conjunction.doc = unpositioned ∧
      Aligned (fun meaning scorer => Refines scorer meaning) leadMeaning order factor counting conjunction := by
    cases counting with
    | true => exact ⟨_, rfl, fresh, plain.counted⟩
    | false => exact ⟨_, rfl, fresh, plain⟩
  have invariant := aligned_invariant (σ := σ) Refines.invariant leadMeaning order factor counting
  refine ⟨made, conjunction, same, chosen, unmoved,
    (Meaning.shared (leadMeaning :: order) factor counting).docs, fun doc => ?_, fun state reached => ?_⟩
  · simp only [Meaning.mem_shared, perm.mem_iff]
    refine and_iff_right_of_imp fun all => ?_
    have listed : leadMeaning ∈ meanings := perm.mem_iff.mp List.mem_cons_self
    exact leadMeaning.real doc (all leadMeaning listed)
  have here := invariant.holds_of_reaches aligned reached
  have behaves := invariant.behaves here
  have size : state.parts.length = scorers.length := by
    rw [← denote.length_eq, ← perm.length_eq, List.length_cons, here.followers.length_eq]
    rfl
  refine ⟨calls_keep_contract Refines.invariant aligned reached, behaves.next, behaves.advance,
    fun member => ⟨size, fun place listed => here.doc_eq (Meaning.real _ _ member).ne_noMoreDocs listed, ?_⟩⟩
  refine (behaves.score member).mono fun value after ⟨⟨count, tally⟩, stays⟩ => ⟨stays, ?_⟩
  obtain ⟨answers, gathers, totals⟩ := tally.perm perm
  refine ⟨answers, gathers, ?_, fun counted => (gathers.mono counted).map_answers⟩
  rw [← Score.round_total]
  exact congrArg Prod.fst totals

/-- Two terms with the scores 3 and 1 that share one document. Both are brought there, and the factor halves the sum
of their scores. -/
theorem terms_meet_on_shared_document :
    ∃ (conjunction after : Conjunction ℚ (TermScorer PostingList ℚ)),
      ofList [⟨.fresh [.ofDoc 1, .ofDoc 5], .constant 3 1⟩,
        ⟨.fresh [.ofDoc 2, .ofDoc 5, .ofDoc 9], .constant 1 1⟩] (1 / 2) = .ok conjunction ∧
      Cursor.advance conjunction 2 = (.ok 5, after) ∧
      after.parts.map (fun place => Cursor.doc place.scorer) = [5, 5] ∧ (Scorer.score after).1 = .ok 2 := by
  have first : Posting.Accepted [.ofDoc 1, .ofDoc 5] := ⟨rfl, by decide⟩
  have second : Posting.Accepted [.ofDoc 2, .ofDoc 5, .ofDoc 9] := ⟨rfl, by decide⟩
  let parts : List (Meaning ℚ) :=
    [TermScorer.meaning first (.constant 3 1), TermScorer.meaning second (.constant 1 1)]
  obtain ⟨made, conjunction, same, plain, fresh, docs, mem, walk⟩ := lands_on_shared_documents
    (.cons (TermScorer.denotes_of_ofPostings rfl first (.constant (3 : ℚ) 1))
      (.cons (TermScorer.denotes_of_ofPostings rfl second (.constant (1 : ℚ) 1)) .nil))
    (by simp) (1 / 2) false
  obtain rfl : conjunction = made := plain
  have listed : ∀ doc, doc ∈ docs ↔ doc = 5 := by
    intro doc
    rw [mem]
    simp [TermScorer.meaning, Meaning.leaf, Posting.docs, Posting.ofDoc]
    lia
  have beyond : Cursor.doc conjunction < 2 := by
    rw [fresh]
    decide
  obtain ⟨landing, after, answer, here, lands⟩ := (walk conjunction .refl).2.2.1 2 beyond (by decide)
  have landed : landing = 5 := by
    rcases lands.place with member | ended
    · exact (listed landing).mp member
    · have upper := lands.first 5 ((listed 5).mpr rfl) (by decide)
      rw [ended] at upper
      exact absurd upper (by decide)
  subst landed
  have moved := LegalStep.advance conjunction 2 beyond (by decide)
  rw [answer] at moved
  have inside : Cursor.doc after ∈ docs := by
    rw [here]
    exact (listed 5).mpr rfl
  obtain ⟨size, together, value, later, scored, -, answers, gathers, rfl, -⟩ :=
    (walk after (.single moved)).2.2.2 inside
  have only : ∀ part ∈ parts, ∀ answer, part.tallies (Cursor.doc after) answer →
      answer = (part.value (Cursor.doc after), 0) := by
    intro part member answer tallied
    have has := (mem _).mp inside part member
    rcases List.mem_pair.mp member with rfl | rfl
    · exact (Meaning.leaf_plain _ _ _).uncounted _ has answer tallied
    · exact (Meaning.leaf_plain _ _ _).uncounted _ has answer tallied
  change Gathers (fun part : Meaning ℚ => part.tallies (Cursor.doc after)) parts answers at gathers
  have perm := (gathers.perm_map only).map Prod.fst
  have values : (parts.map fun part => (part.value (Cursor.doc after), 0)).map Prod.fst = [(3 : ℚ), 1] := by
    simp only [parts, List.map_cons, List.map_nil, TermScorer.meaning, Meaning.value_leaf]
    simp [Relevance.constant]
  rw [values] at perm
  refine ⟨conjunction, after, same, answer, ?_, ?_⟩
  · change _ = List.replicate 2 (5 : DocId)
    rw [List.eq_replicate_iff, List.length_map]
    exact ⟨size, by simpa [here] using together⟩
  · rw [scored, Score.sum_perm perm]
    change Except.ok ((3 + (1 + 0)) * (1 / 2) : ℚ) = _
    norm_num

end Conjunction

end PostingQuery
