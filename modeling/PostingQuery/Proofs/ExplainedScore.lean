import Mathlib
import PostingQuery.Boolean.Explain
import PostingQuery.Proofs.NestedScore

/-!
Explanations agree with scores. A clause explains a document by moving straight to it, and a query puts the
explanations of its clauses together by rules of its own. Its scorer lands on exactly the documents that are
explained as matches, and scores them as explained.
-/

namespace PostingQuery

open Scorer

namespace Score

class TellsOne (S : Type) [Score S] : Prop where
  isOne_iff : ∀ a : S, isOne a = true ↔ a = one

instance : TellsOne ℚ := ⟨fun _ => beq_iff_eq⟩

theorem foldl_add {S : Type} [Score S] [IsExact S] (values : List S) (start : S) :
    values.foldl (· + ·) start = start + sum values := by
  induction values generalizing start with
  | nil => exact (add_zero start).symm
  | cons value values ih => rw [List.foldl_cons, ih, sum_cons, IsExact.add_assoc]

end Score

def Explanation.gist {S : Type} (explanation : Explanation S) : Bool × S :=
  (explanation.matched, explanation.value)

section Explains

variable {S σ τ : Type} [Score S] [Scorer S σ] [Scorer S τ]

/-- The explanation of a document comes down to what moving there and scoring answers. -/
def Explains (scorer : σ) (doc : DocId) : Prop :=
  (explain scorer doc).1.map Explanation.gist = (explainScore score scorer doc).1.map Explanation.gist

namespace Embeds

variable {wrap : σ → τ} {part : σ} {doc : DocId}

omit [Score S] in
theorem seek (embeds : Embeds wrap) (part : σ) (doc : DocId) :
    Cursor.seek (wrap part) doc = (Cursor.seek part doc).within wrap := by
  simp only [Cursor.seek, Cursor.reach, embeds.doc, embeds.advance]
  by_cases passed : doc < Cursor.doc part
  · rw [if_pos passed, if_pos passed]
    rfl
  · rw [if_neg passed, if_neg passed]
    split
    · rfl
    · rfl

theorem explains (embeds : Embeds wrap) (same : explain (wrap part) doc = (explain part doc).within wrap)
    (explains : Explains part doc) : Explains (wrap part) doc := by
  have scored : explainScore Scorer.score (wrap part) doc =
      (explainScore Scorer.score part doc).within wrap := by
    unfold explainScore
    rw [embeds.seek]
    rcases Cursor.seek part doc with ⟨failure | landing, after⟩
    · rfl
    · simp only [Step.within]
      split
      · rw [embeds.score]
        rfl
      · rfl
  rw [Explains, same, scored]
  exact explains

end Embeds

theorem TermScorer.explains {P : Type} [PostingSource P] (term : TermScorer P S) (doc : DocId)
    (lands : ∀ landing after, Cursor.seek term doc = (.ok landing, after) → Cursor.doc after = landing) :
    Explains term doc := by
  change (TermScorer.explain term doc).1.map _ = (explainScore TermScorer.score term doc).1.map _
  unfold TermScorer.explain explainScore
  rcases sought : Cursor.seek term doc with ⟨failure | landing, after⟩
  · rfl
  · have here := lands landing after sought
    by_cases same : landing = doc
    · simp only [TermScorer.score, here, same]
      cases after.freq with
      | error failure => rfl
      | ok freq => rfl
    · simp only [if_neg same]
      rfl

theorem ExactPhrase.explains {P : Type} [PostingSource P] (phrase : ExactPhrase P S) (doc : DocId) :
    Explains phrase doc := by
  change (ExactPhrase.explain phrase doc).1.map _ = (explainScore _ phrase doc).1.map _
  unfold ExactPhrase.explain explainScore
  rcases Cursor.seek phrase doc with ⟨failure | landing, after⟩
  · rfl
  · by_cases same : landing = doc
    · simp only [if_pos same]
      rfl
    · simp only [if_neg same]
      rfl

theorem SloppyPhrase.explains {P : Type} [PostingSource P] (phrase : SloppyPhrase P S) (doc : DocId) :
    Explains phrase doc := by
  change (SloppyPhrase.explain phrase doc).1.map _ = (explainScore _ phrase doc).1.map _
  unfold SloppyPhrase.explain explainScore
  rcases Cursor.seek phrase doc with ⟨failure | landing, after⟩
  · rfl
  · by_cases same : landing = doc
    · simp only [if_pos same]
      rfl
    · simp only [if_neg same]
      rfl

theorem BooleanScorer.explains (scorer : BooleanScorer S σ) (doc : DocId) : Explains scorer doc := by
  cases scorer with
  | nothing scorer => exact BooleanQuery.embeds_nothing.explains rfl rfl
  | all scorer => exact BooleanQuery.embeds_all.explains rfl rfl
  | any scorer => exact BooleanQuery.embeds_any.explains rfl rfl
  | counting scorer => exact BooleanQuery.embeds_counting.explains rfl rfl

structure Tells (doc : DocId) (clause : σ) (detail : Explanation S) : Prop where
  explained : (explain clause doc).1 = .ok detail
  matched : detail.matched = matchesOn clause doc
  value : detail.value = if matchesOn clause doc then scoreOn clause doc else Score.zero

omit [Score S] in
theorem Denotes.seek_yields {scorer : σ} {meaning : Meaning S} {doc : DocId} (denotes : Denotes scorer meaning)
    (real : IsReal doc) : Cursor.seek scorer doc = Cursor.advance scorer doc ∧
      (Cursor.advance scorer doc).Yields fun landing after =>
        Arrival meaning.docs doc landing after ∧ Refines after meaning := by
  have ahead := denotes.doc_lt real
  refine ⟨?_, denotes.refines.advance ahead real.2.le⟩
  rw [Cursor.seek, if_neg (not_lt.mpr ahead.le), Cursor.reach, if_pos ahead]

omit [Score S] in
theorem Denotes.yields_iff {scorer : σ} {meaning : Meaning S} {doc : DocId} (denotes : Denotes scorer meaning)
    (real : IsReal doc) : (∃ state, Reaches scorer state ∧ Cursor.doc state = doc) ↔ doc ∈ meaning.docs := by
  constructor
  · rintro ⟨state, reached, rfl⟩
    have refines : Refines state meaning := fun later further => denotes.refines later (reached.trans further)
    exact refines.member_of_real real
  · intro member
    obtain ⟨-, landing, after, same, arrival, -⟩ := denotes.seek_yields real
    refine ⟨after, .single ?_, arrival.1.trans ((arrival.2.eq_low_iff real.2).mpr member)⟩
    have step := LegalStep.advance scorer doc (denotes.doc_lt real) real.2.le
    rwa [same] at step

theorem Denotes.tells {clause : σ} {doc : DocId} (denotes : Denotes clause (Meaning.observed clause))
    (explains : Explains clause doc) (real : IsReal doc) : ∃ detail, Tells doc clause detail := by
  obtain ⟨sought, landing, after, same, arrival, refines⟩ := denotes.seek_yields real
  rw [same] at sought
  have gist : (explain clause doc).1.map Explanation.gist =
      .ok (matchesOn clause doc, if matchesOn clause doc then scoreOn clause doc else Score.zero) := by
    rw [Explains, explainScore, sought] at explains
    rw [explains, matchesOn, scoreOn, same]
    by_cases here : landing = doc
    · have member : Cursor.doc after ∈ (Meaning.observed clause).docs := by
        rw [arrival.1, here]
        exact (arrival.2.eq_low_iff real.2).mp here
      obtain ⟨value, scored, sameScore, -, -⟩ := refines.score member
      simp only [here, sameScore, beq_self_eq_true, if_true]
      rfl
    · simp only [if_neg here, beq_false_of_ne here]
      rfl
  cases explained : (explain clause doc).1 with
  | error failure =>
    rw [explained] at gist
    cases gist
  | ok detail =>
    rw [explained] at gist
    obtain ⟨matched, value⟩ := Prod.mk.inj (Except.ok.inj gist)
    exact ⟨detail, explained, matched, value⟩

theorem exists_details {clauses : List σ} {doc : DocId}
    (each : ∀ clause ∈ clauses, ∃ detail, Tells doc clause detail) :
    ∃ details, (Step.each (explain · doc) clauses).1 = .ok details ∧
      List.Forall₂ (Tells doc) clauses details := by
  have single : List.Forall₂ (fun label clause : σ => (explain clause doc).Yields fun detail _ =>
      Tells doc label detail) clauses clauses := by
    refine List.forall₂_same.mpr fun clause member => ?_
    obtain ⟨detail, tells⟩ := each clause member
    exact ⟨detail, _, Prod.ext tells.explained rfl, tells⟩
  obtain ⟨results, same, holds⟩ := Step.each_yields (fun label result => Tells doc label result.1) single
  exact ⟨results.map (·.1), congrArg Prod.fst same, List.forall₂_map_right_iff.mpr holds⟩

end Explains

variable {P S : Type} [PostingSource P] [Score S] {doc : DocId}

theorem Leaf.IsFresh.explains {leaf : Leaf P S} (fresh : leaf.IsFresh) (real : IsReal doc) :
    Explains leaf doc := by
  cases fresh with
  | term accepted fresh relevance =>
    refine embeds_term.explains rfl (TermScorer.explains _ doc fun landing after sought => ?_)
    obtain ⟨moves, other, state, same, arrival, -⟩ :=
      (TermScorer.denotes accepted relevance fresh).seek_yields real
    rw [moves, same] at sought
    obtain ⟨sameLanding, rfl⟩ := Prod.mk.inj sought
    exact arrival.1.trans (Except.ok.inj sameLanding)
  | exact makes made => exact embeds_exact.explains rfl (ExactPhrase.explains _ doc)
  | sloppy makes made => exact embeds_sloppy.explains rfl (SloppyPhrase.explains _ doc)

theorem Tree.IsClause.tells [Score.IsExact S] {height : Nat} {tree : Tree P S height} (clause : tree.IsClause)
    (real : IsReal doc) : ∃ detail, Tells doc tree detail := by
  refine clause.denotes.tells ?_ real
  cases height with
  | zero => exact Leaf.IsFresh.explains clause real
  | succ height =>
    rcases clause with ⟨leaf, fresh, rfl⟩ | ⟨query, scorer, clauses, built, rfl⟩
    · exact (embeds_leaf height).explains rfl (fresh.explains real)
    · exact (embeds_boolean height).explains rfl (scorer.explains doc)

namespace BooleanQuery

section Combine

variable {σ : Type} {query : BooleanQuery S σ} {required optional prohibited : List (Explanation S)}

omit [PostingSource P] in
theorem requiredDetails_eq (all : ∀ detail ∈ required, detail.matched = true) :
    requiredDetails required = required := by
  have same : requiredDetails required = required.zipIdx.map Prod.fst := by
    refine List.map_congr_left fun (detail, i) listed => ?_
    exact if_pos (all detail (List.fst_mem_of_mem_zipIdx listed))
  rw [same, List.zipIdx_map_fst]

theorem prohibitedDetails_eq (none : ∀ detail ∈ prohibited, detail.matched = false) :
    prohibitedDetails prohibited = [] := by
  refine List.filterMap_eq_nil_iff.mpr fun (detail, i) listed => ?_
  have missed := none detail (List.fst_mem_of_mem_zipIdx listed)
  simp only [missed, Bool.false_eq_true, if_false]

omit [Score S] in
theorem nothing_amiss_iff : (required.any (!·.matched) || prohibited.any (·.matched)) = false ↔
    (∀ detail ∈ required, detail.matched = true) ∧ ∀ detail ∈ prohibited, detail.matched = false := by
  simp [List.any_eq_false]

structure Fulfilled (query : BooleanQuery S σ) (required optional prohibited : List (Explanation S)) :
    Prop where
  all : ∀ detail ∈ required, detail.matched = true
  none : ∀ detail ∈ prohibited, detail.matched = false
  enough : query.minimum ≤ (optional.filter (·.matched)).length
  some : required ++ optional.filter (·.matched) ≠ []

omit [Score S] in
theorem fulfilled_iff : Fulfilled query required optional prohibited ↔
    (required.filter (·.matched)).length = required.length ∧ (prohibited.filter (·.matched)).length = 0 ∧
      query.minimum ≤ (optional.filter (·.matched)).length ∧
      (required.length = 0 → 0 < (optional.filter (·.matched)).length) := by
  rw [List.length_filter_eq_length_iff, List.length_eq_zero_iff, List.filter_eq_nil_iff, List.length_eq_zero_iff,
    List.length_pos_iff]
  constructor
  · rintro ⟨all, none, enough, some⟩
    refine ⟨all, fun detail listed => by simp [none detail listed], enough, fun empty nothing => some ?_⟩
    rw [empty, nothing, List.nil_append]
  · rintro ⟨all, none, enough, some⟩
    refine ⟨all, fun detail listed => by simpa using none detail listed, enough, fun nothing => ?_⟩
    obtain ⟨empty, unmatched⟩ := List.append_eq_nil_iff.mp nothing
    exact some empty unmatched

def sumOf (details : List (Explanation S)) : Explanation S :=
  ⟨Score.sum (details.map (·.value)), "sum of:", true, details⟩

def productOf (query : BooleanQuery S σ) (details : List (Explanation S)) : Explanation S :=
  let overlap := details.length
  let largest := query.table.largest
  let factor := query.table.factor overlap
  .matching ((sumOf details).value * factor) "product of:"
    [sumOf details, .matching factor s!"coord({overlap}/{largest})" []]

theorem combine_of_fulfilled [Score.IsExact S] (fulfilled : Fulfilled query required optional prohibited) :
    query.combine required optional prohibited =
      if Score.isOne (query.table.factor (required ++ optional.filter (·.matched)).length) then
        sumOf (required ++ optional.filter (·.matched))
      else query.productOf (required ++ optional.filter (·.matched)) := by
  obtain ⟨all, none, enough, some⟩ := fulfilled
  have details : requiredDetails required ++ optional.filter (·.matched) ++ prohibitedDetails prohibited =
      required ++ optional.filter (·.matched) := by
    rw [requiredDetails_eq all, prohibitedDetails_eq none, List.append_nil]
  have allowed := nothing_amiss_iff.mpr ⟨all, none⟩
  have sum : (required ++ optional.filter (·.matched)).foldl (fun sum detail => sum + detail.value) Score.zero =
      Score.sum ((required ++ optional.filter (·.matched)).map (·.value)) := by
    rw [← List.foldl_map, Score.foldl_add, Score.IsExact.zero_add]
  have positive := List.length_pos_of_ne_nil some
  have counted : ((required ++ optional.filter (·.matched)).length == 0) = false :=
    beq_false_of_ne positive.ne'
  unfold combine
  simp only [details, allowed, Bool.false_eq_true, if_false, if_neg (not_lt.mpr enough), sum, counted, positive,
    Bool.or_false, decide_true]
  rfl

theorem combine_of_not_fulfilled (missing : ¬Fulfilled query required optional prohibited) :
    (query.combine required optional prohibited).matched = false ∧
      (query.combine required optional prohibited).value = Score.zero := by
  unfold combine
  cases amiss : required.any (!·.matched) || prohibited.any (·.matched) with
  | true =>
    simp only [if_true]
    exact ⟨rfl, rfl⟩
  | false =>
    obtain ⟨all, none⟩ := nothing_amiss_iff.mp amiss
    by_cases few : (optional.filter (·.matched)).length < query.minimum
    · simp only [Bool.false_eq_true, if_false, if_pos few]
      exact ⟨rfl, rfl⟩
    · have nothing : required ++ optional.filter (·.matched) = [] := by
        by_contra some
        exact missing ⟨all, none, not_lt.mp few, some⟩
      simp only [Bool.false_eq_true, if_false, if_neg few, nothing, List.length_nil, beq_self_eq_true,
        Bool.or_true, if_true]
      exact ⟨rfl, rfl⟩

end Combine

section Clauses

variable {σ : Type} [Scorer S σ] {query : BooleanQuery S σ} {clauses : List σ} {details : List (Explanation S)}

theorem details_of_matching (tell : List.Forall₂ (Tells doc) clauses details) :
    List.Forall₂ (Tells doc) (clauses.filter (matchesOn · doc)) (details.filter (·.matched)) :=
  List.rel_filter (fun _ _ tells => by simp only [tells.matched]) tell

theorem sumOf_value (tell : List.Forall₂ (Tells doc) clauses details)
    (matching : ∀ clause ∈ clauses, matchesOn clause doc = true) :
    (sumOf details).value = Score.sum (clauses.map (scoreOn · doc)) := by
  refine congrArg Score.sum ?_
  induction tell with
  | nil => rfl
  | cons tells _ ih =>
    obtain ⟨first, rest⟩ := List.forall_mem_cons.mp matching
    rw [List.map_cons, List.map_cons, ih rest, tells.value, if_pos first]

theorem explain_eq (valid : query.settings.validate = .ok ()) {required optional prohibited : List (Explanation S)}
    (must : (Step.each (Scorer.explain · doc) query.required).1 = .ok required)
    (should : (Step.each (Scorer.explain · doc) query.optional).1 = .ok optional)
    (mustNot : (Step.each (Scorer.explain · doc) query.prohibited).1 = .ok prohibited) :
    query.explain doc = .ok (query.combine required optional prohibited) := by
  rw [BooleanQuery.explain, valid]
  simp only [must, should, mustNot]
  rfl

end Clauses

section Selected

variable {σ : Type} [Scorer S σ] {query : BooleanQuery S σ}

theorem fulfilled_iff_selected (real : IsReal doc) {required optional prohibited : List (Explanation S)}
    (must : List.Forall₂ (Tells doc) query.required required)
    (should : List.Forall₂ (Tells doc) query.optional optional)
    (mustNot : List.Forall₂ (Tells doc) query.prohibited prohibited) :
    Fulfilled query required optional prohibited ↔
      doc ∈ Meaning.selected (query.required.map Meaning.observed) (query.optional.map Meaning.observed)
        (query.prohibited.map Meaning.observed) query.minimum := by
  rw [fulfilled_iff, Meaning.mem_selected, and_iff_right real, ← (details_of_matching must).length_eq,
    ← (details_of_matching should).length_eq, ← (details_of_matching mustNot).length_eq, ← must.length_eq]
  simp only [Meaning.matching_observed _ real, List.length_map]

theorem scoring_details {required optional : List (Explanation S)}
    (must : List.Forall₂ (Tells doc) query.required required)
    (should : List.Forall₂ (Tells doc) query.optional optional) :
    List.Forall₂ (Tells doc) (query.scoring doc) (required ++ optional.filter (·.matched)) :=
  List.rel_append must (details_of_matching should)

theorem coordinatedSum_eq_exactScore (real : IsReal doc)
    (member : doc ∈ Meaning.selected (query.required.map Meaning.observed)
      (query.optional.map Meaning.observed) (query.prohibited.map Meaning.observed) query.minimum) :
    Meaning.coordinatedSum ((query.required ++ query.optional).map Meaning.observed) query.table doc =
      query.exactScore doc := by
  rw [Meaning.coordinatedSum_observed _ real, filter_eq_scoring member, exactScore]

theorem explained_value [Score.IsExact S] [Score.TellsOne S] {details : List (Explanation S)}
    (tell : List.Forall₂ (Tells doc) (query.scoring doc) details)
    (matching : ∀ clause ∈ query.scoring doc, matchesOn clause doc = true) :
    (if Score.isOne (query.table.factor details.length) then sumOf details
      else query.productOf details).value = query.exactScore doc := by
  have sum := sumOf_value tell matching
  have overlap := tell.length_eq
  split
  next one =>
    rw [Score.TellsOne.isOne_iff] at one
    rw [exactScore, overlap, one, Score.IsExact.mul_one, sum]
  next =>
    change (sumOf details).value * _ = _
    rw [exactScore, overlap, sum]

end Selected

/-- The scorer of a query yields exactly the documents that are explained as matches, and scores them as
explained. The explanation of a match has one detail for each clause that matches, in the order of the
required and then the optional ones. The sum over them stands inside a product where the factor for their
number is not one. -/
theorem explanation_agrees_with_scorer [Score.IsExact S] [Score.TellsOne S] {height : Nat}
    {query : BooleanQuery S (Tree P S height)} (clauses : ∀ clause ∈ query.clauses, clause.IsClause)
    (valid : query.settings.validate = .ok ()) :
    ∃ scorer, query.build.outcome = .ok scorer ∧ ∀ doc, IsReal doc →
      ∃ explanation, query.explain doc = .ok explanation ∧
        (explanation.matched = true ↔ ∃ state, Reaches scorer state ∧ Cursor.doc state = doc) ∧
        (explanation.matched = false → explanation.value = Score.zero) ∧
        (explanation.matched = true →
          (∀ state, Reaches scorer state → Cursor.doc state = doc →
            (Scorer.score state).Yields fun answer _ => answer = explanation.value) ∧
          ∃ details,
            List.Forall₂ (Tells doc) ((query.required ++ query.optional).filter (matchesOn · doc)) details ∧
            (query.table.factor details.length = Score.one → explanation = sumOf details) ∧
            (query.table.factor details.length ≠ Score.one → explanation = query.productOf details)) := by
  obtain ⟨scorer, meaning, built, denotes, documents, totals⟩ :=
    build_totals (fun clause member => (clauses clause member).denotes) valid
  refine ⟨scorer, built, fun doc real => ?_⟩
  have tell : ∀ group : List (Tree P S height), group ⊆ query.clauses →
      ∃ details, (Step.each (Scorer.explain · doc) group).1 = .ok details ∧
        List.Forall₂ (Tells doc) group details := fun group within =>
    exists_details fun clause member => (clauses clause (within member)).tells real
  obtain ⟨required, mustSame, must⟩ :=
    tell query.required fun _ member => List.mem_append_left _ (List.mem_append_left _ member)
  obtain ⟨optional, shouldSame, should⟩ :=
    tell query.optional fun _ member => List.mem_append_left _ (List.mem_append_right _ member)
  obtain ⟨prohibited, mustNotSame, mustNot⟩ :=
    tell query.prohibited fun _ member => List.mem_append_right _ member
  have selected := fulfilled_iff_selected real must should mustNot
  refine ⟨query.combine required optional prohibited, explain_eq valid mustSame shouldSame mustNotSame, ?_⟩
  rw [denotes.yields_iff real, documents, ← selected]
  -- What is missing for a match and what keeps a document from being selected are the same counts.
  by_cases fulfilled : Fulfilled query required optional prohibited
  · have member := selected.mp fulfilled
    have details := scoring_details must should
    have matching := filter_eq_scoring member
    have all : ∀ clause ∈ query.scoring doc, matchesOn clause doc = true := fun clause listed => by
      rw [← matching] at listed
      exact (List.mem_filter.mp listed).2
    have value := explained_value details all
    rw [combine_of_fulfilled fulfilled]
    have matched : (if Score.isOne (query.table.factor (required ++ optional.filter (·.matched)).length) then
        sumOf (required ++ optional.filter (·.matched))
      else query.productOf (required ++ optional.filter (·.matched))).matched = true := by
      split
      next => rfl
      next => rfl
    refine ⟨iff_of_true matched fulfilled, fun unmatched => ?_, fun _ => ⟨?_, _, matching ▸ details, ?_, ?_⟩⟩
    · rw [matched] at unmatched
      cases unmatched
    · rintro state reached rfl
      rw [value, ← coordinatedSum_eq_exactScore real member]
      exact ((denotes.refines state reached).score (documents ▸ member)).mono fun answer after scored =>
        (totals _ (documents ▸ member)).1 answer scored.1
    · intro one
      rw [if_pos ((Score.TellsOne.isOne_iff _).mpr one)]
    · intro other
      rw [if_neg fun one => other ((Score.TellsOne.isOne_iff _).mp one)]
  · obtain ⟨unmatched, worthless⟩ := combine_of_not_fulfilled fulfilled
    refine ⟨iff_of_false (by rw [unmatched]; decide) fulfilled, fun _ => worthless, fun matched => ?_⟩
    rw [unmatched] at matched
    cases matched

/-- Document 5 has one of two terms, so its sum is explained inside a product. -/
theorem half_match_is_explained_by_product :
    ∃ scorer explanation details, eitherTerm.build.outcome = .ok scorer ∧
      eitherTerm.explain 5 = .ok explanation ∧ (∃ state, Reaches scorer state ∧ Cursor.doc state = 5) ∧
      explanation = eitherTerm.productOf details ∧ details.length = 1 := by
  have onFive : Posting.Accepted [.ofDoc 5] := ⟨rfl, by decide⟩
  have onSeven : Posting.Accepted [.ofDoc 7] := ⟨rfl, by decide⟩
  have five : (lone 5).IsFresh := .term onFive (PostingList.standsAt rfl) _
  have seven : (lone 7).IsFresh := .term onSeven (PostingList.standsAt rfl) _
  have clauses : ∀ clause ∈ eitherTerm.clauses, clause.IsClause :=
    List.forall_mem_cons.mpr ⟨five, List.forall_mem_singleton.mpr seven⟩
  obtain ⟨scorer, built, explains⟩ :=
    explanation_agrees_with_scorer clauses (show eitherTerm.settings.validate = .ok () from rfl)
  obtain ⟨explanation, explained, yields, -, whole⟩ := explains 5 (by decide)
  have matched : explanation.matched = true := by
    have computed : (eitherTerm.explain 5).map (·.matched) = .ok true := by decide +kernel
    rw [explained] at computed
    exact Except.ok.inj computed
  obtain ⟨-, details, tell, -, product⟩ := whole matched
  have one : details.length = 1 := tell.length_eq.symm.trans (by decide +kernel)
  refine ⟨scorer, explanation, details, built, explained, yields.mp matched, product ?_, one⟩
  rw [one]
  decide +kernel

end BooleanQuery

end PostingQuery
