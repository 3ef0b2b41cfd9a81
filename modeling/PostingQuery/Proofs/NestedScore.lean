import Mathlib
import PostingQuery.Proofs.ExactPhrase
import PostingQuery.Proofs.ExactScore
import PostingQuery.Proofs.Search
import PostingQuery.Proofs.SloppyPhrase
import PostingQuery.Tree

/-!
The scores of nested queries. The clauses of a query are fresh terms and phrases, and queries that were built
out of such clauses themselves. Each clause means what it answers when it is moved straight to a document, so
the score of a query can be told by its clauses alone, however deep they are nested.
-/

namespace PostingQuery

namespace Scorer

variable {S σ : Type} [Score S] [Scorer S σ]

def matchesOn (scorer : σ) (doc : DocId) : Bool :=
  match Cursor.advance scorer doc with
  | (.ok landing, _) => landing == doc
  | (.error _, _) => false

def scoreOn (scorer : σ) (doc : DocId) : S :=
  match score (Cursor.advance scorer doc).2 with
  | (.ok value, _) => value
  | (.error _, _) => Score.zero

end Scorer

open Scorer

namespace Meaning

variable {S σ : Type} [Score S] [Scorer S σ]

/-- One clause of a query, which means what it answers when it is moved straight to a document. -/
noncomputable def observed (scorer : σ) : Meaning S :=
  { leaf (allDocs.filter fun doc => matchesOn scorer doc)
      (fun _ member => mem_allDocs.mp (Finset.mem_filter.mp member).1) (scoreOn scorer) with
    counts := fun _ _ => True }

theorem mem_observed {scorer : σ} {doc : DocId} :
    doc ∈ (observed scorer).docs ↔ IsReal doc ∧ matchesOn scorer doc = true := by
  rw [← mem_allDocs]
  exact Finset.mem_filter

theorem value_observed (scorer : σ) (doc : DocId) : (observed scorer).value doc = scoreOn scorer doc :=
  Classical.epsilon_spec (p := (observed scorer).scores doc) ⟨scoreOn scorer doc, rfl⟩

theorem observed_plain (scorer : σ) : (observed scorer).Plain where
  valued doc _ answer scored := scored.trans (value_observed scorer doc).symm
  uncounted doc _ answer tallied := by
    rw [value_observed]
    exact tallied

variable {doc : DocId} (clauses : List σ)

theorem matching_observed (real : IsReal doc) :
    matching (clauses.map observed) doc = (clauses.filter (matchesOn · doc)).map observed := by
  have has : ∀ clause : σ, doc ∈ (observed clause).docs ↔ matchesOn clause doc = true := fun clause => by
    rw [mem_observed, and_iff_right real]
  rw [matching, List.filter_map]
  refine congrArg (List.map observed) (List.filter_congr fun clause _ => ?_)
  rw [Bool.eq_iff_iff, Function.comp_apply, decide_eq_true_iff]
  exact has clause

theorem coordinatedSum_observed (real : IsReal doc) (table : CoordinationTable S) :
    coordinatedSum (clauses.map observed) table doc =
      Score.sum ((clauses.filter (matchesOn · doc)).map (scoreOn · doc)) *
        table.factor (clauses.filter (matchesOn · doc)).length := by
  have each : (fun clause : σ => (observed clause).value doc) = (scoreOn · doc) :=
    funext fun clause => value_observed clause doc
  rw [coordinatedSum, values, matching_observed clauses real, List.length_map, List.map_map]
  exact congrArg (fun score => Score.sum (List.map score _) * _) each

end Meaning

namespace Denotes

variable {S σ : Type} [Score S] [Scorer S σ] {scorer : σ} {meaning : Meaning S} {doc : DocId}

omit [Score S] in
theorem matchesOn_iff (denotes : Denotes scorer meaning) (real : IsReal doc) :
    matchesOn scorer doc = true ↔ doc ∈ meaning.docs := by
  obtain ⟨landing, after, same, arrival, -⟩ := denotes.refines.advance (denotes.doc_lt real) real.2.le
  rw [matchesOn, same, ← arrival.2.eq_low_iff real.2]
  exact beq_iff_eq

theorem scores_scoreOn (denotes : Denotes scorer meaning) (member : doc ∈ meaning.docs) :
    meaning.scores doc (scoreOn scorer doc) := by
  have real := meaning.real doc member
  obtain ⟨landing, after, same, arrival, refines⟩ := denotes.refines.advance (denotes.doc_lt real) real.2.le
  have here : Cursor.doc after = doc := arrival.1.trans ((arrival.2.eq_low_iff real.2).mpr member)
  obtain ⟨value, scored, sameScore, ⟨answers, -⟩, -⟩ := refines.score (here ▸ member)
  rw [scoreOn, same, sameScore]
  exact here ▸ answers

theorem observed (denotes : Denotes scorer meaning) {value : DocId → S}
    (scores : ∀ doc ∈ meaning.docs, ∀ answer, meaning.scores doc answer → answer = value doc)
    (tallies : ∀ doc ∈ meaning.docs, ∀ answer, meaning.tallies doc answer → answer = (value doc, 0)) :
    Denotes scorer (Meaning.observed scorer) := by
  have same : ∀ doc ∈ meaning.docs, scoreOn scorer doc = value doc := fun doc member =>
    scores doc member _ (denotes.scores_scoreOn member)
  refine denotes.mono ?_ (fun doc member answer scored => ?_) (fun doc member answer tallied => ?_)
    fun _ _ _ _ => trivial
  · ext doc
    rw [Meaning.mem_observed]
    constructor
    · exact fun member => ⟨meaning.real doc member, (denotes.matchesOn_iff (meaning.real doc member)).mpr member⟩
    · exact fun ⟨real, here⟩ => (denotes.matchesOn_iff real).mp here
  · exact (scores doc member answer scored).trans (same doc member).symm
  · change answer = (scoreOn scorer doc, 0)
    rw [same doc member]
    exact tallies doc member answer tallied

theorem observed_of_leaf {docs : Finset DocId} {real : ∀ doc ∈ docs, IsReal doc} {value : DocId → S}
    (denotes : Denotes scorer (.leaf docs real value)) : Denotes scorer (Meaning.observed scorer) :=
  denotes.observed (fun _ _ _ scored => scored) fun _ _ _ tallied => tallied

end Denotes

namespace BooleanQuery

variable {S σ : Type} [Score S] [Score.IsExact S] [Scorer S σ] {query : BooleanQuery S σ}

def clauses (query : BooleanQuery S σ) : List σ := query.required ++ query.optional ++ query.prohibited

open Meaning in
theorem build_totals (denote : ∀ clause ∈ query.clauses, Denotes clause (observed clause))
    (valid : query.settings.validate = .ok ()) :
    ∃ scorer meaning, query.build.outcome = .ok scorer ∧ Denotes scorer meaning ∧
      meaning.docs = selected (query.required.map observed) (query.optional.map observed)
        (query.prohibited.map observed) query.minimum ∧
      Totals meaning ((query.required ++ query.optional).map observed) query.table := by
  have all : ∀ group : List σ, group ⊆ query.clauses → AllDenote (group.map observed) group := by
    intro group within
    rw [AllDenote, List.forall₂_map_left_iff, List.forall₂_same]
    exact fun clause member => denote clause (within member)
  obtain ⟨scorer, built, denotes⟩ := build_denotes
    (all query.required fun _ member => List.mem_append_left _ (List.mem_append_left _ member))
    (all query.optional fun _ member => List.mem_append_left _ (List.mem_append_right _ member))
    (all query.prohibited fun _ member => List.mem_append_right _ member) valid
  have plain : ∀ clause ∈ query.required.map observed ++ query.optional.map observed, clause.Plain := by
    rw [← List.map_append]
    exact List.forall_mem_map.mpr fun clause _ => observed_plain clause
  refine ⟨scorer, _, built, denotes, ofPlan_docs query (by simp) (by simp) (by simp), ?_⟩
  rw [List.map_append]
  exact ofPlan_totals query (by simp) (by simp) (fun clause member => (plain clause member).valued) fun _ => plain

omit [Score.IsExact S] in
theorem valid_of_build {scorer : BooleanScorer S σ} (built : query.build.outcome = .ok scorer) :
    query.settings.validate = .ok () := by
  rw [build, Logged.outcome_bind, Logged.outcome_lift] at built
  cases valid : query.settings.validate with
  | ok => rfl
  | error failure =>
    rw [valid] at built
    cases built

def scoring (query : BooleanQuery S σ) (doc : DocId) : List σ :=
  query.required ++ query.optional.filter (matchesOn · doc)

def exactScore (query : BooleanQuery S σ) (doc : DocId) : S :=
  Score.sum ((query.scoring doc).map (scoreOn · doc)) * query.table.factor (query.scoring doc).length

omit [Score.IsExact S] in
theorem scoring_length_le (query : BooleanQuery S σ) (doc : DocId) :
    (query.scoring doc).length ≤ query.table.largest := by
  rw [table_largest, scoring, List.length_append]
  exact Nat.add_le_add_left (List.length_filter_le _ _) _

omit [Score.IsExact S] in
theorem filter_eq_scoring {doc : DocId} (member : doc ∈ Meaning.selected (query.required.map Meaning.observed)
      (query.optional.map Meaning.observed) (query.prohibited.map Meaning.observed) query.minimum) :
    (query.required ++ query.optional).filter (matchesOn · doc) = query.scoring doc := by
  have all := (Finset.mem_filter.mp member).2.1
  have kept : query.required.filter (matchesOn · doc) = query.required :=
    List.filter_eq_self.mpr fun clause listed =>
      (Meaning.mem_observed.mp (all _ (List.mem_map_of_mem listed))).2
  rw [List.filter_append, kept, scoring]

end BooleanQuery

variable {P S : Type} [PostingSource P] [Score S]

omit [Score S] in
theorem ExactPhrase.valid_of_ofTerms {terms : List (PhraseTerm P)} {relevance : Relevance S} {settings : Settings}
    {phrase : ExactPhrase P S} (made : ofTerms terms relevance settings = .ok phrase) :
    settings.validate = .ok () := by
  cases valid : settings.validate with
  | ok => rfl
  | error failure =>
    rw [ofTerms, valid] at made
    cases made

theorem SloppyPhrase.nonneg_of_ofTerms {parts : List PhrasePart} {terms : List (PhraseTerm P)}
    (makes : PhrasePart.Makes parts terms) {slop : Int} {relevance : Relevance S} {phrase : SloppyPhrase P S}
    (made : (ofTerms terms slop relevance).outcome = .ok phrase) : 0 ≤ slop := by
  by_contra negative
  rw [ofTerms, makes.refusal_eq_none] at made
  simp only [if_pos (not_le.mp negative)] at made
  cases made

namespace Leaf

inductive IsFresh : Leaf P S → Prop where
  | term {postings : List Posting} (accepted : Posting.Accepted postings) {source : P}
      (fresh : StandsAt postings source .unplaced) (relevance : Relevance S) :
      IsFresh (.term ⟨source, relevance⟩)
  | exact {parts : List PhrasePart} {terms : List (PhraseTerm P)} (makes : PhrasePart.Makes parts terms)
      {relevance : Relevance S} {settings : Settings} {phrase : ExactPhrase P S}
      (made : ExactPhrase.ofTerms terms relevance settings = .ok phrase) : IsFresh (.exact phrase)
  | sloppy {parts : List PhrasePart} {terms : List (PhraseTerm P)} (makes : PhrasePart.Makes parts terms)
      {relevance : Relevance S} {slop : Int} {phrase : SloppyPhrase P S}
      (made : (SloppyPhrase.ofTerms terms slop relevance).outcome = .ok phrase) : IsFresh (.sloppy phrase)

theorem embeds_term : Embeds (term : TermScorer P S → Leaf P S) := .of_focus fun _ => rfl

theorem embeds_exact : Embeds (exact : ExactPhrase P S → Leaf P S) := .of_focus fun _ => rfl

theorem embeds_sloppy : Embeds (sloppy : SloppyPhrase P S → Leaf P S) := .of_focus fun _ => rfl

theorem IsFresh.denotes {leaf : Leaf P S} (fresh : leaf.IsFresh) :
    ∃ (docs : Finset DocId) (real : ∀ doc ∈ docs, IsReal doc) (value : DocId → S),
      Denotes leaf (.leaf docs real value) := by
  cases fresh with
  | term accepted fresh relevance =>
    exact ⟨_, _, _, embeds_term.denotes (TermScorer.denotes accepted relevance fresh)⟩
  | @exact _ _ makes relevance _ _ made =>
    obtain ⟨first, same, -, sameMade, denotes⟩ :=
      ExactPhrase.ofTerms_denotes makes relevance (ExactPhrase.valid_of_ofTerms made)
    obtain rfl := Except.ok.inj (sameMade.symm.trans made)
    exact ⟨_, _, _, embeds_exact.denotes denotes⟩
  | @sloppy _ _ makes relevance _ _ made =>
    obtain ⟨last, shape, same, sameMade, denotes, -⟩ :=
      SloppyPhrase.ofTerms_denotes makes (SloppyPhrase.nonneg_of_ofTerms makes made) relevance
    obtain rfl := Except.ok.inj (sameMade.symm.trans made)
    exact ⟨_, _, _, embeds_sloppy.denotes denotes⟩

end Leaf

namespace Tree

/-- A clause of a query: a fresh leaf, or the scorer that was built for a query of such clauses. -/
def IsClause : {height : Nat} → Tree P S height → Prop
  | 0 => Leaf.IsFresh
  | height + 1 => fun tree : Node P S (Tree P S height) =>
    (∃ leaf : Leaf P S, leaf.IsFresh ∧ tree = .leaf leaf) ∨
      ∃ (query : BooleanQuery S (Tree P S height)) (scorer : BooleanScorer S (Tree P S height)),
        (∀ clause ∈ query.clauses, IsClause clause) ∧ query.build.outcome = .ok scorer ∧ tree = .boolean scorer

theorem embeds_leaf (height : Nat) :
    Embeds (τ := Tree P S (height + 1)) (Node.leaf : Leaf P S → Node P S (Tree P S height)) :=
  .of_focus fun _ => rfl

theorem embeds_boolean (height : Nat) :
    Embeds (τ := Tree P S (height + 1)) (Node.boolean : BooleanScorer S (Tree P S height) → _) :=
  .of_focus fun _ => rfl

theorem IsClause.denotes [Score.IsExact S] {height : Nat} {tree : Tree P S height} (clause : tree.IsClause) :
    Denotes tree (Meaning.observed tree) := by
  induction height with
  | zero =>
    obtain ⟨docs, real, value, denotes⟩ := Leaf.IsFresh.denotes clause
    exact denotes.observed_of_leaf
  | succ height ih =>
    rcases clause with ⟨leaf, fresh, rfl⟩ | ⟨query, scorer, clauses, built, rfl⟩
    · obtain ⟨docs, real, value, denotes⟩ := fresh.denotes
      exact ((embeds_leaf height).denotes denotes).observed_of_leaf
    · obtain ⟨same, meaning, sameBuilt, denotes, -, totals⟩ :=
        BooleanQuery.build_totals (fun clause member => ih (clauses clause member))
          (BooleanQuery.valid_of_build built)
      obtain rfl := Except.ok.inj (sameBuilt.symm.trans built)
      exact ((embeds_boolean height).denotes denotes).observed (fun doc member => (totals doc member).1)
        fun doc member => (totals doc member).2

end Tree

namespace BooleanQuery

/-- The score of a document is the sum of the scores of all required clauses and of exactly the optional ones
that have it, times the factor for their number. Nothing is left to count for a query around it. -/
theorem build_scores_matching_clauses [Score.IsExact S] {height : Nat} {query : BooleanQuery S (Tree P S height)}
    (clauses : ∀ clause ∈ query.clauses, clause.IsClause) (valid : query.settings.validate = .ok ()) :
    ∃ scorer, query.build.outcome = .ok scorer ∧ Cursor.doc scorer = unpositioned ∧
      ∀ state, Reaches scorer state → ∀ doc, Cursor.doc state = doc → IsReal doc →
        (∀ clause ∈ query.scoring doc, matchesOn clause doc = true) ∧
        (query.scoring doc).length ≤ query.table.largest ∧
        ((Scorer.score state).Yields fun answer after =>
          answer = query.exactScore doc ∧ Cursor.doc after = doc) ∧
        (Scorer.scoreCounting state).Yields fun answer after =>
          answer = (query.exactScore doc, 0) ∧ Cursor.doc after = doc := by
  obtain ⟨scorer, meaning, built, denotes, documents, totals⟩ :=
    build_totals (fun clause member => (clauses clause member).denotes) valid
  refine ⟨scorer, built, denotes.fresh, ?_⟩
  rintro state reached _ rfl real
  have refines : Refines state meaning := fun later further => denotes.refines later (reached.trans further)
  have member := refines.member_of_real real
  have matching := filter_eq_scoring (documents ▸ member)
  have exact := Meaning.coordinatedSum_observed (query.required ++ query.optional) real query.table
  rw [matching, ← exactScore] at exact
  refine ⟨fun clause listed => ?_, scoring_length_le query _, ?_, ?_⟩
  · rw [← matching] at listed
    exact (List.mem_filter.mp listed).2
  · rw [← exact]
    exact (refines.behaves.score member).mono fun answer after both =>
      ⟨(totals _ member).1 answer both.1, both.2⟩
  · rw [← exact]
    exact (refines.behaves.tally member).mono fun answer after both =>
      ⟨(totals _ member).2 answer both.1, both.2⟩

def lone (doc : DocId) : Leaf PostingList ℚ :=
  .term ⟨.fresh [.ofDoc doc], .constant Score.one Score.one⟩

def eitherTerm : BooleanQuery ℚ (Tree PostingList ℚ 0) :=
  ⟨[], [lone 5, lone 7], [], 0, CoordinationPolicy.share, .standard⟩

def termWith (inner : BooleanScorer ℚ (Tree PostingList ℚ 0)) : BooleanQuery ℚ (Tree PostingList ℚ 1) :=
  ⟨[Node.leaf (lone 5)], [Node.boolean inner], [], 0, CoordinationPolicy.share, .standard⟩

/-- The nested query counts as one clause of two, and the half mark that it gives stays inside. -/
theorem nested_query_counts_as_one_clause :
    ∃ inner outer, eitherTerm.build.outcome = .ok inner ∧ (termWith inner).build.outcome = .ok outer ∧
      (Cursor.advance outer 5).1 = .ok 5 ∧ (Scorer.score (Cursor.advance outer 5).2).1 = .ok (3 / 2) := by
  have onFive : Posting.Accepted [.ofDoc 5] := ⟨rfl, by decide⟩
  have onSeven : Posting.Accepted [.ofDoc 7] := ⟨rfl, by decide⟩
  have five : (lone 5).IsFresh := .term onFive (PostingList.standsAt rfl) _
  have seven : (lone 7).IsFresh := .term onSeven (PostingList.standsAt rfl) _
  have scores : ∀ inner outer, eitherTerm.build.outcome = .ok inner → (termWith inner).build.outcome = .ok outer →
      Cursor.doc (Cursor.advance outer 5).2 = 5 →
      (Scorer.score (Cursor.advance outer 5).2).1 = .ok ((termWith inner).exactScore 5) := by
    intro inner outer built made here
    have parts : ∀ clause ∈ eitherTerm.clauses, clause.IsClause :=
      List.forall_mem_cons.mpr ⟨five, List.forall_mem_singleton.mpr seven⟩
    have clauses : ∀ clause ∈ (termWith inner).clauses, clause.IsClause :=
      List.forall_mem_cons.mpr ⟨.inl ⟨lone 5, five, rfl⟩,
        List.forall_mem_singleton.mpr (.inr ⟨eitherTerm, inner, parts, built, rfl⟩)⟩
    obtain ⟨scorer, same, fresh, walk⟩ :=
      build_scores_matching_clauses clauses (show Settings.standard.validate = .ok () from rfl)
    obtain rfl := Except.ok.inj (same.symm.trans made)
    have moved := LegalStep.advance scorer 5 (by rw [fresh]; decide) (by decide)
    obtain ⟨-, -, ⟨value, after, scored, rfl, -⟩, -⟩ := walk _ (.single moved) 5 here (by decide)
    rw [scored]
  refine ⟨_, _, rfl, rfl, ?_, (scores _ _ rfl rfl ?_).trans (congrArg Except.ok ?_)⟩
  all_goals decide +kernel

end BooleanQuery

end PostingQuery
