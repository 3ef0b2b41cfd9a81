import Mathlib
import PostingQuery.Proofs.ExplainedScore
import PostingQuery.Proofs.PostingWalk
import PostingQuery.Proofs.Reliable

/-!
What explaining makes of documents that are none. A scorer that has not been moved explains a real document as
a match if and only if some walk lands on it. It tells by comparing the document with the place where it comes
to stand, however, and the places before the first document and behind the last one compare like any other.
Whatever scores there is explained as a match. Terms refuse to be scored off their documents; the scorer
without documents does not.
-/

namespace PostingQuery

open Scorer

section Verdict

variable {S σ : Type} [Score S] [Scorer S σ] {scorer after : σ} {doc landing : DocId} {meaning : Meaning S}

def ReportsMatch (scorer : σ) (doc : DocId) : Prop :=
  ∃ explanation, (explain scorer doc).1 = .ok explanation ∧ explanation.matched = true

def IsScored (scorer : σ) : Prop := ∃ value, (score scorer).1 = .ok value

omit [Score S] in
theorem Cursor.seek_behind (behind : doc < Cursor.doc scorer) :
    Cursor.seek scorer doc = (.error (.other (.behindCursor doc (Cursor.doc scorer))), scorer) :=
  if_pos behind

omit [Score S] in
theorem Cursor.seek_here (scorer : σ) : Cursor.seek scorer (Cursor.doc scorer) = (.ok (Cursor.doc scorer), scorer) := by
  rw [Cursor.seek, if_neg (lt_irrefl _), Cursor.reach, if_neg (lt_irrefl _)]

omit [Score S] in
theorem Cursor.seek_ahead (ahead : Cursor.doc scorer < doc) : Cursor.seek scorer doc = Cursor.advance scorer doc := by
  rw [Cursor.seek, if_neg (not_lt.mpr ahead.le), Cursor.reach, if_pos ahead]

omit [Score S] in
theorem Refines.doc_of_seek (refines : Refines scorer meaning) (inside : doc ≤ noMoreDocs)
    (sought : Cursor.seek scorer doc = (.ok landing, after)) : Cursor.doc after = landing := by
  rcases lt_trichotomy doc (Cursor.doc scorer) with behind | rfl | ahead
  · rw [Cursor.seek_behind behind] at sought
    cases sought
  · rw [Cursor.seek_here] at sought
    cases sought
    rfl
  · obtain ⟨other, state, same, arrival, -⟩ := refines.advance ahead inside
    rw [Cursor.seek_ahead ahead, same] at sought
    cases sought
    exact arrival.1

theorem reportsMatch_iff (explains : Explains scorer doc) :
    ReportsMatch scorer doc ↔ ∃ after, Cursor.seek scorer doc = (.ok doc, after) ∧ IsScored after := by
  have gist : ReportsMatch scorer doc ↔
      ∃ value, (explain scorer doc).1.map Explanation.gist = .ok (true, value) := by
    constructor
    · rintro ⟨explanation, explained, matched⟩
      refine ⟨explanation.value, ?_⟩
      rw [explained, ← matched]
      rfl
    · rintro ⟨value, told⟩
      obtain ⟨explanation, explained, same⟩ := exists_of_map_eq_ok told
      exact ⟨explanation, explained, congrArg Prod.fst same⟩
  rw [gist, explains, explainScore]
  rcases Cursor.seek scorer doc with ⟨failure | landing, after⟩
  · simp [Except.map]
  · by_cases here : landing = doc
    · subst here
      rcases scored : score after with ⟨failure | value, later⟩ <;>
        simp [Except.map, IsScored, scored, Step.map, Explanation.gist, Explanation.matching]
    · simp [here, Except.map, Explanation.gist, Explanation.noMatch]

namespace Denotes

theorem reportsMatch_iff_mem (denotes : Denotes scorer meaning) (explains : Explains scorer doc) (real : IsReal doc) :
    (∃ explanation, (explain scorer doc).1 = .ok explanation) ∧ (ReportsMatch scorer doc ↔ doc ∈ meaning.docs) := by
  obtain ⟨sought, landing, after, same, arrival, refines⟩ := denotes.seek_yields real
  rw [same] at sought
  have here : landing = doc ↔ doc ∈ meaning.docs := arrival.2.eq_low_iff real.2
  have scored : doc ∈ meaning.docs → IsScored after := by
    intro member
    have there : Cursor.doc after = doc := arrival.1.trans (here.mpr member)
    obtain ⟨value, later, answered, -, -⟩ := refines.score (there ▸ member)
    exact ⟨value, congrArg Prod.fst answered⟩
  constructor
  · have told : ∃ gist, (explain scorer doc).1.map Explanation.gist = .ok gist := by
      rw [explains, explainScore, sought]
      by_cases member : doc ∈ meaning.docs
      · obtain ⟨value, answered⟩ := scored member
        refine ⟨(true, value), ?_⟩
        simp only [if_pos (here.mpr member), Step.map, answered]
        rfl
      · simp only [if_neg fun landed => member (here.mp landed)]
        exact ⟨_, rfl⟩
    obtain ⟨gist, told⟩ := told
    obtain ⟨explanation, explained, -⟩ := exists_of_map_eq_ok told
    exact ⟨explanation, explained⟩
  · rw [reportsMatch_iff explains, sought]
    constructor
    · rintro ⟨state, landed, -⟩
      exact here.mp (Except.ok.inj (congrArg Prod.fst landed))
    · intro member
      exact ⟨after, by rw [here.mpr member], scored member⟩

theorem reportsMatch_unpositioned_iff (denotes : Denotes scorer meaning) (explains : Explains scorer unpositioned) :
    ReportsMatch scorer unpositioned ↔ IsScored scorer := by
  have sought := Cursor.seek_here scorer
  rw [denotes.fresh] at sought
  rw [reportsMatch_iff explains, sought]
  simp

theorem reportsMatch_noMoreDocs_iff (denotes : Denotes scorer meaning) (explains : Explains scorer noMoreDocs) :
    ReportsMatch scorer noMoreDocs ↔ IsScored (Cursor.advance scorer noMoreDocs).2 := by
  have ahead : Cursor.doc scorer < noMoreDocs := by
    rw [denotes.fresh]
    decide
  obtain ⟨landing, after, same, ⟨there, lands⟩, refines⟩ := denotes.refines.advance ahead le_rfl
  have ended : landing = noMoreDocs := le_antisymm (there ▸ refines.doc_le) lands.reached
  rw [reportsMatch_iff explains, Cursor.seek_ahead ahead, same, ended]
  simp

theorem reportsMatch_cases (denotes : Denotes scorer meaning) (explains : Explains scorer doc)
    (inside : doc ≤ noMoreDocs) :
    ReportsMatch scorer doc ↔
      (IsReal doc ∧ ∃ state, Reaches scorer state ∧ Cursor.doc state = doc) ∨
      (doc = unpositioned ∧ IsScored scorer) ∨
      (doc = noMoreDocs ∧ IsScored (Cursor.advance scorer noMoreDocs).2) := by
  have below : ¬IsReal unpositioned ∧ ¬IsReal noMoreDocs ∧ unpositioned ≠ noMoreDocs := by decide
  rcases lt_trichotomy doc unpositioned with before | rfl | beyond
  · have silent : ¬ReportsMatch scorer doc := by
      rw [reportsMatch_iff explains, Cursor.seek_behind (denotes.fresh ▸ before)]
      simp
    have unreal : ¬IsReal doc := by
      intro real
      have negative : doc < 0 := before.trans (by decide)
      exact absurd real.1 (not_le.mpr negative)
    have other : doc ≠ noMoreDocs := ne_of_lt (before.trans (by decide))
    simp [silent, unreal, before.ne, other]
  · simp [denotes.reportsMatch_unpositioned_iff explains, below]
  · have nonneg : 0 ≤ doc := nonneg_of_unpositioned_lt beyond
    rcases inside.lt_or_eq with live | rfl
    · have real : IsReal doc := ⟨nonneg, live⟩
      rw [(denotes.reportsMatch_iff_mem explains real).2, ← denotes.yields_iff real]
      simp [real, beyond.ne', live.ne]
    · simp [denotes.reportsMatch_noMoreDocs_iff explains, below, below.2.2.symm]

/-- A scorer that tells a score wherever it stands tells of matches on both places that are no documents. -/
theorem reports_false_matches (denotes : Denotes scorer meaning) (explains : ∀ doc, Explains scorer doc)
    (scored : ∀ state : σ, IsScored state) : ReportsMatch scorer unpositioned ∧ ReportsMatch scorer noMoreDocs :=
  ⟨(denotes.reportsMatch_unpositioned_iff (explains _)).mpr (scored _),
    (denotes.reportsMatch_noMoreDocs_iff (explains _)).mpr (scored _)⟩

end Denotes

end Verdict

variable {P S : Type} [PostingSource P] [Score S] {doc : DocId}

theorem Leaf.explains {leaf : Leaf P S} {meaning : Meaning S} (denotes : Denotes leaf meaning)
    (inside : doc ≤ noMoreDocs) : Explains leaf doc := by
  cases leaf with
  | term term =>
    refine embeds_term.explains rfl (TermScorer.explains term doc fun landing after sought => ?_)
    have around := embeds_term.seek term doc
    rw [sought] at around
    exact denotes.refines.doc_of_seek inside around
  | exact phrase => exact embeds_exact.explains rfl (ExactPhrase.explains phrase doc)
  | sloppy phrase => exact embeds_sloppy.explains rfl (SloppyPhrase.explains phrase doc)
  | empty scorer =>
    have embeds : Embeds (empty : EmptyScorer S → Leaf P S) := .of_focus fun _ => rfl
    exact embeds.explains rfl rfl

namespace Tree

theorem IsBuilt.explains {height : Nat} {tree : Tree P S height} (built : IsBuilt height tree)
    (inside : doc ≤ noMoreDocs) : Explains tree doc := by
  cases built with
  | bare denotes => exact Leaf.explains denotes inside
  | leaf denotes => exact (embeds_leaf _).explains rfl (Leaf.explains denotes inside)
  | conjunction _ _ => exact Embeds.explains (.of_focus fun _ => rfl) rfl rfl
  | disjunction _ _ => exact Embeds.explains (.of_focus fun _ => rfl) rfl rfl
  | quorum _ _ => exact Embeds.explains (.of_focus fun _ => rfl) rfl rfl
  | thoroughQuorum _ _ => exact Embeds.explains (.of_focus fun _ => rfl) rfl rfl
  | single _ => exact Embeds.explains (.of_focus fun _ => rfl) rfl rfl
  | exclusion _ _ => exact Embeds.explains (.of_focus fun _ => rfl) rfl rfl
  | bonus _ _ => exact Embeds.explains (.of_focus fun _ => rfl) rfl rfl
  | coordinated _ _ => exact Embeds.explains (.of_focus fun _ => rfl) rfl rfl
  | boolean _ _ => exact (embeds_boolean _).explains rfl (BooleanScorer.explains _ doc)

/-- A built tree tells of a match on a real document if and only if some walk lands on it, and it explains each
of them. On a place that is no document, it tells of a match if and only if it can be scored there. -/
theorem IsBuilt.match_verdict {height : Nat} {tree : Tree P S height} (built : IsBuilt height tree)
    (inside : doc ≤ noMoreDocs) :
    (ReportsMatch tree doc ↔
      (IsReal doc ∧ ∃ state, Reaches tree state ∧ Cursor.doc state = doc) ∨
      (doc = unpositioned ∧ IsScored tree) ∨
      (doc = noMoreDocs ∧ IsScored (Cursor.advance tree noMoreDocs).2)) ∧
    (IsReal doc → ∃ explanation, (explain tree doc).1 = .ok explanation) := by
  obtain ⟨meaning, denotes⟩ := built.reliable.denotes
  have explains := built.explains inside
  exact ⟨denotes.reportsMatch_cases explains inside, fun real => (denotes.reportsMatch_iff_mem explains real).1⟩

end Tree

theorem TermScorer.not_isScored {postings : List Posting} {asked : Nat} {list : PostingList}
    (recites : Recites postings asked list) (off : Cursor.doc list ∉ Posting.docs postings) (relevance : Relevance S) :
    ¬IsScored (TermScorer.mk list relevance) := by
  rintro ⟨value, scored⟩
  have refused : list.freq = .error (.posting .notOnDocument) := (recites.unread off).1
  change list.freq.map _ = _ at scored
  rw [refused] at scored
  cases scored

/-- A term tells of a match on each of its documents and nowhere else. -/
theorem TermScorer.reports_own_documents {postings : List Posting} {list : PostingList}
    (made : PostingList.ofPostings postings = .ok list) (accepted : Posting.Accepted postings)
    (relevance : Relevance S) (inside : doc ≤ noMoreDocs) :
    ReportsMatch (TermScorer.mk list relevance) doc ↔ doc ∈ Posting.docs postings := by
  have denotes := denotes_of_ofPostings made accepted relevance
  have explains : Explains (TermScorer.mk list relevance) doc :=
    TermScorer.explains _ doc fun landing after sought => denotes.refines.doc_of_seek inside sought
  have fresh := PostingList.hasRead_of_ofPostings made
  have nowhere : ∀ place : DocId, ¬IsReal place → place ∉ Posting.docs postings := by
    intro place unreal member
    exact unreal ((meaning accepted relevance).real place member)
  have before : ¬IsScored (TermScorer.mk list relevance) := by
    refine not_isScored (fresh.recites accepted) ?_ relevance
    rw [(PostingList.standsAt made).doc]
    exact nowhere _ (by decide)
  have behind : ¬IsScored (Cursor.advance (TermScorer.mk list relevance) noMoreDocs).2 := by
    refine not_isScored ((fresh.advance noMoreDocs).recites accepted) ?_ relevance
    have ahead : Cursor.doc list < noMoreDocs := by
      rw [(PostingList.standsAt made).doc]
      decide
    obtain ⟨landing, after, same, lands, there⟩ := (fresh.recites accepted).advance noMoreDocs ahead le_rfl
    rw [same, there]
    refine nowhere landing fun real => ?_
    exact absurd real.2 (not_lt.mpr lands.reached)
  rw [denotes.reportsMatch_cases explains inside]
  constructor
  · rintro (⟨real, landed⟩ | ⟨-, scored⟩ | ⟨-, scored⟩)
    · exact (denotes.yields_iff real).mp landed
    · exact absurd scored before
    · exact absurd scored behind
  · intro member
    have real := (meaning accepted relevance).real doc member
    exact .inl ⟨real, (denotes.yields_iff real).mpr member⟩

/-- A disjunction keeps its score from one landing to the next and tells it without a document, too. -/
theorem Disjunction.explains_matches_off_documents {σ : Type} [Scorer S σ] {scorers : List σ}
    (each : ∀ scorer ∈ scorers, Reliable scorer) {aggregation : Aggregation S}
    {coordination : Option (CoordinationTable S)} {made : Disjunction S σ}
    (same : (ofList scorers aggregation coordination).outcome = .ok made) :
    ReportsMatch made unpositioned ∧ ReportsMatch made noMoreDocs := by
  obtain ⟨meaning, denotes⟩ := (Disjunction.reliable each same).1.denotes
  exact denotes.reports_false_matches (fun _ => rfl) fun _ => ⟨_, rfl⟩

/-- No walk of the scorer without documents lands on one, and yet it explains matches before the first document and
behind the last one. -/
theorem EmptyScorer.explains_matches_off_documents :
    (∀ state, Reaches ({} : EmptyScorer S) state → ¬IsReal (Cursor.doc state)) ∧
      ReportsMatch ({} : EmptyScorer S) unpositioned ∧ ReportsMatch ({} : EmptyScorer S) noMoreDocs := by
  have denotes : Denotes ({} : EmptyScorer S) (.ofDocs ∅ nofun) := EmptyScorer.denotes rfl
  refine ⟨fun state reached real => ?_, denotes.reports_false_matches (fun _ => rfl) fun _ => ⟨_, rfl⟩⟩
  exact absurd ((denotes.yields_iff real).mp ⟨state, reached, rfl⟩) (Finset.notMem_empty _)

end PostingQuery
