import Mathlib
import PostingQuery.Proofs.ExactScore
import PostingQuery.Proofs.Stagger
import PostingQuery.Proofs.Term

/-!
Conjunctions of parts that have been moved before. Each part waits where it was put in until the conjunction gets
there, so on every document it stands there or further on, where it was put in. A document that a follower had passed
before the conjunction was made is let through, whether the follower has it or not.
-/

namespace PostingQuery

namespace Conjunction

variable {S σ : Type} [Scorer S σ]

def IsPlacedAt (part : Meaning S × DocId) (scorer : σ) : Prop := Refines scorer part.1 ∧ Cursor.doc scorer = part.2

def admittedDocs (lead : Meaning S) (parts : List (Meaning S × DocId)) : Finset DocId :=
  lead.docs.filter fun doc => ∀ part ∈ parts, doc ∈ part.1.docs ∨ doc < part.2

theorem admitted_admittedDocs (lead : Meaning S) (parts : List (Meaning S × DocId)) :
    Admitted (admittedDocs lead parts) lead parts :=
  fun _ => Finset.mem_filter

theorem ofList_staggered {parts : List (Meaning S × DocId)} {scorers : List σ}
    (placed : List.Forall₂ IsPlacedAt parts scorers) (live : ∀ part ∈ parts, part.2 ≠ noMoreDocs) {factor : S}
    {made : Conjunction S σ} (same : ofList scorers factor = .ok made) :
    ∃ lead followers, (lead :: followers).Perm parts ∧ made.doc = unpositioned ∧
      IsPlacedAt lead made.lead.scorer ∧
      List.Forall₂ IsPlacedAt followers (made.followers.map (·.scorer)) ∧
      Staggered (fun meaning scorer => Refines scorer meaning) lead.1 followers factor false made := by
  have noted : List.Forall₂ (fun part (place : Placed σ) =>
      IsPlacedAt part place.scorer ∧ place.doc = Cursor.doc place.scorer) parts (scorers.map Placed.ofScorer) :=
    List.forall₂_map_right_iff.mpr (placed.imp fun _ _ stands => ⟨stands, rfl⟩)
  obtain ⟨order, perm, sorted⟩ := forall₂_sort
    (fun a b : Placed σ => decide (Cursor.cost a.scorer ≤ Cursor.cost b.scorer)) noted
  unfold ofList at same
  dsimp only at same
  generalize StableSort.sort _ (scorers.map Placed.ofScorer) = places at sorted same
  cases sorted with
  | nil => cases same
  | @cons leadPart lead order followers leads follow =>
    cases same
    obtain ⟨leadStands, leadNoted⟩ := leads
    have leadLive : lead.doc ≠ noMoreDocs := by
      rw [leadNoted, leadStands.2]
      exact live leadPart (perm.mem_iff.mp List.mem_cons_self)
    have trailing : List.Forall₂ (fun part place => Placed.Trails (fun meaning scorer => Refines scorer meaning)
        unpositioned part place) order followers :=
      follow.imp fun part place ⟨stands, noted⟩ => ⟨⟨noted, stands.1⟩, (noted.trans stands.2).ge,
        (noted.trans stands.2).le.trans (le_max_right _ _)⟩
    refine ⟨leadPart, order, perm, rfl, leadStands, ?_, ⟨leadNoted, leadStands.1⟩, .inr ⟨rfl, leadLive⟩, trailing,
      fun _ place member => ?_, rfl, rfl⟩
    · exact List.forall₂_map_right_iff.mpr (follow.imp fun _ _ both => both.1)
    · obtain ⟨part, -, stands, noted⟩ := exists_partner follow.flip member
      exact noted ▸ stands.1.le_doc

variable [Score S]

theorem Staggered.step {holds : Meaning S → σ → Prop} (invariant : ∀ part, Invariant part (holds part))
    {lead : Meaning S} {parts : List (Meaning S × DocId)} (live : ∀ part ∈ parts, part.2 < noMoreDocs) {factor : S}
    {counting : Bool} {before after : Conjunction S σ}
    (staggered : Staggered holds lead parts factor counting before) (step : LegalStep before after) :
    Staggered holds lead parts factor counting after := by
  have admitted := admitted_admittedDocs lead parts
  have scored : IsReal before.doc → Staggered holds lead parts factor counting before.scoreCounting.2 := by
    intro real
    obtain ⟨answer, state, same, -, kept⟩ := staggered.scoreCounting_yields invariant live real
    rwa [same]
  cases step with
  | next unfinished =>
    obtain ⟨landing, state, same, -, kept⟩ := staggered.next_yields invariant admitted unfinished
    change Staggered holds lead parts factor counting before.next.2
    rwa [same]
  | advance target beyond inside =>
    obtain ⟨landing, state, same, -, kept⟩ := staggered.advance_yields invariant admitted beyond inside
    change Staggered holds lead parts factor counting (before.advance target).2
    rwa [same]
  | score real => exact scored real
  | tally real => exact scored real

theorem Staggered.of_reaches {holds : Meaning S → σ → Prop} (invariant : ∀ part, Invariant part (holds part))
    {lead : Meaning S} {parts : List (Meaning S × DocId)} (live : ∀ part ∈ parts, part.2 < noMoreDocs) {factor : S}
    {counting : Bool} {start state : Conjunction S σ}
    (staggered : Staggered holds lead parts factor counting start) (reached : Reaches start state) :
    Staggered holds lead parts factor counting state := by
  induction reached with
  | refl => exact staggered
  | tail _ step ih => exact ih.step invariant live step

omit [Score S] in
theorem together_iff {followers : List (Meaning S × DocId)} {state : Conjunction S σ}
    (leads : Cursor.doc state.lead.scorer = state.doc)
    (waits : List.Forall₂ (fun part place => Cursor.doc place.scorer = max state.doc part.2) followers state.followers) :
    (∀ place ∈ state.parts, Cursor.doc place.scorer = state.doc) ↔ ∀ part ∈ followers, part.2 ≤ state.doc := by
  constructor
  · intro together part member
    obtain ⟨place, listed, here⟩ := exists_partner waits member
    rw [together place (List.mem_cons_of_mem _ listed)] at here
    exact max_eq_left_iff.mp here.symm
  · intro passed place member
    rcases List.mem_cons.mp member with rfl | listed
    · exact leads
    · obtain ⟨part, partListed, here⟩ := exists_partner waits.flip listed
      exact here.trans (max_eq_left (passed part partListed))

/-- However a legal walk leads a conjunction, its lead stands on each document that it lands on, and a follower stands
there or, if it was put in further on, where it was put in. The walk lands on exactly the documents that the lead has
and that each follower has or had passed from the outset. -/
theorem parts_stand_on_document_or_further_on {parts : List (Meaning S × DocId)} {scorers : List σ}
    (placed : List.Forall₂ IsPlacedAt parts scorers) (live : ∀ part ∈ parts, part.2 ≠ noMoreDocs) {factor : S}
    {made : Conjunction S σ} (same : ofList scorers factor = .ok made) :
    ∃ lead followers, (lead :: followers).Perm parts ∧ IsPlacedAt lead made.lead.scorer ∧
      List.Forall₂ IsPlacedAt followers (made.followers.map (·.scorer)) ∧
      ∃ docs, Admitted docs lead.1 followers ∧ ∀ counting state, Reaches { made with counting } state →
        (Cursor.doc state ≠ noMoreDocs →
          (Cursor.next state).Yields (Arrival docs (Cursor.doc state.lead.scorer + 1))) ∧
        (∀ target, Cursor.doc state < target → target ≤ noMoreDocs →
          (Cursor.advance state target).Yields (Arrival docs (max target (Cursor.doc state.lead.scorer)))) ∧
        (IsReal (Cursor.doc state) →
          Cursor.doc state.lead.scorer = Cursor.doc state ∧
          List.Forall₂ (fun part place => Cursor.doc place.scorer = max (Cursor.doc state) part.2) followers
            state.followers ∧
          ((∀ place ∈ state.parts, Cursor.doc place.scorer = Cursor.doc state) ↔
            ∀ part ∈ followers, part.2 ≤ Cursor.doc state)) := by
  obtain ⟨lead, followers, perm, -, leadStands, stand, fresh⟩ := ofList_staggered placed live same
  have admitted := admitted_admittedDocs lead.1 followers
  have before : ∀ part ∈ followers, part.2 < noMoreDocs := by
    intro part member
    have listed := perm.mem_iff.mp (List.mem_cons_of_mem lead member)
    obtain ⟨scorer, -, refines, here⟩ := exists_partner placed listed
    exact lt_of_le_of_ne (here ▸ refines.doc_le) (live part listed)
  refine ⟨lead, followers, perm, leadStands, stand, admittedDocs lead.1 followers, admitted,
    fun counting state reached => ?_⟩
  have start : Staggered (fun meaning scorer => Refines scorer meaning) lead.1 followers factor counting
      { made with counting } := { fresh with counting := rfl }
  have staggered := start.of_reaches Refines.invariant before reached
  have noted := staggered.lead.noted
  refine ⟨fun unfinished => ?_, fun target beyond inside => ?_, fun real => ?_⟩
  · rw [← noted]
    exact (staggered.next_yields Refines.invariant admitted unfinished).mono fun _ _ both => both.1
  · rw [← noted]
    exact (staggered.advance_yields Refines.invariant admitted beyond inside).mono fun _ _ both => both.1
  · have leads : Cursor.doc state.lead.scorer = state.doc := noted.symm.trans (staggered.lead_doc real)
    have waits : List.Forall₂ (fun part place => Cursor.doc place.scorer = max state.doc part.2) followers
        state.followers := by
      rw [List.forall₂_iff_get]
      refine ⟨staggered.followers.length_eq, fun i inParts inFollowers => ?_⟩
      have trails := staggered.followers.get inParts inFollowers
      have reached := staggered.level real.ne_noMoreDocs _ (List.get_mem state.followers ⟨i, inFollowers⟩)
      exact trails.follows.noted.symm.trans (trails.doc_eq reached)
    exact ⟨leads, waits, together_iff leads waits⟩

/-- A term on 1 and 5 leads, and one on 3, 5 and 9 has been moved to 5 before. The conjunction lands on 1, which the
second term does not have and where it does not stand. -/
theorem follower_waits_further_on :
    ∃ (moved : TermScorer PostingList ℚ) (made after : Conjunction ℚ (TermScorer PostingList ℚ)),
      Cursor.advance (⟨.fresh [.ofDoc 3, .ofDoc 5, .ofDoc 9], .constant 1 1⟩ : TermScorer PostingList ℚ) 5 =
        (.ok 5, moved) ∧
      ofList [⟨.fresh [.ofDoc 1, .ofDoc 5], .constant 3 1⟩, moved] 1 = .ok made ∧
      Cursor.next made = (.ok 1, after) ∧ after.parts.map (fun place => Cursor.doc place.scorer) = [1, 5] := by
  refine ⟨_, _, _, Prod.ext ?_ rfl, rfl, Prod.ext ?_ rfl, ?_⟩
  all_goals decide +kernel

end Conjunction

end PostingQuery
