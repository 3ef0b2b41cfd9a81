import Mathlib
import PostingQuery.Proofs.Walk
import PostingQuery.Scorer.Coordinated
import PostingQuery.Scorer.Single

/-!
Scorers around one other scorer. They take every move over from it and differ in scores and counts only.
-/

namespace PostingQuery

structure Embeds {S σ τ : Type} [Scorer S σ] [Scorer S τ] (wrap : σ → τ) : Prop where
  doc : ∀ part, Cursor.doc (wrap part) = Cursor.doc part
  next : ∀ part, Cursor.next (wrap part) = (Cursor.next part).within wrap
  advance : ∀ part target, Cursor.advance (wrap part) target = (Cursor.advance part target).within wrap
  score : ∀ part, Scorer.score (wrap part) = (Scorer.score part).within wrap
  scoreCounting : ∀ part, Scorer.scoreCounting (wrap part) = (Scorer.scoreCounting part).within wrap
  matchCount : ∀ part, Scorer.matchCount (wrap part) = Scorer.matchCount part

namespace Embeds

variable {S σ τ : Type} [Scorer S σ] [Scorer S τ] {wrap : σ → τ}

theorem invariant (embeds : Embeds wrap) {meaning : Meaning S} {holds : σ → Prop}
    (invariant : Invariant meaning holds) :
    Invariant meaning fun state : τ => ∃ part, wrap part = state ∧ holds part where
  place := by
    rintro _ ⟨part, rfl, here⟩
    rw [embeds.doc]
    exact invariant.place part here
  next := by
    rintro _ ⟨part, rfl, here⟩ live
    rw [embeds.doc] at live ⊢
    rw [embeds.next]
    refine Step.Yields.within ((invariant.next part here live).mono fun landing after kept => ?_)
    exact ⟨⟨(embeds.doc after).trans kept.1.1, kept.1.2⟩, after, rfl, kept.2⟩
  advance := by
    rintro _ target ⟨part, rfl, here⟩ beyond inside
    rw [embeds.doc] at beyond
    rw [embeds.advance]
    refine Step.Yields.within
      ((invariant.advance part target here beyond inside).mono fun landing after kept => ?_)
    exact ⟨⟨(embeds.doc after).trans kept.1.1, kept.1.2⟩, after, rfl, kept.2⟩
  score := by
    rintro _ ⟨part, rfl, here⟩ member
    rw [embeds.doc] at member ⊢
    rw [embeds.score]
    refine Step.Yields.within ((invariant.score part here member).mono fun value after kept => ?_)
    exact ⟨⟨kept.1.1, (embeds.doc after).trans kept.1.2⟩, after, rfl, kept.2⟩
  tally := by
    rintro _ ⟨part, rfl, here⟩ member
    rw [embeds.doc] at member ⊢
    rw [embeds.scoreCounting]
    refine Step.Yields.within ((invariant.tally part here member).mono fun answer after kept => ?_)
    exact ⟨⟨kept.1.1, (embeds.doc after).trans kept.1.2⟩, after, rfl, kept.2⟩
  count := by
    rintro _ ⟨part, rfl, here⟩ member
    rw [embeds.doc] at member ⊢
    rw [embeds.matchCount]
    exact invariant.count part here member

theorem denotes (embeds : Embeds wrap) {meaning : Meaning S} {part : σ} (denotes : Denotes part meaning) :
    Denotes (wrap part) meaning :=
  .of_invariant (embeds.invariant (Refines.invariant meaning)) ⟨part, rfl, denotes.refines⟩
    ((embeds.doc part).trans denotes.fresh)

theorem exists_of_legalStep (embeds : Embeds wrap) {part : σ} {state : τ}
    (step : LegalStep (wrap part) state) : ∃ later, LegalStep part later ∧ wrap later = state := by
  cases step with
  | next live =>
    rw [embeds.doc] at live
    exact ⟨_, .next part live, by rw [embeds.next]; rfl⟩
  | advance target beyond inside =>
    rw [embeds.doc] at beyond
    exact ⟨_, .advance part target beyond inside, by rw [embeds.advance]; rfl⟩
  | score placed =>
    rw [embeds.doc] at placed
    exact ⟨_, .score part placed, by rw [embeds.score]; rfl⟩
  | tally placed =>
    rw [embeds.doc] at placed
    exact ⟨_, .tally part placed, by rw [embeds.scoreCounting]; rfl⟩

theorem exists_of_reaches (embeds : Embeds wrap) {part : σ} {state : τ} (reached : Reaches (wrap part) state) :
    ∃ later, Reaches part later ∧ wrap later = state := by
  induction reached with
  | refl => exact ⟨part, .refl, rfl⟩
  | tail _ step ih =>
    obtain ⟨middle, reached, rfl⟩ := ih
    obtain ⟨later, step, same⟩ := embeds.exists_of_legalStep step
    exact ⟨later, reached.tail step, same⟩

theorem of_focus {υ : Type} {focus : υ → Scorer.Focus S υ} {build : σ → υ}
    (focused : ∀ part, focus (build part) = ⟨part, build⟩) :
    @Embeds S σ υ _ (Scorer.ofFocus focus) build := by
  let _ : Scorer S υ := Scorer.ofFocus focus
  refine ⟨fun part => ?_, fun part => ?_, fun part target => ?_, fun part => ?_, fun part => ?_,
    fun part => ?_⟩
  · change (focus (build part)).scorer.doc (focus (build part)).state = _
    rw [focused]
  · change ((focus (build part)).scorer.next (focus (build part)).state).within
      (focus (build part)).rebuild = _
    rw [focused]
  · change ((focus (build part)).scorer.advance (focus (build part)).state target).within
      (focus (build part)).rebuild = _
    rw [focused]
  · change ((focus (build part)).scorer.score (focus (build part)).state).within
      (focus (build part)).rebuild = _
    rw [focused]
  · change ((focus (build part)).scorer.scoreCounting (focus (build part)).state).within
      (focus (build part)).rebuild = _
    rw [focused]
  · change (focus (build part)).scorer.matchCount (focus (build part)).state = _
    rw [focused]

end Embeds

namespace Meaning

variable {S : Type}

def single (inner : Meaning S) : Meaning S where
  docs := inner.docs
  real := inner.real
  scores := inner.scores
  tallies doc answer := inner.scores doc answer.1 ∧ answer.2 = 1
  counts _ count := count = 1

variable [Score S]

def coordinated (inner : Meaning S) (table : CoordinationTable S) : Meaning S where
  docs := inner.docs
  real := inner.real
  scores doc value := ∃ own, inner.tallies doc own ∧ value = own.1 * table.factor own.2
  tallies doc answer := (∃ own, inner.tallies doc own ∧ answer.1 = own.1 * table.factor own.2) ∧
    answer.2 = 0
  counts := inner.counts

end Meaning

variable {S σ : Type} [Score S] [Scorer S σ] {meaning : Meaning S}

theorem Single.refines_invariant (meaning : Meaning S) :
    Invariant meaning.single fun single : Single σ => Refines single.inner meaning where
  place single refines := refines.place
  next single refines live := Step.Yields.within (refines.next live)
  advance single target refines beyond inside := Step.Yields.within (refines.advance beyond inside)
  score single refines member := Step.Yields.within (refines.score member)
  tally single refines member := by
    refine Step.Yields.map (Step.Yields.within ((refines.score member).mono fun value after holds => ?_))
    exact ⟨⟨⟨holds.1.1, rfl⟩, holds.1.2⟩, holds.2⟩
  count _ _ _ := rfl

theorem Single.denotes {scorer : σ} (denotes : Denotes scorer meaning) :
    Denotes (Single.mk scorer) meaning.single :=
  .of_invariant (refines_invariant meaning) denotes.refines denotes.fresh

theorem Coordinated.invariant {holds : σ → Prop} (invariant : Invariant meaning holds)
    (table : CoordinationTable S) :
    Invariant (meaning.coordinated table) fun root : Coordinated S σ =>
      root.table = table ∧ holds root.inner where
  place root here := invariant.place root.inner here.2
  next root here live := Step.Yields.within
    ((invariant.next root.inner here.2 live).mono fun landing after moved => ⟨moved.1, here.1, moved.2⟩)
  advance root target here beyond inside := Step.Yields.within
    ((invariant.advance root.inner target here.2 beyond inside).mono fun landing after moved =>
      ⟨moved.1, here.1, moved.2⟩)
  score root here member := by
    change (((Scorer.scoreCounting root.inner).map fun own : S × Nat =>
      own.1 * root.table.factor own.2).within fun inner => { root with inner }).Yields _
    refine Step.Yields.within (Step.Yields.map
      ((invariant.tally root.inner here.2 member).mono fun own after tallied => ?_))
    exact ⟨⟨⟨own, tallied.1.1, by rw [here.1]⟩, tallied.1.2⟩, here.1, tallied.2⟩
  tally root here member := by
    change ((((Scorer.scoreCounting root.inner).map fun own : S × Nat =>
      own.1 * root.table.factor own.2).within fun inner => { root with inner }).map (·, 0)).Yields _
    refine Step.Yields.map (Step.Yields.within (Step.Yields.map
      ((invariant.tally root.inner here.2 member).mono fun own after tallied => ?_)))
    exact ⟨⟨⟨⟨own, tallied.1.1, by rw [here.1]⟩, rfl⟩, tallied.1.2⟩, here.1, tallied.2⟩
  count root here member := invariant.count root.inner here.2 member

theorem Coordinated.denotes {scorer : σ} (denotes : Denotes scorer meaning)
    (table : CoordinationTable S) :
    Denotes (Coordinated.mk scorer table) (meaning.coordinated table) :=
  .of_invariant (invariant (Refines.invariant meaning) table) ⟨rfl, denotes.refines⟩ denotes.fresh

end PostingQuery
