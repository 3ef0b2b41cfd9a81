import Mathlib
import PostingQuery.Proofs.Wrapper

/-!
The calls that reach a scorer. A watched scorer behaves as the scorer it holds and notes the moves that it is
asked for. A scorer may be asked to move on unless it is used up, and to move to a target only beyond its
current document. Whoever asks for legal steps only keeps this contract. A guarded scorer refuses every move that
breaks the contract, so that it cannot go unnoticed.
-/

namespace PostingQuery

inductive Call where
  | next (doc : DocId)
  | advance (doc target : DocId)

/-- A scorer that is used up is not asked to move, and no scorer is asked to move to a target that is not
beyond its document. -/
def Call.IsLegal : Call → Prop
  | .next doc => doc ≠ noMoreDocs
  | .advance doc target => doc ≠ noMoreDocs ∧ doc < target

instance : (call : Call) → Decidable call.IsLegal
  | .next doc => inferInstanceAs (Decidable (doc ≠ noMoreDocs))
  | .advance doc target => inferInstanceAs (Decidable (doc ≠ noMoreDocs ∧ doc < target))

/-- A scorer with the moves that it has been asked for, the latest first. -/
structure Watched (σ : Type) where
  inner : σ
  calls : List Call

namespace Watched

variable {S σ : Type}

def start (scorer : σ) : Watched σ := ⟨scorer, []⟩

instance [Cursor σ] : Cursor (Watched σ) where
  doc watched := Cursor.doc watched.inner
  next watched := (Cursor.next watched.inner).within fun inner =>
    ⟨inner, .next (Cursor.doc watched.inner) :: watched.calls⟩
  advance watched target := (Cursor.advance watched.inner target).within fun inner =>
    ⟨inner, .advance (Cursor.doc watched.inner) target :: watched.calls⟩
  cost watched := Cursor.cost watched.inner

instance [Scorer S σ] : Scorer S (Watched σ) where
  score watched := (Scorer.score watched.inner).within fun inner => { watched with inner }
  matchCount watched := Scorer.matchCount watched.inner
  scoreCounting watched := (Scorer.scoreCounting watched.inner).within fun inner => { watched with inner }
  explain watched doc := (Scorer.explain watched.inner doc).within fun inner => { watched with inner }

def KeepsContract (watched : Watched σ) : Prop := ∀ call ∈ watched.calls, call.IsLegal

theorem KeepsContract.cons {watched : Watched σ} (keeps : watched.KeepsContract) (call : Call)
    (legal : call.IsLegal) (after : σ) : KeepsContract ⟨after, call :: watched.calls⟩ :=
  List.forall_mem_cons.mpr ⟨legal, keeps⟩

variable [Scorer S σ]

theorem embeds_inner : Embeds (inner : Watched σ → σ) :=
  ⟨fun _ => rfl, fun _ => rfl, fun _ _ => rfl, fun _ => rfl, fun _ => rfl, fun _ => rfl⟩

theorem invariant {meaning : Meaning S} {holds : σ → Prop} (invariant : Invariant meaning holds) :
    Invariant meaning fun watched : Watched σ => holds watched.inner ∧ watched.KeepsContract where
  place watched here := invariant.place watched.inner here.1
  next watched here live := Step.Yields.within
    ((invariant.next watched.inner here.1 live).mono fun _ after moved =>
      ⟨moved.1, moved.2, here.2.cons (.next _) live after⟩)
  advance watched target here beyond inside := Step.Yields.within
    ((invariant.advance watched.inner target here.1 beyond inside).mono fun _ after moved =>
      ⟨moved.1, moved.2, here.2.cons (.advance _ _) ⟨(beyond.trans_le inside).ne, beyond⟩ after⟩)
  score watched here member := Step.Yields.within
    ((invariant.score watched.inner here.1 member).mono fun _ _ scored => ⟨scored.1, scored.2, here.2⟩)
  tally watched here member := Step.Yields.within
    ((invariant.tally watched.inner here.1 member).mono fun _ _ tallied => ⟨tallied.1, tallied.2, here.2⟩)
  count watched here member := invariant.count watched.inner here.1 member

end Watched

structure Guarded (σ : Type) where
  inner : σ
  refusal : Failure

namespace Guarded

variable {S σ : Type}

def permit (guarded : Guarded σ) (call : Call) (move : Step σ DocId) : Step (Guarded σ) DocId :=
  if call.IsLegal then move.within fun inner => { guarded with inner } else (.error guarded.refusal, guarded)

instance [Cursor σ] : Cursor (Guarded σ) where
  doc guarded := Cursor.doc guarded.inner
  next guarded := guarded.permit (.next (Cursor.doc guarded.inner)) (Cursor.next guarded.inner)
  advance guarded target :=
    guarded.permit (.advance (Cursor.doc guarded.inner) target) (Cursor.advance guarded.inner target)
  cost guarded := Cursor.cost guarded.inner

instance [Scorer S σ] : Scorer S (Guarded σ) where
  score guarded := (Scorer.score guarded.inner).within fun inner => { guarded with inner }
  matchCount guarded := Scorer.matchCount guarded.inner
  scoreCounting guarded := (Scorer.scoreCounting guarded.inner).within fun inner => { guarded with inner }
  explain guarded doc := (Scorer.explain guarded.inner doc).within fun inner => { guarded with inner }

theorem permit_of_legal {guarded : Guarded σ} {call : Call} (legal : call.IsLegal) (move : Step σ DocId) :
    guarded.permit call move = move.within fun inner => { guarded with inner } :=
  if_pos legal

theorem permit_agrees (guarded : Guarded σ) (call : Call) (move : Step σ DocId) :
    (guarded.permit call move).Agrees (fun after state => after.inner = state) (fun _ => True) move := by
  unfold permit
  split
  next => exact .inl ⟨move.1, _, move.2, rfl, rfl, rfl⟩
  next => exact .stops trivial

theorem reach_agrees [Cursor σ] (guarded : Guarded σ) (target : DocId) :
    (Cursor.reach guarded target).Agrees (fun after state => after.inner = state) (fun _ => True)
      (Cursor.reach guarded.inner target) := by
  change (if Cursor.doc guarded.inner < target then Cursor.advance guarded target else _).Agrees _ _
    (if Cursor.doc guarded.inner < target then Cursor.advance guarded.inner target else _)
  split
  next => exact guarded.permit_agrees _ _
  next => exact .same rfl

variable [Scorer S σ]

/-- What every legal step preserves, it preserves behind a guard, which never refuses a legal step. -/
theorem invariant {meaning : Meaning S} {holds : σ → Prop} (invariant : Invariant meaning holds) :
    Invariant meaning fun guarded : Guarded σ => holds guarded.inner where
  place guarded here := invariant.place guarded.inner here
  next guarded here live := by
    have legal : (Call.next (Cursor.doc guarded.inner)).IsLegal := live
    change (guarded.permit _ _).Yields _
    rw [permit_of_legal legal]
    exact Step.Yields.within (invariant.next guarded.inner here live)
  advance guarded target here beyond inside := by
    have legal : (Call.advance (Cursor.doc guarded.inner) target).IsLegal := ⟨(beyond.trans_le inside).ne, beyond⟩
    change (guarded.permit _ _).Yields _
    rw [permit_of_legal legal]
    exact Step.Yields.within (invariant.advance guarded.inner target here beyond inside)
  score guarded here member := Step.Yields.within (invariant.score guarded.inner here member)
  tally guarded here member := Step.Yields.within (invariant.tally guarded.inner here member)
  count guarded here member := invariant.count guarded.inner here member

theorem denotes {meaning : Meaning S} {scorer : σ} (denotes : Denotes scorer meaning) (refusal : Failure) :
    Denotes (Guarded.mk scorer refusal) meaning :=
  .of_invariant (invariant (Refines.invariant meaning)) denotes.refines denotes.fresh

end Guarded

end PostingQuery
