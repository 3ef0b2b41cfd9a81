import Mathlib
import PostingQuery.Proofs.CallContract
import PostingQuery.Proofs.Companion
import PostingQuery.Proofs.ExactScore
import PostingQuery.Proofs.Term

/-!
What an exclusion does with its parts. It lands on the documents of its required scorer that the barrier does not
have, it scores them as the required scorer does, and it asks neither part for a move that a cursor need not
answer: its walk goes through behind guards that refuse every such move. The barrier is dropped on the way, so
there is nothing left to read its calls from at the end of a walk.
-/

namespace PostingQuery

theorem Step.Yields.of_agrees {σ τ α : Type} {related : σ → τ → Prop} {broken : σ → Prop} {step : Step σ α}
    {other : Step τ α} {post : α → σ → Prop} (yields : step.Yields post) (agrees : step.Agrees related broken other) :
    ∃ answer state mirror, step = (.ok answer, state) ∧ other = (.ok answer, mirror) ∧ related state mirror ∧
      post answer state := by
  obtain ⟨answer, state, same, holds⟩ := yields
  rcases agrees with ⟨outcome, after, mirror, agreed, otherSame, relates⟩ | ⟨failure, after, failed, -⟩
  · rw [same] at agreed
    obtain ⟨rfl, rfl⟩ := Prod.mk.inj agreed
    exact ⟨answer, state, mirror, same, otherSame, relates, holds⟩
  · rw [same] at failed
    exact absurd (Prod.mk.inj failed).1 nofun

namespace Exclusion

variable {S ρ ξ : Type}

def unguard (exclusion : Exclusion (Guarded ρ) (Guarded ξ)) : Exclusion ρ ξ :=
  ⟨exclusion.required.inner, exclusion.barrier.map Guarded.inner, exclusion.doc⟩

abbrev Unguards {α : Type} (guarded : Step (Exclusion (Guarded ρ) (Guarded ξ)) α)
    (plain : Step (Exclusion ρ ξ) α) : Prop :=
  guarded.Agrees (fun state mirror => state.unguard = mirror) (fun _ => True) plain

section Moves

variable [Cursor ρ] [Cursor ξ]

theorem poll_agrees (candidate : DocId) (barrier : Guarded ξ) :
    (poll candidate barrier).Agrees (fun after plain => after.map Guarded.inner = plain) (fun _ => True)
      (poll candidate barrier.inner) := by
  unfold poll
  rcases barrier.reach_agrees candidate with
    ⟨failure | reached, after, plain, same, samePlain, rfl⟩ | ⟨failure, after, same, -⟩
  · rw [same, samePlain]
    exact .same rfl
  · rw [same, samePlain]
    dsimp only
    split
    next => exact .same rfl
    next => exact .same rfl
  · rw [same]
    exact .stops trivial

theorem settle_unguards (moves : Nat) (exclusion : Exclusion (Guarded ρ) (Guarded ξ)) (candidate : DocId) :
    Unguards (settle moves exclusion candidate) (settle moves exclusion.unguard candidate) := by
  induction moves generalizing exclusion candidate with
  | zero => exact .same rfl
  | succ moves ih =>
    rw [settle, settle]
    split
    next => exact .same rfl
    next =>
      obtain ⟨required, barrier, doc⟩ := exclusion
      cases barrier with
      | none => exact .same rfl
      | some barrier =>
        dsimp only [unguard, Option.map_some]
        rcases poll_agrees candidate barrier with
          ⟨outcome, after, plain, same, samePlain, rfl⟩ | ⟨failure, after, same, -⟩
        · rw [same, samePlain]
          rcases outcome with failure | _ | _
          · exact .same rfl
          · exact .same rfl
          · dsimp only
            rcases required.permit_agrees (.next (Cursor.doc required.inner)) (Cursor.next required.inner) with
              ⟨outcome, moved, plain, sameMoved, samePlainMoved, rfl⟩ | ⟨failure, moved, sameMoved, -⟩
            · rw [show Cursor.next required = _ from sameMoved, samePlainMoved]
              rcases outcome with failure | reached
              · exact .same rfl
              · exact ih ⟨moved, after, doc⟩ reached
            · rw [show Cursor.next required = _ from sameMoved]
              exact .stops trivial
        · rw [same]
          exact .stops trivial

theorem moveRequired_unguards {move : Guarded ρ → Step (Guarded ρ) DocId} {plainMove : ρ → Step ρ DocId}
    (exclusion : Exclusion (Guarded ρ) (Guarded ξ))
    (agrees : (move exclusion.required).Agrees (fun after state => after.inner = state) (fun _ => True)
      (plainMove exclusion.required.inner)) :
    Unguards (exclusion.moveRequired move) (exclusion.unguard.moveRequired plainMove) := by
  have inner : exclusion.unguard.required = exclusion.required.inner := rfl
  unfold moveRequired
  rw [inner]
  rcases agrees with ⟨outcome, after, plain, same, samePlain, rfl⟩ | ⟨failure, after, same, -⟩
  · rw [same, samePlain]
    rcases outcome with failure | reached
    · exact .same rfl
    · exact settle_unguards moveLimit { exclusion with required := after } reached
  · rw [same]
    exact .stops trivial

end Moves

variable [Score S] [Scorer S ρ] [Scorer S ξ] {required excluded : Meaning S}

theorem move_unguarded {low : DocId} {move : Step (Exclusion (Guarded ρ) (Guarded ξ)) DocId}
    {plain : Step (Exclusion ρ ξ) DocId}
    (yields : move.Yields fun landing after =>
      Arrival (required.without excluded).docs low landing after ∧ Sound required excluded after)
    (unguards : Unguards move plain) :
    move.Yields fun landing after => plain = (.ok landing, after.unguard) ∧ Sound required excluded after := by
  obtain ⟨landing, after, mirror, same, samePlain, rfl, -, sound⟩ := yields.of_agrees unguards
  exact ⟨landing, after, same, samePlain, sound⟩

theorem Sound.next_unguarded {guarded : Exclusion (Guarded ρ) (Guarded ξ)} (sound : Sound required excluded guarded)
    (live : Cursor.doc guarded ≠ noMoreDocs) :
    (Cursor.next guarded).Yields fun landing after =>
      Cursor.next guarded.unguard = (.ok landing, after.unguard) ∧ Sound required excluded after :=
  move_unguarded ((sound_invariant required excluded).next guarded sound live)
    (moveRequired_unguards guarded (Guarded.permit_agrees _ _ _))

theorem Sound.advance_unguarded {guarded : Exclusion (Guarded ρ) (Guarded ξ)}
    (sound : Sound required excluded guarded) {target : DocId} (beyond : Cursor.doc guarded < target)
    (inside : target ≤ noMoreDocs) :
    (Cursor.advance guarded target).Yields fun landing after =>
      Cursor.advance guarded.unguard target = (.ok landing, after.unguard) ∧ Sound required excluded after :=
  move_unguarded ((sound_invariant required excluded).advance guarded target sound beyond inside)
    (moveRequired_unguards guarded (Guarded.permit_agrees _ _ _))

/-- A legal step without guards is a legal step behind them. -/
theorem Sound.exists_step {guarded : Exclusion (Guarded ρ) (Guarded ξ)} (sound : Sound required excluded guarded)
    {state : Exclusion ρ ξ} (step : LegalStep guarded.unguard state) :
    ∃ after, LegalStep guarded after ∧ after.unguard = state ∧ Sound required excluded after := by
  have kept : ∀ {after}, LegalStep guarded after → Sound required excluded after :=
    (sound_invariant required excluded).preserved sound
  cases step with
  | next live =>
    obtain ⟨landing, after, same, samePlain, -⟩ := sound.next_unguarded live
    have step := LegalStep.next guarded live
    refine ⟨_, step, ?_, kept step⟩
    rw [same, samePlain]
  | advance target beyond inside =>
    obtain ⟨landing, after, same, samePlain, -⟩ := sound.advance_unguarded beyond inside
    have step := LegalStep.advance guarded target beyond inside
    refine ⟨_, step, ?_, kept step⟩
    rw [same, samePlain]
  | score placed => exact ⟨_, .score guarded placed, rfl, kept (.score guarded placed)⟩
  | tally placed => exact ⟨_, .tally guarded placed, rfl, kept (.tally guarded placed)⟩

theorem Sound.exists_guarded {guarded : Exclusion (Guarded ρ) (Guarded ξ)} (sound : Sound required excluded guarded)
    {state : Exclusion ρ ξ} (reached : Reaches guarded.unguard state) :
    ∃ after, Reaches guarded after ∧ after.unguard = state ∧ Sound required excluded after := by
  induction reached with
  | refl => exact ⟨guarded, .refl, rfl, sound⟩
  | tail _ step ih =>
    obtain ⟨middle, walked, rfl, soundMiddle⟩ := ih
    obtain ⟨after, stepped, same, soundAfter⟩ := soundMiddle.exists_step step
    exact ⟨after, walked.tail stepped, same, soundAfter⟩

section Required

variable [Cursor ξ]

omit [Score S] [Scorer S ξ] in
theorem settle_reaches (moves : Nat) (exclusion : Exclusion ρ ξ) (candidate : DocId)
    (refines : Refines exclusion.required required) (here : Cursor.doc exclusion.required = candidate) :
    Reaches exclusion.required (settle moves exclusion candidate).2.required := by
  induction moves generalizing exclusion candidate with
  | zero => exact .refl
  | succ moves ih =>
    rw [settle]
    split
    next => exact .refl
    next live =>
      rw [← here] at live
      split
      next => exact .refl
      next barrier present =>
        rcases poll candidate barrier with ⟨failure | _ | _, after⟩
        · exact .refl
        · exact .refl
        · have step := LegalStep.next exclusion.required live
          obtain ⟨landing, moved, same, arrival, refinesMoved⟩ := refines.next live
          rw [same] at step
          simp only [same]
          exact .head step (ih { exclusion with required := moved, barrier := after } landing refinesMoved arrival.1)

omit [Score S] [Scorer S ξ] in
theorem moveRequired_reaches {low : DocId} {exclusion : Exclusion ρ ξ} {move : ρ → Step ρ DocId}
    (step : LegalStep exclusion.required (move exclusion.required).2)
    (yields : (move exclusion.required).Yields fun landing after =>
      Arrival required.docs low landing after ∧ Refines after required) :
    Reaches exclusion.required (exclusion.moveRequired move).2.required := by
  obtain ⟨landing, after, same, arrival, refines⟩ := yields
  rw [same] at step
  simp only [moveRequired, same]
  exact .head step (settle_reaches moveLimit { exclusion with required := after } landing refines arrival.1)

end Required

theorem Sound.required_reaches {exclusion state : Exclusion ρ ξ} (sound : Sound required excluded exclusion)
    (step : LegalStep exclusion state) : Reaches exclusion.required state.required := by
  cases step with
  | next live =>
    rw [cursor_doc, ← sound.here] at live
    exact moveRequired_reaches (.next _ live) (sound.refines.next live)
  | advance target beyond inside =>
    rw [cursor_doc, ← sound.here] at beyond
    have moved : LegalStep exclusion.required ((Cursor.advance · target) exclusion.required).2 :=
      .advance _ target beyond inside
    exact moveRequired_reaches moved (sound.refines.advance beyond inside)
  | score placed =>
    rw [cursor_doc, ← sound.here] at placed
    exact .single (.score _ placed)
  | tally placed =>
    rw [cursor_doc, ← sound.here] at placed
    exact .single (.tally _ placed)

theorem Sound.required_walks {exclusion state : Exclusion ρ ξ} (sound : Sound required excluded exclusion)
    (reached : Reaches exclusion state) : Reaches exclusion.required state.required := by
  induction reached with
  | refl => exact .refl
  | tail walked step ih =>
    have here := (sound_invariant required excluded).holds_of_reaches sound walked
    exact ih.trans (here.required_reaches step)

/-- An exclusion lands on exactly the documents of its required scorer that the barrier does not have, from wherever
a legal walk has led it. The walk goes through behind guards, so neither part is asked for an illegal move. The
required scorer has come to the current document by a legal walk of its own, and the exclusion scores and counts as
it does there. -/
theorem lands_on_documents_without_barrier {scorer : ρ} {barrier : ξ} (denotes : Denotes scorer required)
    (keeps : Denotes barrier excluded) :
    Cursor.doc (ofParts scorer barrier) = unpositioned ∧
      ∃ docs : Finset DocId, (∀ doc, doc ∈ docs ↔ doc ∈ required.docs ∧ doc ∉ excluded.docs) ∧
        ∀ state, Reaches (ofParts scorer barrier) state →
          (Cursor.doc state ≠ noMoreDocs →
            (Cursor.next state).Yields (Arrival docs (Cursor.doc state + 1))) ∧
          (∀ target, Cursor.doc state < target → target ≤ noMoreDocs →
            (Cursor.advance state target).Yields (Arrival docs target)) ∧
          (∀ refusal, ∃ guarded,
            Reaches (ofParts (Guarded.mk scorer refusal) (Guarded.mk barrier refusal)) guarded ∧
            guarded.unguard = state ∧
            (Cursor.doc state ≠ noMoreDocs → (Cursor.next guarded).Yields fun landing after =>
              Cursor.next state = (.ok landing, after.unguard)) ∧
            ∀ target, Cursor.doc state < target → target ≤ noMoreDocs →
              (Cursor.advance guarded target).Yields fun landing after =>
                Cursor.advance state target = (.ok landing, after.unguard)) ∧
          Reaches scorer state.required ∧ Cursor.doc state.required = Cursor.doc state ∧
          (Cursor.doc state ∈ docs →
            ((Scorer.score state).Yields fun value after => (Scorer.score state.required).1 = .ok value ∧
              required.scores (Cursor.doc state) value ∧ Cursor.doc after = Cursor.doc state) ∧
            ((Scorer.scoreCounting state).Yields fun answer after =>
              (Scorer.scoreCounting state.required).1 = .ok answer ∧
              required.tallies (Cursor.doc state) answer ∧ Cursor.doc after = Cursor.doc state) ∧
            Scorer.matchCount state = Scorer.matchCount state.required) := by
  refine ⟨rfl, (required.without excluded).docs, fun doc => Finset.mem_sdiff, fun state reached => ?_⟩
  have sound := ofParts_sound denotes keeps
  have invariant := sound_invariant (ρ := ρ) (ξ := ξ) required excluded
  have here := invariant.holds_of_reaches sound reached
  have behaves := invariant.behaves here
  refine ⟨behaves.next, behaves.advance, fun refusal => ?_, sound.required_walks reached, here.here,
    fun member => ⟨?_, ?_, rfl⟩⟩
  · have guardedSound := ofParts_sound (Guarded.denotes denotes refusal) (Guarded.denotes keeps refusal)
    obtain ⟨guarded, walked, rfl, soundGuarded⟩ := guardedSound.exists_guarded reached
    refine ⟨guarded, walked, rfl, fun live => ?_, fun target beyond inside => ?_⟩
    · exact (soundGuarded.next_unguarded live).mono fun _ _ moved => moved.1
    · exact (soundGuarded.advance_unguarded beyond inside).mono fun _ _ moved => moved.1
  · obtain ⟨value, after, same, scored⟩ := behaves.score member
    refine ⟨value, after, same, ?_, scored⟩
    exact congrArg Prod.fst same
  · obtain ⟨answer, after, same, tallied⟩ := behaves.tally member
    refine ⟨answer, after, same, ?_, tallied⟩
    exact congrArg Prod.fst same

/-- A term in the documents 1, 2 and 5 behind a barrier of the documents 1 and 2, which are skipped in one move. -/
theorem term_lands_past_barrier :
    ∃ after : Exclusion (TermScorer PostingList ℚ) (TermScorer PostingList ℚ),
      Cursor.next (ofParts (TermScorer.mk (.fresh [.ofDoc 1, .ofDoc 2, .ofDoc 5]) (.constant (3 : ℚ) 1))
        (TermScorer.mk (.fresh [.ofDoc 1, .ofDoc 2]) (.constant (1 : ℚ) 1))) = (.ok 5, after) ∧
      (Scorer.score after).1 = .ok 3 := by
  have listed : Posting.Accepted [.ofDoc 1, .ofDoc 2, .ofDoc 5] := ⟨rfl, by decide⟩
  have barred : Posting.Accepted [.ofDoc 1, .ofDoc 2] := ⟨rfl, by decide⟩
  obtain ⟨fresh, docs, mem, walk⟩ := lands_on_documents_without_barrier
    (TermScorer.denotes_of_ofPostings rfl listed (.constant (3 : ℚ) 1))
    (TermScorer.denotes_of_ofPostings rfl barred (.constant (1 : ℚ) 1))
  have only : ∀ doc, doc ∈ docs ↔ doc = 5 := by
    intro doc
    rw [mem]
    simp [TermScorer.meaning, Meaning.leaf, Posting.docs, Posting.ofDoc]
    lia
  have live : unpositioned ≠ noMoreDocs := by decide
  rw [← fresh] at live
  obtain ⟨landing, after, same, here, lands⟩ := (walk _ .refl).1 live
  have landed : landing = 5 := by
    rcases lands.place with member | ended
    · exact (only landing).mp member
    · have upper := lands.first 5 ((only 5).mpr rfl) (by rw [fresh]; decide)
      rw [ended] at upper
      exact absurd upper (by decide)
  subst landed
  have moved := LegalStep.next _ live
  rw [same] at moved
  have inside : Cursor.doc after ∈ docs := (only _).mpr here
  obtain ⟨value, later, scored, -, scores, -⟩ := ((walk after (.single moved)).2.2.2.2.2 inside).1
  refine ⟨after, same, ?_⟩
  rw [scored]
  simpa [TermScorer.meaning, Meaning.leaf, Relevance.constant] using scores

end Exclusion

end PostingQuery
