import Mathlib
import PostingQuery.Proofs.Walk
import PostingQuery.Scorer.Bonus
import PostingQuery.Scorer.Exclusion

/-!
Scorers with a companion that trails behind them: the barrier of an exclusion and the optional side of a
bonus. The companion is brought up to single documents only, and it is dropped once it is used up.
-/

namespace PostingQuery

/-- What is left of a companion has not passed any of its documents from `low` on. -/
def Trails {S ξ : Type} [Scorer S ξ] (meaning : Meaning S) (low : DocId) : Option ξ → Prop
  | none => ∀ doc ∈ meaning.docs, doc < low
  | some companion => Refines companion meaning ∧ Covers meaning.docs low (Cursor.doc companion)

theorem Trails.mono {S ξ : Type} [Scorer S ξ] {meaning : Meaning S} {low higher : DocId}
    {companion : Option ξ} (trails : Trails meaning low companion) (le : low ≤ higher) :
    Trails meaning higher companion := by
  cases companion with
  | none => exact fun doc member => (trails doc member).trans_le le
  | some companion => exact ⟨trails.1, trails.2.mono le⟩

theorem trails_of_arrival {S ξ : Type} [Scorer S ξ] {meaning : Meaning S} {low landing : DocId}
    {companion : ξ} (arrival : Arrival meaning.docs low landing companion)
    (refines : Refines companion meaning) : Trails meaning low (some companion) := by
  refine ⟨refines, ?_⟩
  rw [arrival.1]
  exact arrival.2.covers

theorem trails_of_ended {S ξ : Type} [Scorer S ξ] {meaning : Meaning S} {low : DocId}
    (lands : Lands meaning.docs low noMoreDocs) : Trails meaning low (none : Option ξ) := by
  intro doc member
  by_contra from_low
  have beyond := lands.first doc member (not_lt.mp from_low)
  have below := (meaning.real doc member).2
  lia

namespace Meaning

variable {S : Type}

def without (required excluded : Meaning S) : Meaning S where
  docs := required.docs \ excluded.docs
  real doc member := required.real doc (Finset.mem_sdiff.mp member).1
  scores := required.scores
  tallies := required.tallies
  counts := required.counts

def withBonus [Add S] (required optional : Meaning S) : Meaning S where
  docs := required.docs
  real := required.real
  scores doc value := ∃ answer, Raised doc answer ∧ value = answer.1
  tallies := Raised
  counts doc count := ∃ own, required.counts doc own ∧
    (count = own ∨ ∃ more, doc ∈ optional.docs ∧ optional.counts doc more ∧ count = own + more)
where
  Raised (doc : DocId) (answer : S × Nat) : Prop :=
    ∃ own, required.tallies doc own ∧
      (doc ∉ optional.docs ∧ answer = own ∨
        doc ∈ optional.docs ∧ ∃ more, optional.tallies doc more ∧
          answer = (own.1 + more.1, own.2 + more.2))

end Meaning

namespace Exclusion

variable {S ρ ξ : Type} [Scorer S ρ] [Scorer S ξ]

@[simp]
theorem cursor_doc (exclusion : Exclusion ρ ξ) : Cursor.doc exclusion = exclusion.doc := rfl

structure Sound (required excluded : Meaning S) (exclusion : Exclusion ρ ξ) : Prop where
  refines : Refines exclusion.required required
  here : Cursor.doc exclusion.required = exclusion.doc
  trails : Trails excluded exclusion.doc exclusion.barrier
  clear : exclusion.doc ∉ excluded.docs

variable {required excluded : Meaning S}

theorem poll_yields {candidate : DocId} {barrier : ξ} (trails : Trails excluded candidate (some barrier))
    (real : IsReal candidate) :
    (poll candidate barrier).Yields fun hit after =>
      (hit = true ↔ candidate ∈ excluded.docs) ∧ Trails excluded candidate after := by
  obtain ⟨refines, covers⟩ := trails
  obtain ⟨landing, after, same, arrival, refinesAfter⟩ := refines.reach covers real
  have hasIff := arrival.2.eq_low_iff real.2
  have reached := arrival.2.reached
  simp only [poll, same]
  split
  next ended =>
    subst ended
    refine ⟨false, none, rfl, ?_, trails_of_ended arrival.2⟩
    rw [← hasIff]
    simpa using real.ne_noMoreDocs.symm
  next =>
    refine ⟨_, some after, rfl, ?_, trails_of_arrival arrival refinesAfter⟩
    rw [decide_eq_true_iff, ← hasIff]
    lia

theorem Sound.le_doc {exclusion : Exclusion ρ ξ} (sound : Sound required excluded exclusion) :
    unpositioned ≤ exclusion.doc :=
  sound.here ▸ sound.refines.le_doc

theorem Sound.member {exclusion : Exclusion ρ ξ} (sound : Sound required excluded exclusion)
    (member : exclusion.doc ∈ (required.without excluded).docs) :
    Cursor.doc exclusion.required ∈ required.docs := by
  rw [sound.here]
  exact (Finset.mem_sdiff.mp member).1

variable [Score S]

theorem settle_yields {low : DocId} (moves : Nat) (exclusion : Exclusion ρ ξ) (candidate : DocId)
    (refines : Refines exclusion.required required) (here : Cursor.doc exclusion.required = candidate)
    (reached : low ≤ candidate) (place : candidate ∈ required.docs ∨ candidate = noMoreDocs)
    (skipped : ∀ doc ∈ (required.without excluded).docs, low ≤ doc → candidate ≤ doc)
    (trails : Trails excluded candidate exclusion.barrier) (enough : noMoreDocs - candidate < moves) :
    (settle moves exclusion candidate).Yields fun landing after =>
      Arrival (required.without excluded).docs low landing after ∧ Sound required excluded after := by
  -- Each document that the barrier keeps out raises the candidate, so there are enough moves.
  induction moves generalizing exclusion candidate with
  | zero =>
    have inside : candidate ≤ noMoreDocs := here ▸ refines.doc_le
    lia
  | succ moves ih =>
    by_cases ended : candidate = noMoreDocs
    · subst ended
      refine ⟨noMoreDocs, { exclusion with doc := noMoreDocs }, by rw [settle, if_pos rfl],
        ⟨rfl, .inr rfl, reached, skipped⟩, refines, here, trails, fun member => ?_⟩
      exact (excluded.real _ member).ne_noMoreDocs rfl
    · have member := place.resolve_right ended
      have real := required.real candidate member
      have lets : candidate ∉ excluded.docs → Lands (required.without excluded).docs low candidate :=
        fun clear => ⟨.inl (Finset.mem_sdiff.mpr ⟨member, clear⟩), reached, skipped⟩
      rw [settle, if_neg ended]
      cases present : exclusion.barrier with
      | none =>
        rw [present] at trails
        have clear : candidate ∉ excluded.docs := fun has => lt_irrefl candidate (trails candidate has)
        exact ⟨candidate, _, rfl, ⟨rfl, lets clear⟩, refines, here, trails, clear⟩
      | some barrier =>
        rw [present] at trails
        obtain ⟨hit, after, same, hitIff, trailsAfter⟩ := poll_yields trails real
        simp only [same]
        cases hit with
        | false =>
          have clear : candidate ∉ excluded.docs := fun has => by simpa using hitIff.mpr has
          exact ⟨candidate, _, rfl, ⟨rfl, lets clear⟩, refines, here, trailsAfter, clear⟩
        | true =>
          have kept : candidate ∈ excluded.docs := hitIff.mp rfl
          obtain ⟨landing, moved, sameMoved, arrival, refinesMoved⟩ :=
            refines.next (by rw [here]; exact ended)
          rw [here] at arrival
          have beyond := arrival.2.reached
          simp only [sameMoved]
          refine ih { exclusion with required := moved, barrier := after } landing refinesMoved
            arrival.1 (by lia) arrival.2.place (fun doc has from_low => ?_)
            (trailsAfter.mono (by lia)) (by lia)
          obtain ⟨hasRequired, clear⟩ := Finset.mem_sdiff.mp has
          have later := skipped doc has from_low
          have apart : doc ≠ candidate := fun same => clear (same ▸ kept)
          exact arrival.2.first doc hasRequired (by lia)

theorem moveRequired_yields {low : DocId} {exclusion : Exclusion ρ ξ} {move : ρ → Step ρ DocId}
    (sound : Sound required excluded exclusion)
    (moves : (move exclusion.required).Yields fun landing after =>
      Arrival required.docs low landing after ∧ Refines after required)
    (le : exclusion.doc ≤ low) (nonneg : 0 ≤ low) :
    (exclusion.moveRequired move).Yields fun landing after =>
      Arrival (required.without excluded).docs low landing after ∧ Sound required excluded after := by
  obtain ⟨landing, after, same, arrival, refines⟩ := moves
  have reached := arrival.2.reached
  simp only [moveRequired, same]
  refine settle_yields moveLimit { exclusion with required := after } landing refines arrival.1 reached
    arrival.2.place (fun doc has from_low => ?_) (sound.trails.mono (by lia)) ?_
  · exact arrival.2.first doc (Finset.mem_sdiff.mp has).1 from_low
  · unfold noMoreDocs moveLimit
    lia

theorem sound_invariant (required excluded : Meaning S) :
    Invariant (required.without excluded) (Sound (ρ := ρ) (ξ := ξ) required excluded) where
  place exclusion sound := by
    rcases sound.refines.place with fresh | member | ended
    · exact .inl (sound.here.symm.trans fresh)
    · rw [sound.here] at member
      exact .inr (.inl (Finset.mem_sdiff.mpr ⟨member, sound.clear⟩))
    · exact .inr (.inr (sound.here.symm.trans ended))
  next exclusion sound live := by
    rw [cursor_doc] at live ⊢
    have nonneg := nonneg_of_unpositioned_lt (Int.lt_add_one_of_le sound.le_doc)
    have yields := sound.refines.next (by rw [sound.here]; exact live)
    rw [sound.here] at yields
    exact moveRequired_yields sound yields (lt_add_one _).le nonneg
  advance exclusion target sound beyond inside := by
    rw [cursor_doc] at beyond
    have nonneg := nonneg_of_unpositioned_lt (sound.le_doc.trans_lt beyond)
    have yields := sound.refines.advance (by rw [sound.here]; exact beyond) inside
    exact moveRequired_yields sound yields beyond.le nonneg
  score exclusion sound member := by
    obtain ⟨value, after, same, ⟨scores, unmoved⟩, refines⟩ := sound.refines.score (sound.member member)
    rw [sound.here] at scores unmoved
    refine ⟨value, { exclusion with required := after }, ?_, ⟨scores, rfl⟩,
      refines, unmoved, sound.trails, sound.clear⟩
    exact congrArg (Step.within · fun required => { exclusion with required }) same
  tally exclusion sound member := by
    obtain ⟨answer, after, same, ⟨tallies, unmoved⟩, refines⟩ := sound.refines.tally (sound.member member)
    rw [sound.here] at tallies unmoved
    refine ⟨answer, { exclusion with required := after }, ?_, ⟨tallies, rfl⟩,
      refines, unmoved, sound.trails, sound.clear⟩
    exact congrArg (Step.within · fun required => { exclusion with required }) same
  count exclusion sound member := by
    have counts := sound.refines.behaves.count (sound.member member)
    rwa [sound.here] at counts

omit [Score S] in
theorem ofParts_sound {scorer : ρ} {barrier : ξ} (denotes : Denotes scorer required)
    (keeps : Denotes barrier excluded) : Sound required excluded (ofParts scorer barrier) :=
  ⟨denotes.refines, denotes.fresh, ⟨keeps.refines, keeps.covers unpositioned⟩, fun member =>
    absurd (excluded.real _ member) (show ¬IsReal unpositioned by decide)⟩

theorem ofParts_denotes {scorer : ρ} {barrier : ξ} (denotes : Denotes scorer required)
    (keeps : Denotes barrier excluded) : Denotes (ofParts scorer barrier) (required.without excluded) :=
  .of_invariant (sound_invariant required excluded) (ofParts_sound denotes keeps) rfl

end Exclusion

namespace Bonus

variable {S ρ ο : Type} [Score S] [Scorer S ρ] [Scorer S ο]

structure Sound (required optional : Meaning S) (bonus : Bonus ρ ο) : Prop where
  refines : Refines bonus.required required
  trails : Trails optional (Cursor.doc bonus.required) bonus.optional

variable {required optional : Meaning S}

omit [Score S] in
theorem poll_yields {bonus : Bonus ρ ο}
    (trails : Trails optional (Cursor.doc bonus.required) bonus.optional)
    (real : IsReal (Cursor.doc bonus.required)) :
    bonus.poll.Yields fun found after => after.required = bonus.required ∧
      Trails optional (Cursor.doc bonus.required) after.optional ∧
      (found = none ∧ Cursor.doc bonus.required ∉ optional.docs ∨
        ∃ scorer, found = some scorer ∧ after.optional = some scorer ∧ Refines scorer optional ∧
          Cursor.doc scorer = Cursor.doc bonus.required ∧
          Cursor.doc bonus.required ∈ optional.docs) := by
  unfold poll
  cases present : bonus.optional with
  | none =>
    rw [present] at trails
    exact ⟨none, bonus, rfl, rfl, present ▸ trails,
      .inl ⟨rfl, fun has => lt_irrefl _ (trails _ has)⟩⟩
  | some scorer =>
    rw [present] at trails
    obtain ⟨refines, covers⟩ := trails
    obtain ⟨landing, after, same, arrival, refinesAfter⟩ := refines.reach covers real
    have hasIff := arrival.2.eq_low_iff real.2
    simp only [same]
    split
    next ended =>
      rw [Bool.and_eq_true, beq_iff_eq] at ended
      obtain ⟨-, rfl⟩ := ended
      refine ⟨none, { bonus with optional := none }, rfl, rfl, trails_of_ended arrival.2, .inl ⟨rfl, ?_⟩⟩
      rw [← hasIff]
      exact real.ne_noMoreDocs.symm
    next =>
      refine ⟨_, { bonus with optional := some after }, rfl, rfl,
        trails_of_arrival arrival refinesAfter, ?_⟩
      by_cases there : landing = Cursor.doc bonus.required
      · rw [if_pos there]
        exact .inr ⟨after, rfl, rfl, refinesAfter, arrival.1.trans there, hasIff.mp there⟩
      · rw [if_neg there]
        exact .inl ⟨rfl, fun has => there (hasIff.mpr has)⟩

def CaughtUp (optional : Meaning S) (bonus : Bonus ρ ο) : Prop :=
  Cursor.doc bonus.required ∈ optional.docs →
    ∃ scorer, bonus.optional = some scorer ∧ Cursor.doc scorer = Cursor.doc bonus.required

theorem scoreCounting_yields {bonus : Bonus ρ ο} (sound : Sound required optional bonus)
    (member : Cursor.doc bonus.required ∈ required.docs) :
    bonus.scoreCounting.Yields fun answer after =>
      ((required.withBonus optional).tallies (Cursor.doc bonus.required) answer ∧
        Cursor.doc after.required = Cursor.doc bonus.required) ∧
      Sound required optional after ∧ CaughtUp optional after := by
  obtain ⟨own, scored, same, ⟨tallies, unmoved⟩, refines⟩ := sound.refines.tally member
  have real : IsReal (Cursor.doc scored) := unmoved ▸ required.real _ member
  have trails := sound.trails
  rw [← unmoved] at trails tallies ⊢
  obtain ⟨found, after, sameAfter, requiredAfter, trailsAfter, answer⟩ :=
    poll_yields (show Trails optional (Cursor.doc { bonus with required := scored }.required)
      { bonus with required := scored }.optional from trails) real
  simp only [scoreCounting, same, sameAfter]
  rcases answer with ⟨rfl, lacks⟩ | ⟨scorer, rfl, present, refinesScorer, onDoc, has⟩
  · refine ⟨own, after, rfl, ⟨⟨own, tallies, .inl ⟨lacks, rfl⟩⟩, by rw [requiredAfter]⟩,
      ⟨?_, ?_⟩, fun has => ?_⟩
    · rwa [requiredAfter]
    · rwa [requiredAfter]
    · rw [requiredAfter] at has
      exact absurd has lacks
  · obtain ⟨more, later, sameLater, ⟨moreTallies, unmovedLater⟩, refinesLater⟩ :=
      refinesScorer.tally (by rwa [onDoc])
    rw [onDoc] at moreTallies unmovedLater
    simp only [sameLater]
    refine ⟨_, { after with optional := some later }, rfl,
      ⟨⟨own, tallies, .inr ⟨has, more, moreTallies, rfl⟩⟩, by rw [requiredAfter]⟩,
      ⟨?_, ?_⟩, fun _ => ⟨later, rfl, unmovedLater.trans (by rw [requiredAfter])⟩⟩
    · rwa [requiredAfter]
    · change Trails optional (Cursor.doc after.required) (some later)
      rw [requiredAfter]
      exact ⟨refinesLater, Covers.of_le unmovedLater.le⟩

theorem sound_invariant (required optional : Meaning S) :
    Invariant (required.withBonus optional) (Sound (ρ := ρ) (ο := ο) required optional) where
  place bonus sound := sound.refines.place
  next bonus sound live := by
    obtain ⟨landing, after, same, arrival, refines⟩ := sound.refines.next live
    have reached := arrival.2.reached
    refine ⟨landing, { bonus with required := after }, ?_, arrival, refines, ?_⟩
    · exact congrArg (Step.within · fun required => { bonus with required }) same
    · change Trails optional (Cursor.doc after) bonus.optional
      rw [arrival.1]
      exact sound.trails.mono (by lia)
  advance bonus target sound beyond inside := by
    obtain ⟨landing, after, same, arrival, refines⟩ := sound.refines.advance beyond inside
    have reached := arrival.2.reached
    refine ⟨landing, { bonus with required := after }, ?_, arrival, refines, ?_⟩
    · exact congrArg (Step.within · fun required => { bonus with required }) same
    · change Trails optional (Cursor.doc after) bonus.optional
      rw [arrival.1]
      exact sound.trails.mono (beyond.le.trans reached)
  score bonus sound member := by
    refine Step.Yields.map ((scoreCounting_yields sound member).mono fun answer after holds => ?_)
    exact ⟨⟨⟨answer, holds.1.1, rfl⟩, holds.1.2⟩, holds.2.1⟩
  tally bonus sound member :=
    (scoreCounting_yields sound member).mono fun _ _ holds => ⟨holds.1, holds.2.1⟩
  count bonus sound member := by
    refine ⟨_, sound.refines.behaves.count member, ?_⟩
    have trails := sound.trails
    change bonus.matchCount = _ ∨ ∃ more, _ ∧ _ ∧ bonus.matchCount = _
    unfold matchCount
    cases present : bonus.optional with
    | none => exact .inl rfl
    | some scorer =>
      rw [present] at trails
      dsimp only
      split
      next onDoc =>
        have has : Cursor.doc scorer ∈ optional.docs :=
          trails.1.member_of_real (onDoc ▸ required.real _ member)
        have counts := trails.1.behaves.count has
        rw [onDoc] at has counts
        exact .inr ⟨_, has, counts, rfl⟩
      next => exact .inl rfl

omit [Score S] in
theorem ofParts_sound {scorer : ρ} {bonus : ο} (denotes : Denotes scorer required)
    (adds : Denotes bonus optional) : Sound required optional (ofParts scorer bonus) :=
  ⟨denotes.refines, adds.refines, adds.covers (Cursor.doc scorer)⟩

theorem ofParts_denotes {scorer : ρ} {bonus : ο} (denotes : Denotes scorer required)
    (adds : Denotes bonus optional) : Denotes (ofParts scorer bonus) (required.withBonus optional) :=
  .of_invariant (sound_invariant required optional) (ofParts_sound denotes adds) denotes.fresh

end Bonus

end PostingQuery
