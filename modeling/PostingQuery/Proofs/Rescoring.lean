import Mathlib
import PostingQuery.Proofs.Boolean
import PostingQuery.Proofs.BonusScore
import PostingQuery.Proofs.ExcludedDocuments
import PostingQuery.Proofs.SharedDocuments
import PostingQuery.Tree

/-!
Scoring a document more than once. Scoring may move parts of a scorer that lag behind, but only the first time:
scoring the same document again answers the same and moves nothing any more. That holds of the scorers that keep
the score they have landed with, and it is kept by every scorer around others.
-/

namespace PostingQuery

section Repeats

variable {S σ τ : Type} [Scorer S σ] [Scorer S τ]

/-- Scoring once more answers the same and leaves the same state. -/
structure Settled (state : σ) : Prop where
  score : Scorer.score (Scorer.score state).2 = Scorer.score state
  tally : Scorer.scoreCounting (Scorer.scoreCounting state).2 = Scorer.scoreCounting state

/-- On every document that a legal walk leads to, scoring can be repeated. -/
def Repeats (scorer : σ) : Prop :=
  ∀ state, Reaches scorer state → IsReal (Cursor.doc state) → Settled state

theorem Repeats.after {scorer state : σ} (repeats : Repeats scorer) (reached : Reaches scorer state) : Repeats state :=
  fun later further => repeats later (reached.trans further)

theorem Embeds.settled {wrap : σ → τ} (embeds : Embeds wrap) {part : σ} (settled : Settled part) :
    Settled (wrap part) where
  score := by
    rw [embeds.score]
    change Scorer.score (wrap (Scorer.score part).2) = _
    rw [embeds.score, settled.score]
  tally := by
    rw [embeds.scoreCounting]
    change Scorer.scoreCounting (wrap (Scorer.scoreCounting part).2) = _
    rw [embeds.scoreCounting, settled.tally]

theorem Embeds.repeats {wrap : σ → τ} (embeds : Embeds wrap) {part : σ} (repeats : Repeats part) :
    Repeats (wrap part) := by
  intro state reached placed
  obtain ⟨later, walked, rfl⟩ := embeds.exists_of_reaches reached
  exact embeds.settled (repeats later walked (embeds.doc later ▸ placed))

theorem Invariant.and {meaning : Meaning S} {holds kept : σ → Prop} (invariant : Invariant meaning holds)
    (closed : ∀ state after, kept state → LegalStep state after → kept after) :
    Invariant meaning fun state => holds state ∧ kept state where
  place state here := invariant.place state here.1
  next state here live := by
    obtain ⟨landing, after, same, arrival, holdsAfter⟩ := invariant.next state here.1 live
    have keptAfter := closed _ _ here.2 (.next state live)
    rw [same] at keptAfter
    exact ⟨landing, after, same, arrival, holdsAfter, keptAfter⟩
  advance state target here beyond inside := by
    obtain ⟨landing, after, same, arrival, holdsAfter⟩ := invariant.advance state target here.1 beyond inside
    have keptAfter := closed _ _ here.2 (.advance state target beyond inside)
    rw [same] at keptAfter
    exact ⟨landing, after, same, arrival, holdsAfter, keptAfter⟩
  score state here member := by
    obtain ⟨value, after, same, scored, holdsAfter⟩ := invariant.score state here.1 member
    have keptAfter := closed _ _ here.2 (.score state (meaning.real _ member))
    rw [same] at keptAfter
    exact ⟨value, after, same, scored, holdsAfter, keptAfter⟩
  tally state here member := by
    obtain ⟨answer, after, same, tallied, holdsAfter⟩ := invariant.tally state here.1 member
    have keptAfter := closed _ _ here.2 (.tally state (meaning.real _ member))
    rw [same] at keptAfter
    exact ⟨answer, after, same, tallied, holdsAfter, keptAfter⟩
  count state here member := invariant.count state here.1 member

end Repeats

section Scorers

variable {S σ ρ ξ ο : Type} [Score S] [Scorer S σ] [Scorer S ρ] [Scorer S ξ] [Scorer S ο]

theorem EmptyScorer.repeats (scorer : EmptyScorer S) : Repeats scorer :=
  fun _ _ _ => ⟨rfl, rfl⟩

theorem Disjunction.repeats (disjunction : Disjunction S σ) : Repeats disjunction :=
  fun _ _ _ => ⟨rfl, rfl⟩

theorem Quorum.repeats (quorum : Quorum S σ) : Repeats quorum :=
  fun _ _ _ => ⟨rfl, rfl⟩

namespace Single

theorem inner_reaches {single state : Single σ} (reached : Reaches single state) :
    Reaches single.inner state.inner := by
  induction reached with
  | refl => exact .refl
  | tail _ step ih =>
    cases step with
    | next live => exact ih.tail (.next _ live)
    | advance target beyond inside => exact ih.tail (.advance _ target beyond inside)
    | score placed => exact ih.tail (.score _ placed)
    | tally placed => exact ih.tail (.score _ placed)

theorem repeats {scorer : σ} (repeats : Repeats scorer) : Repeats (Single.mk scorer) := by
  intro state reached placed
  have settled := repeats state.inner (inner_reaches reached) placed
  have again : Single.score (Scorer.score state).2 = state.score :=
    congrArg (Step.within · Single.mk) settled.score
  exact ⟨again, congrArg (Step.map · fun value => (value, 1)) again⟩

end Single

namespace Coordinated

theorem inner_reaches {root state : Coordinated S σ} (reached : Reaches root state) :
    Reaches root.inner state.inner := by
  induction reached with
  | refl => exact .refl
  | tail _ step ih =>
    cases step with
    | next live => exact ih.tail (.next _ live)
    | advance target beyond inside => exact ih.tail (.advance _ target beyond inside)
    | score placed => exact ih.tail (.tally _ placed)
    | tally placed => exact ih.tail (.tally _ placed)

theorem repeats {scorer : σ} (repeats : Repeats scorer) (table : CoordinationTable S) :
    Repeats (Coordinated.mk scorer table) := by
  intro state reached placed
  have settled := repeats state.inner (inner_reaches reached) placed
  have again : Coordinated.score (Scorer.score state).2 = state.score :=
    congrArg (fun step : Step σ (S × Nat) => (step.map fun answer => answer.1 * state.table.factor answer.2).within
      (Coordinated.mk · state.table)) settled.tally
  exact ⟨again, congrArg (Step.map · fun value => (value, 0)) again⟩

end Coordinated

namespace Exclusion

theorem repeats {scorer : ρ} {barrier : ξ} {required excluded : Meaning S} (denotes : Denotes scorer required)
    (keeps : Denotes barrier excluded) (repeats : Repeats scorer) : Repeats (ofParts scorer barrier) := by
  intro state reached placed
  have sound := ofParts_sound denotes keeps
  have here := ((sound_invariant required excluded).holds_of_reaches sound reached).here
  have settled := repeats state.required (sound.required_walks reached) (here ▸ placed)
  have rebuilt : ∀ {α : Type} {step other : Step ρ α}, step = other →
      step.within (Exclusion.mk · state.barrier state.doc) = other.within (Exclusion.mk · state.barrier state.doc) :=
    fun same => congrArg (Step.within · _) same
  exact ⟨rebuilt settled.score, rebuilt settled.tally⟩

end Exclusion

namespace Bonus

theorem Sound.settled {required optional : Meaning S} {bonus : Bonus ρ ο} (sound : Sound required optional bonus)
    (member : Cursor.doc bonus.required ∈ required.docs) (repeats : Repeats bonus.required)
    (moreRepeats : ∀ part, bonus.optional = some part → Repeats part) : Settled bonus := by
  obtain ⟨own, scored, same, unmoved, parts⟩ := sound.exists_scoring member
  have again : Scorer.scoreCounting scored = (.ok own, scored) := by
    have settled := (repeats _ .refl (required.real _ member)).tally
    rwa [same] at settled
  have whole : scoreCounting bonus.scoreCounting.2 = bonus.scoreCounting := by
    rcases parts with ⟨-, after, up, none, sameAfter⟩ |
      ⟨has, before, brought, more, later, present, walked, onDoc, sameLater, stays, sameAfter⟩
    · have owner : after.required = scored := up.required
      have unpolled : { after with required := scored } = after := by rw [← owner]
      rw [sameAfter]
      simp only [scoreCounting, owner, again, unpolled, up.abreast.poll_eq, none]
    · have abreast : (⟨scored, some later⟩ : Bonus ρ ο).Abreast := by
        rintro _ ⟨⟩
        exact (unmoved.trans stays.symm).le
      have there : (⟨scored, some later⟩ : Bonus ρ ο).here = some later := by
        simp [here, Option.filter_some, unmoved, stays]
      have moreAgain : Scorer.scoreCounting later = (.ok more, later) := by
        have settled := (moreRepeats before present brought walked (by rw [onDoc]; exact optional.real _ has)).tally
        rwa [sameLater] at settled
      rw [sameAfter]
      simp only [scoreCounting, again, abreast.poll_eq, there, moreAgain]
  exact ⟨congrArg (fun step : Step (Bonus ρ ο) (S × Nat) => step.map (·.1)) whole, whole⟩

theorem repeats {scorer : ρ} {companion : ο} {required optional : Meaning S} (denotes : Denotes scorer required)
    (adds : Denotes companion optional) (repeats : Repeats scorer) (moreRepeats : Repeats companion) :
    Repeats (ofParts scorer companion) := by
  intro state reached placed
  have sound := (sound_invariant required optional).holds_of_reaches (ofParts_sound denotes adds) reached
  have walked := walked_of_reaches denotes adds reached
  exact sound.settled (sound.refines.member_of_real placed) (repeats.after walked.required)
    fun part present => moreRepeats.after (walked.optional part present)

end Bonus

theorem Step.each_settled {α β : Type} {step : α → Step α β} {states : List α}
    (settled : ∀ state ∈ states, step (step state).2 = step state) :
    each step (each step states).2 = each step states := by
  induction states with
  | nil => rfl
  | cons state states ih =>
    obtain ⟨first, rest⟩ := List.forall_mem_cons.mp settled
    have again := ih rest
    rw [each]
    rcases same : step state with ⟨failure | answer, after⟩
    · rw [same] at first
      simp only [each, first]
    · rw [same] at first
      rcases others : each step states with ⟨failure | answers, restAfter⟩
      · rw [others] at again
        simp only [each, first, again]
      · rw [others] at again
        simp only [each, first, again]

theorem Step.length_each {α β : Type} (step : α → Step α β) (states : List α) :
    (each step states).2.length = states.length := by
  induction states with
  | nil => rfl
  | cons state states ih =>
    rw [each]
    rcases step state with ⟨failure | answer, after⟩
    · rfl
    · rcases others : each step states with ⟨failure | answers, rest⟩ <;>
      · rw [others] at ih
        exact congrArg (· + 1) ih

def Placed.tally (place : Placed σ) : Step (Placed σ) (S × Nat) :=
  (Scorer.scoreCounting place.scorer).within (Placed.mk place.doc)

omit [Score S] in
theorem Placed.tally_settled {place : Placed σ} (settled : Settled place.scorer) : place.tally.2.tally = place.tally :=
  congrArg (fun step : Step σ (S × Nat) => step.within (Placed.mk place.doc)) settled.tally

namespace Conjunction

theorem scoreCounting_eq (conjunction : Conjunction S σ) :
    conjunction.scoreCounting = match conjunction.lead.tally with
      | (.error failure, lead) => (.error failure, { conjunction with lead })
      | (.ok (first, count), lead) =>
        match Step.each Placed.tally conjunction.followers with
        | (.error failure, followers) => (.error failure, { conjunction with lead, followers })
        | (.ok scores, followers) =>
          (.ok (Score.round (Score.total (first :: scores.map (·.1))) * conjunction.factor,
            count + scores.foldr (fun score counts => score.2 + counts) 0 +
              if conjunction.counting then conjunction.size else 0),
            { conjunction with lead, followers }) :=
  rfl

theorem settled_of_parts {conjunction : Conjunction S σ} (settled : ∀ place ∈ conjunction.parts, Settled place.scorer) :
    Settled conjunction := by
  obtain ⟨leadSettled, followersSettled⟩ := List.forall_mem_cons.mp settled
  have leadAgain := Placed.tally_settled leadSettled
  have followersAgain := Step.each_settled fun place member => Placed.tally_settled (followersSettled place member)
  have length := Step.length_each Placed.tally conjunction.followers
  have whole : scoreCounting conjunction.scoreCounting.2 = conjunction.scoreCounting := by
    rw [scoreCounting_eq conjunction]
    rcases lead : conjunction.lead.tally with ⟨failure | ⟨first, count⟩, after⟩
    · rw [lead] at leadAgain
      rw [scoreCounting_eq, leadAgain]
    · rw [lead] at leadAgain
      rcases rest : Step.each Placed.tally conjunction.followers with ⟨failure | answers, followers⟩
      · rw [rest] at followersAgain
        rw [scoreCounting_eq, leadAgain, followersAgain]
      · rw [rest] at followersAgain length
        have size : ({ conjunction with lead := after, followers } : Conjunction S σ).size = conjunction.size :=
          congrArg (· + 1) length
        rw [scoreCounting_eq, leadAgain, followersAgain]
        simp only [size]
  exact ⟨congrArg (fun step : Step (Conjunction S σ) (S × Nat) => step.map (·.1)) whole, whole⟩

omit [Score S] [Scorer S σ] in
theorem mem_of_mem_parts [Cursor σ] {scorers : List σ} {factor : S} {made : Conjunction S σ}
    (same : ofList scorers factor = .ok made) {place : Placed σ} (member : place ∈ made.parts) :
    place.scorer ∈ scorers := by
  have perm := StableSort.sort_perm (fun a b : Placed σ => decide (Cursor.cost a.scorer ≤ Cursor.cost b.scorer))
    (scorers.map Placed.ofScorer)
  unfold ofList at same
  dsimp only at same
  generalize StableSort.sort _ (scorers.map Placed.ofScorer) = places at same perm
  cases places with
  | nil => cases same
  | cons lead followers =>
    cases same
    obtain ⟨scorer, listed, rfl⟩ := List.mem_map.mp (perm.mem_iff.mp member)
    exact listed

omit [Score S] in
theorem Aligned.and {holds : Meaning S → σ → Prop} {kept : σ → Prop} {leadMeaning : Meaning S}
    {meanings : List (Meaning S)} {factor : S} {counting : Bool} {conjunction : Conjunction S σ}
    (aligned : Aligned holds leadMeaning meanings factor counting conjunction)
    (each : ∀ place ∈ conjunction.parts, kept place.scorer) :
    Aligned (fun meaning scorer => holds meaning scorer ∧ kept scorer) leadMeaning meanings factor counting
      conjunction := by
  obtain ⟨leadKept, followersKept⟩ := List.forall_mem_cons.mp each
  refine { aligned with lead := ⟨aligned.lead.noted, aligned.lead.here, leadKept⟩, followers := ?_ }
  rw [List.forall₂_iff_get]
  refine ⟨aligned.followers.length_eq, fun i inMeanings inFollowers => ?_⟩
  have follows := aligned.followers.get inMeanings inFollowers
  exact ⟨follows.noted, follows.here, followersKept _ (List.get_mem ..)⟩

theorem Aligned.repeats {leadMeaning : Meaning S} {meanings : List (Meaning S)} {factor : S} {counting : Bool}
    {conjunction : Conjunction S σ}
    (aligned : Aligned (fun meaning scorer => Refines scorer meaning) leadMeaning meanings factor counting conjunction)
    (each : ∀ place ∈ conjunction.parts, Repeats place.scorer) : Repeats conjunction := by
  have both : ∀ part : Meaning S, Invariant part fun scorer : σ => Refines scorer part ∧ Repeats scorer := fun part =>
    (Refines.invariant part).and fun _ _ repeats step => repeats.after (.single step)
  have invariant := aligned_invariant both leadMeaning meanings factor counting
  intro state reached placed
  have kept := invariant.holds_of_reaches (aligned.and each) reached
  refine settled_of_parts fun place member => ?_
  obtain ⟨meaning, -, follows⟩ := kept.exists_follows member
  exact follows.here.2 _ .refl (by rwa [kept.doc_eq placed.ne_noMoreDocs member])

theorem repeats {meanings : List (Meaning S)} {scorers : List σ}
    (denote : List.Forall₂ (fun meaning scorer => Denotes scorer meaning) meanings scorers)
    (each : ∀ scorer ∈ scorers, Repeats scorer) {factor : S} {made : Conjunction S σ}
    (same : ofList scorers factor = .ok made) : Repeats made ∧ Repeats made.counted := by
  have nonempty : scorers ≠ [] := List.ne_nil_of_mem (mem_of_mem_parts same List.mem_cons_self)
  obtain ⟨conjunction, leadMeaning, order, sameMade, -, -, aligned⟩ := ofList_aligned denote nonempty factor
  obtain rfl := Except.ok.inj (sameMade.symm.trans same)
  have parts : ∀ place ∈ conjunction.parts, Repeats place.scorer := fun place member =>
    each _ (mem_of_mem_parts same member)
  exact ⟨aligned.repeats parts, aligned.counted.repeats parts⟩

end Conjunction

end Scorers

end PostingQuery
