import Mathlib
import PostingQuery.Proofs.Companion
import PostingQuery.Proofs.ExactScore
import PostingQuery.Proofs.Term

/-!
The score of a bonus. The optional scorer is moved by scoring only, and it is dropped once it is used up, so where it
stands depends on the documents that were scored before: behind the current document, on it, beyond it or nowhere.
Scoring brings it up to the current document, and from then on it is there if it has that document at all. So a score
says what the two parts say there, and scoring again says the same.
-/

namespace PostingQuery

section Reach

variable {S σ : Type} [Scorer S σ]

theorem reaches_reach (state : σ) {target : DocId} (inside : target ≤ noMoreDocs) :
    Reaches state (Cursor.reach state target).2 := by
  unfold Cursor.reach
  split
  next behind => exact .single (.advance state target behind inside)
  next => exact .refl

def Answers (scorer : σ) (doc : DocId) (answer : S × Nat) : Prop :=
  ∃ state, Reaches scorer state ∧ Cursor.doc state = doc ∧ (Scorer.scoreCounting state).1 = .ok answer

theorem Denotes.tallies_of_answers {meaning : Meaning S} {scorer : σ} (denotes : Denotes scorer meaning)
    {doc : DocId} (member : doc ∈ meaning.docs) {answer : S × Nat} (answers : Answers scorer doc answer) :
    meaning.tallies doc answer := by
  obtain ⟨state, reached, rfl, answered⟩ := answers
  obtain ⟨given, after, same, tallies, -⟩ := (denotes.refines state reached).tally member
  rw [same] at answered
  rwa [Except.ok.inj answered] at tallies

end Reach

namespace Bonus

variable {S ρ ο : Type} [Scorer S ρ] [Scorer S ο] {required optional : Meaning S} {bonus : Bonus ρ ο}

def here (bonus : Bonus ρ ο) : Option ο :=
  bonus.optional.filter fun scorer => Cursor.doc scorer == Cursor.doc bonus.required

def Abreast (bonus : Bonus ρ ο) : Prop :=
  ∀ scorer, bonus.optional = some scorer → Cursor.doc bonus.required ≤ Cursor.doc scorer

theorem Abreast.poll_eq (abreast : bonus.Abreast) : bonus.poll = (.ok bonus.here, bonus) := by
  unfold poll here
  split
  next none => simp [none]
  next scorer present =>
    have there := not_lt.mpr (abreast scorer present)
    have stays : Cursor.reach scorer (Cursor.doc bonus.required) = (.ok (Cursor.doc scorer), scorer) := if_neg there
    have unmoved : { bonus with optional := some scorer } = bonus := by rw [← present]
    simp only [stays, unmoved, there, decide_false, Bool.false_and, Bool.false_eq_true, if_false, present,
      Option.filter_some, beq_iff_eq]

theorem Abreast.here_isSome (abreast : bonus.Abreast)
    (trails : Trails optional (Cursor.doc bonus.required) bonus.optional) (real : IsReal (Cursor.doc bonus.required)) :
    bonus.here.isSome ↔ Cursor.doc bonus.required ∈ optional.docs := by
  unfold here
  cases present : bonus.optional with
  | none =>
    rw [present] at trails
    simpa using fun has => lt_irrefl _ (trails _ has)
  | some scorer =>
    rw [present] at trails
    obtain ⟨refines, covers⟩ := trails
    simp only [Option.filter_some, beq_iff_eq]
    constructor
    · intro found
      have there : Cursor.doc scorer = Cursor.doc bonus.required := by
        by_contra apart
        simp [apart] at found
      rw [← there] at real ⊢
      exact refines.member_of_real real
    · intro has
      have there := (covers _ has le_rfl).antisymm (abreast scorer present)
      simp [there]

structure BroughtUp (optional : Meaning S) (bonus after : Bonus ρ ο) : Prop where
  required : after.required = bonus.required
  abreast : after.Abreast
  trails : Trails optional (Cursor.doc bonus.required) after.optional
  walks : ∀ scorer, after.optional = some scorer → ∃ before, bonus.optional = some before ∧ Reaches before scorer

/-- Wherever the optional scorer stands, bringing it up finds it on the current document if it has it. -/
theorem exists_broughtUp (trails : Trails optional (Cursor.doc bonus.required) bonus.optional)
    (real : IsReal (Cursor.doc bonus.required)) :
    ∃ after, bonus.poll = (.ok after.here, after) ∧ BroughtUp optional bonus after := by
  obtain ⟨owner, companion⟩ := bonus
  cases companion with
  | none => exact ⟨⟨owner, none⟩, rfl, rfl, nofun, trails, nofun⟩
  | some scorer =>
    obtain ⟨refines, covers⟩ := trails
    obtain ⟨landing, moved, same, arrival, refinesMoved⟩ := refines.reach covers real
    have walked := reaches_reach scorer real.2.le
    have beyond := arrival.2.reached
    rw [same] at walked
    simp only [poll, same]
    split
    next ended =>
      rw [Bool.and_eq_true, beq_iff_eq] at ended
      obtain ⟨-, rfl⟩ := ended
      exact ⟨⟨owner, none⟩, rfl, rfl, nofun, trails_of_ended arrival.2, nofun⟩
    next =>
      refine ⟨⟨owner, some moved⟩, ?_, rfl, ?_, trails_of_arrival arrival refinesMoved, ?_⟩
      · simp [here, Option.filter_some, arrival.1]
      · rintro _ ⟨⟩
        exact beyond.trans_eq arrival.1.symm
      · rintro _ ⟨⟩
        exact ⟨scorer, rfl, walked⟩

variable [Score S]

theorem Sound.exists_scoring (sound : Sound required optional bonus)
    (member : Cursor.doc bonus.required ∈ required.docs) :
    ∃ own scored, Scorer.scoreCounting bonus.required = (.ok own, scored) ∧
      Cursor.doc scored = Cursor.doc bonus.required ∧
      (Cursor.doc bonus.required ∉ optional.docs ∧
          (∃ after, BroughtUp optional ⟨scored, bonus.optional⟩ after ∧ after.here = none ∧
            bonus.scoreCounting = (.ok own, after)) ∨
        Cursor.doc bonus.required ∈ optional.docs ∧
          ∃ before brought more later, bonus.optional = some before ∧ Reaches before brought ∧
            Cursor.doc brought = Cursor.doc bonus.required ∧ Scorer.scoreCounting brought = (.ok more, later) ∧
            Cursor.doc later = Cursor.doc bonus.required ∧
            bonus.scoreCounting = (.ok (own.1 + more.1, own.2 + more.2), ⟨scored, some later⟩)) := by
  obtain ⟨own, scored, same, ⟨-, unmoved⟩, refines⟩ := sound.refines.tally member
  have real : IsReal (Cursor.doc scored) := unmoved ▸ required.real _ member
  have trails := sound.trails
  rw [← unmoved] at trails ⊢
  refine ⟨own, scored, same, rfl, ?_⟩
  have trailing : Trails optional (Cursor.doc (Bonus.mk scored bonus.optional).required) bonus.optional := trails
  obtain ⟨after, sameAfter, up⟩ := exists_broughtUp trailing real
  have owner : after.required = scored := up.required
  have isSome := up.abreast.here_isSome (by rw [owner]; exact up.trails) (by rw [owner]; exact real)
  rw [owner] at isSome
  cases found : after.here with
  | none =>
    rw [found] at isSome
    refine .inl ⟨fun has => Bool.false_ne_true (isSome.mpr has), after, up, found, ?_⟩
    simp only [scoreCounting, same, sameAfter, found]
  | some brought =>
    rw [found] at isSome
    have has := isSome.mp rfl
    obtain ⟨listed, onDoc⟩ := Option.filter_eq_some_iff.mp found
    rw [beq_iff_eq, owner] at onDoc
    obtain ⟨before, present, walked⟩ := up.walks brought listed
    have trailsAfter := up.trails
    rw [listed] at trailsAfter
    obtain ⟨more, later, sameLater, ⟨-, stays⟩, -⟩ := trailsAfter.1.tally (by rwa [onDoc])
    refine .inr ⟨has, before, brought, more, later, present, walked, onDoc, sameLater, stays.trans onDoc, ?_⟩
    simp only [scoreCounting, same, sameAfter, found, sameLater, owner]

/-- The parts of a bonus have been led to where they stand by legal walks of their own. -/
structure Walked (scorer : ρ) (companion : ο) (bonus : Bonus ρ ο) : Prop where
  required : Reaches scorer bonus.required
  optional : ∀ part, bonus.optional = some part → Reaches companion part

theorem Walked.scoreCounting {scorer : ρ} {companion : ο} (walked : Walked scorer companion bonus)
    (sound : Sound required optional bonus) (member : Cursor.doc bonus.required ∈ required.docs) :
    Walked scorer companion bonus.scoreCounting.2 := by
  obtain ⟨own, scored, same, unmoved, parts⟩ := sound.exists_scoring member
  have tallied := LegalStep.tally bonus.required (required.real _ member)
  rw [same] at tallied
  have owner := walked.required.tail tallied
  rcases parts with ⟨-, after, up, -, sameAfter⟩ |
    ⟨has, before, brought, more, later, present, moved, onDoc, sameLater, -, sameAfter⟩
  · rw [sameAfter]
    refine ⟨up.required ▸ owner, fun part listed => ?_⟩
    obtain ⟨before, present, moved⟩ := up.walks part listed
    exact (walked.optional before present).trans moved
  · rw [sameAfter]
    refine ⟨owner, ?_⟩
    rintro _ ⟨⟩
    have scoredStep := LegalStep.tally brought (by rw [onDoc]; exact optional.real _ has)
    rw [sameLater] at scoredStep
    exact ((walked.optional before present).trans moved).tail scoredStep

theorem Walked.step {scorer : ρ} {companion : ο} {after : Bonus ρ ο} (walked : Walked scorer companion bonus)
    (sound : Sound required optional bonus) (step : LegalStep bonus after) : Walked scorer companion after := by
  have scoring : IsReal (Cursor.doc bonus) → Walked scorer companion bonus.scoreCounting.2 := fun placed =>
    walked.scoreCounting sound (sound.refines.member_of_real placed)
  cases step with
  | next live => exact ⟨walked.required.tail (.next bonus.required live), walked.optional⟩
  | advance target beyond inside =>
    exact ⟨walked.required.tail (.advance bonus.required target beyond inside), walked.optional⟩
  | score placed => exact scoring placed
  | tally placed => exact scoring placed

theorem walked_of_reaches {scorer : ρ} {companion : ο} (denotes : Denotes scorer required)
    (adds : Denotes companion optional) {state : Bonus ρ ο} (reached : Reaches (ofParts scorer companion) state) :
    Walked scorer companion state := by
  have sound := ofParts_sound denotes adds
  induction reached with
  | refl => exact ⟨.refl, by rintro _ ⟨⟩; exact .refl⟩
  | tail walked step ih =>
    exact ih.step ((sound_invariant required optional).holds_of_reaches sound walked) step

theorem Walked.scoreCounting_yields {scorer : ρ} {companion : ο} (walked : Walked scorer companion bonus)
    (sound : Sound required optional bonus) (member : Cursor.doc bonus.required ∈ required.docs) :
    bonus.scoreCounting.Yields fun answer after => Cursor.doc after.required = Cursor.doc bonus.required ∧
      ∃ own, Scorer.scoreCounting bonus.required = (.ok own, after.required) ∧
        (Cursor.doc bonus.required ∉ optional.docs ∧ answer = own ∨
          Cursor.doc bonus.required ∈ optional.docs ∧ ∃ more, Answers companion (Cursor.doc bonus.required) more ∧
            answer = (own.1 + more.1, own.2 + more.2)) := by
  obtain ⟨own, scored, same, unmoved, parts⟩ := sound.exists_scoring member
  rcases parts with ⟨lacks, after, up, -, sameAfter⟩ |
    ⟨has, before, brought, more, later, present, moved, onDoc, sameLater, -, sameAfter⟩
  · have owner : after.required = scored := up.required
    refine ⟨own, after, sameAfter, ?_, own, ?_, .inl ⟨lacks, rfl⟩⟩
    · rw [owner]
      exact unmoved
    · rw [owner]
      exact same
  · have answers : Answers companion (Cursor.doc bonus.required) more :=
      ⟨brought, (walked.optional before present).trans moved, onDoc, congrArg Prod.fst sameLater⟩
    exact ⟨_, _, sameAfter, unmoved, own, same, .inr ⟨has, more, answers, rfl⟩⟩

/-- A bonus walks as its required scorer does, and each score on a document is the one that the required scorer
gives there, with that of the optional scorer added exactly if it has the document; and so is each count. A part
whose sums are rounded may itself answer differently on different walks. Where each part has one answer on each
document, so has the bonus, whatever has been scored before. -/
theorem walk_adds_scores_of_optional {scorer : ρ} {companion : ο} (denotes : Denotes scorer required)
    (adds : Denotes companion optional) :
    Cursor.doc (ofParts scorer companion) = unpositioned ∧
      ∀ state, Reaches (ofParts scorer companion) state →
        Reaches scorer state.required ∧ Cursor.doc state.required = Cursor.doc state ∧
        (Cursor.doc state ≠ noMoreDocs → (Cursor.next state).Yields fun landing after =>
          Arrival required.docs (Cursor.doc state + 1) landing after ∧
            Cursor.next state.required = (.ok landing, after.required)) ∧
        (∀ target, Cursor.doc state < target → target ≤ noMoreDocs →
          (Cursor.advance state target).Yields fun landing after => Arrival required.docs target landing after ∧
            Cursor.advance state.required target = (.ok landing, after.required)) ∧
        (Cursor.doc state ∈ required.docs →
          (Scorer.score state).1 = (Scorer.scoreCounting state).1.map (·.1) ∧
          ((Scorer.scoreCounting state).Yields fun answer after => Cursor.doc after = Cursor.doc state ∧
            ∃ own, Scorer.scoreCounting state.required = (.ok own, after.required) ∧
              (Cursor.doc state ∉ optional.docs ∧ answer = own ∨
                Cursor.doc state ∈ optional.docs ∧ ∃ more, Answers companion (Cursor.doc state) more ∧
                  answer = (own.1 + more.1, own.2 + more.2))) ∧
          ∀ ownOn moreOn : DocId → S × Nat,
            (∀ doc ∈ required.docs, ∀ answer, Answers scorer doc answer → answer = ownOn doc) →
            (∀ doc ∈ optional.docs, ∀ answer, Answers companion doc answer → answer = moreOn doc) →
            (Scorer.scoreCounting state).1 = .ok (
              if Cursor.doc state ∈ optional.docs then
                ((ownOn (Cursor.doc state)).1 + (moreOn (Cursor.doc state)).1,
                  (ownOn (Cursor.doc state)).2 + (moreOn (Cursor.doc state)).2)
              else ownOn (Cursor.doc state))) := by
  refine ⟨denotes.fresh, fun state reached => ?_⟩
  have sound := (sound_invariant required optional).holds_of_reaches (ofParts_sound denotes adds) reached
  have walked := walked_of_reaches denotes adds reached
  refine ⟨walked.required, rfl, fun live => ?_, fun target beyond inside => ?_, fun member =>
    ⟨rfl, walked.scoreCounting_yields sound member, fun ownOn moreOn ownOnly moreOnly => ?_⟩⟩
  · obtain ⟨landing, after, same, arrival, -⟩ := sound.refines.next live
    refine ⟨landing, { state with required := after }, ?_, arrival, same⟩
    exact congrArg (Step.within · fun required => { state with required }) same
  · obtain ⟨landing, after, same, arrival, -⟩ := sound.refines.advance beyond inside
    refine ⟨landing, { state with required := after }, ?_, arrival, same⟩
    exact congrArg (Step.within · fun required => { state with required }) same
  · obtain ⟨answer, after, same, -, own, sameOwn, parts⟩ := walked.scoreCounting_yields sound member
    have ownSame : own = ownOn (Cursor.doc state) :=
      ownOnly _ member own ⟨state.required, walked.required, rfl, congrArg Prod.fst sameOwn⟩
    change state.scoreCounting.1 = _
    rw [same, ← ownSame]
    rcases parts with ⟨lacks, rfl⟩ | ⟨has, more, answers, rfl⟩
    · exact congrArg Except.ok (if_neg lacks).symm
    · have moreSame : more = moreOn (Cursor.doc state) := moreOnly _ has more answers
      rw [← moreSame]
      exact congrArg Except.ok (if_pos has).symm

/-- A term in the documents 1 and 5 and an optional one in the document 5. Document 1 is passed without a score, and
document 5 has the sum. -/
theorem optional_term_adds_after_unscored_document :
    let start := ofParts (TermScorer.mk (P := PostingList) (.fresh [.ofDoc 1, .ofDoc 5]) (.constant (3 : ℚ) 1))
      (TermScorer.mk (P := PostingList) (.fresh [.ofDoc 5]) (.constant (4 : ℚ) 1))
    ∃ first second, Cursor.next start = (.ok 1, first) ∧ Cursor.next first = (.ok 5, second) ∧
      (Scorer.score second).1 = .ok 7 := by
  intro start
  have listed : Posting.Accepted [.ofDoc 1, .ofDoc 5] := ⟨rfl, by decide⟩
  have added : Posting.Accepted [.ofDoc 5] := ⟨rfl, by decide⟩
  have owner := TermScorer.denotes_of_ofPostings rfl listed (.constant (3 : ℚ) 1)
  have companion := TermScorer.denotes_of_ofPostings rfl added (.constant (4 : ℚ) 1)
  have toFirst : LegalStep start (Cursor.next start).2 := .next start (show unpositioned ≠ noMoreDocs by decide)
  have toSecond : LegalStep _ (Cursor.next (Cursor.next start).2).2 :=
    .next (Cursor.next start).2 (show (1 : DocId) ≠ noMoreDocs by decide)
  refine ⟨_, _, rfl, rfl, ?_⟩
  obtain ⟨-, -, -, -, scores⟩ :=
    (walk_adds_scores_of_optional owner companion).2 _ ((Relation.ReflTransGen.single toFirst).tail toSecond)
  obtain ⟨same, -, single⟩ := scores (show (5 : DocId) ∈ Posting.docs [.ofDoc 1, .ofDoc 5] by decide)
  have has : (5 : DocId) ∈ Posting.docs [.ofDoc 5] := by decide
  refine same.trans ?_
  rw [single (fun _ => (3, 0)) (fun _ => (4, 0))]
  · refine (congrArg (fun answer => Except.ok (Prod.fst answer)) (if_pos has)).trans ?_
    norm_num
  · intro doc member answer answers
    refine (owner.tallies_of_answers member answers).trans ?_
    simp [Relevance.constant]
  · intro doc member answer answers
    refine (companion.tallies_of_answers member answers).trans ?_
    simp [Relevance.constant]

end Bonus

end PostingQuery
