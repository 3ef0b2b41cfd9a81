import Mathlib
import PostingQuery.Proofs.ExactScore

/-!
The number of matching clauses that the scorer of a boolean query reports on a document. Most plans report
the clauses that match there, required and optional ones together, which is the number that the factor is
chosen by. Two plans do not: a gate reports its two sides, and a bonus leaves its optional clauses out until
scoring has brought them up.
-/

namespace PostingQuery

namespace Meaning

variable {S : Type} {clauses others prohibited : List (Meaning S)}

def Counted (group : Meaning S) (clauses : List (Meaning S)) : Prop :=
  ∀ doc ∈ group.docs, ∀ count, group.counts doc count → count = (matching clauses doc).length

theorem single_counted (clause : Meaning S) : Counted clause.single [clause] := by
  intro doc member count one
  have here : (matching [clause] doc).length = [clause].length :=
    matching_length_eq_iff.mpr fun other listed => (List.mem_singleton.mp listed).symm ▸ member
  exact Eq.trans one here.symm

variable [Score S]

theorem shared_counted (clauses : List (Meaning S)) (factor : S) (counting : Bool) :
    Counted (shared clauses factor counting) clauses := by
  intro doc member count all
  exact Eq.trans all (matching_length_eq_iff.mpr (mem_shared.mp member).2).symm

theorem requireAll_counted (clauses : List (Meaning S)) : Counted (requireAll clauses) clauses := by
  unfold requireAll
  split
  next clause => exact single_counted clause
  next => exact shared_counted _ _ _

theorem require_counted (clauses : List (Meaning S)) (minimum : Nat) :
    Counted (require clauses minimum) clauses := by
  unfold require
  split
  next => exact fun _ _ _ counted => counted
  next => exact fun _ _ _ counted => counted

theorem requireSome_counted (clauses : List (Meaning S)) : Counted (requireSome clauses) clauses := by
  unfold requireSome
  split
  next clause => exact single_counted clause
  next => exact require_counted _ _

theorem excluding_counted {group : Meaning S} (counted : Counted group clauses) :
    Counted (group.excluding prohibited) clauses := by
  intro doc member count reported
  have inside := (mem_excluding.mp member).1
  unfold excluding at reported
  split at reported
  all_goals exact counted doc inside count reported

theorem withBonus_counts {group bonus : Meaning S} (counted : Counted group clauses)
    (bonusCounted : Counted bonus others) {doc : DocId} {count : Nat} (member : doc ∈ group.docs)
    (reported : (group.withBonus bonus).counts doc count) :
    count = (matching clauses doc).length ∨ count = (matching (clauses ++ others) doc).length := by
  obtain ⟨own, ownCounts, rfl | ⟨more, has, moreCounts, rfl⟩⟩ := reported
  · exact .inl (counted doc member _ ownCounts)
  · rw [counted doc member own ownCounts, bonusCounted doc has more moreCounts, matching_append,
      List.length_append]
    exact .inr rfl

end Meaning

namespace Bonus

variable {S ρ ο : Type} [Score S] [Scorer S ρ] [Scorer S ο] {required optional : Meaning S}
  {clauses others : List (Meaning S)} {bonus : Bonus ρ ο}

/-- A bonus that has been caught up reports all clauses that match. `whole` says that the optional side has
each document with an optional clause. -/
theorem Sound.matchCount_eq (sound : Sound required optional bonus)
    (member : Cursor.doc bonus.required ∈ required.docs) (counted : required.Counted clauses)
    (optionalCounted : optional.Counted others)
    (whole : ∀ doc, doc ∉ optional.docs → Meaning.matching others doc = [])
    (caughtUp : CaughtUp optional bonus) :
    bonus.matchCount = (Meaning.matching (clauses ++ others) (Cursor.doc bonus.required)).length := by
  by_cases has : Cursor.doc bonus.required ∈ optional.docs
  · obtain ⟨scorer, present, level⟩ := caughtUp has
    have trails := sound.trails
    rw [present] at trails
    have own := counted _ member _ (sound.refines.behaves.count member)
    have more := optionalCounted _ (level ▸ has) _ (trails.1.behaves.count (level ▸ has))
    simp only [matchCount, present, if_pos level]
    rw [own, more, level, Meaning.matching_append, List.length_append]
  · have reported := (sound_invariant required optional).count bonus sound member
    rcases Meaning.withBonus_counts counted optionalCounted member reported with own | all
    · rw [Meaning.matching_append, whole _ has, List.append_nil]
      exact own
    · exact all

theorem scoreCounting_counts (sound : Sound required optional bonus)
    (member : Cursor.doc bonus.required ∈ required.docs) (counted : required.Counted clauses)
    (optionalCounted : optional.Counted others)
    (whole : ∀ doc, doc ∉ optional.docs → Meaning.matching others doc = []) :
    bonus.scoreCounting.Yields fun _ after => Cursor.doc after = Cursor.doc bonus ∧
      after.matchCount = (Meaning.matching (clauses ++ others) (Cursor.doc bonus)).length := by
  refine (scoreCounting_yields sound member).mono fun _ after ⟨⟨_, stays⟩, soundAfter, caughtUp⟩ => ?_
  have all := soundAfter.matchCount_eq (stays ▸ member) counted optionalCounted whole caughtUp
  rw [stays] at all
  exact ⟨stays, all⟩

end Bonus

/-- What a plan reports of the clauses that match a document: all of them, unless it is a gate, which reports
its two sides, or a bonus, which may leave the optional clauses out. -/
def BooleanPlan.Reports (required overlap count : Nat) : BooleanPlan → Prop
  | .gated => count = 2
  | .bonus => count = required ∨ count = overlap
  | _ => count = overlap

theorem BooleanPlan.Reports.eq {plan : BooleanPlan} {required overlap count : Nat}
    (reports : plan.Reports required overlap count) (ungated : plan ≠ .gated) (plain : plan ≠ .bonus) :
    count = overlap := by
  cases plan with
  | gated => exact absurd rfl ungated
  | bonus => exact absurd rfl plain
  | _ => exact reports

namespace BooleanQuery

variable {S σ : Type} [Score S] [Scorer S σ] {query : BooleanQuery S σ}
  {required optional prohibited : List (Meaning S)}

open Meaning

omit [Scorer S σ] in
theorem ofPlan_counts (query : BooleanQuery S σ) (mustLength : required.length = query.required.length)
    (shouldLength : optional.length = query.optional.length) {doc : DocId} {count : Nat}
    (member : doc ∈ (ofPlan required optional prohibited query.minimum query.table query.plan).docs)
    (reported : (ofPlan required optional prohibited query.minimum query.table query.plan).counts doc count) :
    query.plan.Reports query.required.length (matching (required ++ optional) doc).length count := by
  have suits := query.plan_suits
  have noneRequired : query.required = [] → required = [] := fun none => by
    rw [none] at mustLength
    exact List.eq_nil_of_length_eq_zero mustLength
  generalize query.plan = plan at suits member reported
  cases plan with
  | nothing => exact absurd member (Finset.notMem_empty doc)
  | requiredOnly =>
    have noneOptional : optional = [] := by
      rw [suits.2.1] at shouldLength
      exact List.eq_nil_of_length_eq_zero shouldLength
    rw [noneOptional, List.append_nil]
    exact shared_counted _ _ _ doc member count reported
  | optionalOnly =>
    rw [noneRequired suits.1]
    exact reported
  | someOptional least =>
    rw [noneRequired suits.1]
    exact excluding_counted (require_counted _ _) doc member count reported
  | oneOptional =>
    rw [noneRequired suits.1]
    exact excluding_counted (requireAll_counted _) doc member count reported
  | allOptional =>
    rw [noneRequired suits.1]
    exact excluding_counted (shared_counted _ _ _) doc member count reported
  | everyClause => exact excluding_counted (shared_counted _ _ _) doc member count reported
  | gated =>
    have both := excluding_counted (shared_counted [_, _] _ _) doc member count reported
    exact both.trans (matching_length_eq_iff.mpr (mem_shared.mp (mem_excluding.mp member).1).2)
  | bonus =>
    have all := ((mem_requireAll (by rw [← List.length_pos_iff, mustLength]; exact List.length_pos_iff.mpr suits.1)).mp
      (mem_excluding.mp member).1).2
    have either := withBonus_counts (excluding_counted (requireAll_counted required))
      (requireSome_counted optional) member reported
    rwa [all, mustLength] at either

theorem counting_bonus_counts {bonus : Bonus (Filtered S (ClauseGroup S σ) σ) (ClauseGroup S σ)}
    (sound : bonus.Sound ((requireAll required).excluding prohibited) (requireSome optional))
    (member : Cursor.doc bonus ∈ ((requireAll required).excluding prohibited).docs)
    (table : CoordinationTable S) :
    let reportsAll (after : BooleanScorer S σ) := Cursor.doc after = Cursor.doc bonus ∧
      Scorer.matchCount after = (matching (required ++ optional) (Cursor.doc bonus)).length
    ((Scorer.score (BooleanScorer.counting ⟨.bonus bonus, table⟩)).Yields fun _ after => reportsAll after) ∧
      (Scorer.scoreCounting (BooleanScorer.counting ⟨.bonus bonus, table⟩)).Yields fun _ after =>
        reportsAll after := by
  intro reportsAll
  let rebuild (bonus : Bonus (Filtered S (ClauseGroup S σ) σ) (ClauseGroup S σ)) : BooleanScorer S σ :=
    .counting ⟨.bonus bonus, table⟩
  have scored : bonus.scoreCounting.Yields fun _ after => reportsAll (rebuild after) :=
    Bonus.scoreCounting_counts sound member (excluding_counted (requireAll_counted required))
      (requireSome_counted optional) fun _ lacks => matching_eq_nil_of_notMem_requireSome lacks
  constructor
  · change ((bonus.scoreCounting.map fun own : S × Nat => own.1 * table.factor own.2).within rebuild).Yields _
    exact .within (.map scored)
  · change (((bonus.scoreCounting.map fun own : S × Nat => own.1 * table.factor own.2).map (·, 0)).within
      rebuild).Yields _
    exact .within (.map (.map scored))

/-- On a document that a legal walk has led to, a built scorer reports the clauses that match there, apart from
what a gate and a bonus do. Once the document has been scored, a bonus reports all of them too. -/
theorem build_counts_matching_clauses (must : AllDenote required query.required)
    (should : AllDenote optional query.optional) (mustNot : AllDenote prohibited query.prohibited)
    (valid : query.settings.validate = .ok ()) :
    ∃ scorer, query.build.outcome = .ok scorer ∧ Cursor.doc scorer = unpositioned ∧
      ∀ state, Reaches scorer state → IsReal (Cursor.doc state) → ∀ overlap,
        overlap = (matching (required ++ optional) (Cursor.doc state)).length →
        query.plan.Reports query.required.length overlap (Scorer.matchCount state) ∧
        (query.plan ≠ .gated →
          ((Scorer.score state).Yields fun _ after =>
            Cursor.doc after = Cursor.doc state ∧ Scorer.matchCount after = overlap) ∧
          (Scorer.scoreCounting state).Yields fun _ after =>
            Cursor.doc after = Cursor.doc state ∧ Scorer.matchCount after = overlap) := by
  obtain ⟨scorer, built, denotes⟩ := build_denotes must should mustNot valid
  refine ⟨scorer, built, denotes.fresh, fun state reached placed overlap same => ?_⟩
  subst same
  have reports : ∀ later, Reaches scorer later → IsReal (Cursor.doc later) →
      query.plan.Reports query.required.length
        (matching (required ++ optional) (Cursor.doc later)).length (Scorer.matchCount later) := by
    intro later reached placed
    have refines := (Refines.invariant _).holds_of_reaches denotes.refines reached
    have member := refines.member_of_real placed
    exact ofPlan_counts query must.length_eq should.length_eq member (refines.behaves.count member)
  refine ⟨reports state reached placed, fun ungated => ?_⟩
  by_cases bonus : query.plan = .bonus
  · obtain ⟨someRequired, someOptional, -⟩ := bonus ▸ query.plan_suits
    obtain ⟨start, same, -, sound⟩ := carryOut_bonus must should mustNot someRequired someOptional
    rw [build_outcome valid, bonus, same] at built
    obtain rfl := Except.ok.inj built
    have walk := (embeds_counting (S := S) (σ := σ)).invariant (Coordinated.invariant (embeds_bonus.invariant
      (Bonus.sound_invariant ((requireAll required).excluding prohibited) (requireSome optional))) query.table)
    obtain ⟨⟨_, table⟩, rfl, -, current, rfl, soundHere⟩ :=
      walk.holds_of_reaches ⟨_, rfl, rfl, start, rfl, sound⟩ reached
    exact counting_bonus_counts soundHere (soundHere.refines.member_of_real placed) table
  · have behaves := denotes.refines state reached
    have member := ((Refines.invariant _).holds_of_reaches denotes.refines reached).member_of_real placed
    constructor
    · obtain ⟨value, after, same, -, stays⟩ := behaves.score member
      have step := LegalStep.score state placed
      rw [same] at step
      have later := reports after (reached.tail step) (stays ▸ placed)
      exact ⟨value, after, same, stays, stays ▸ later.eq ungated bonus⟩
    · obtain ⟨answer, after, same, -, stays⟩ := behaves.tally member
      have step := LegalStep.tally state placed
      rw [same] at step
      have later := reports after (reached.tail step) (stays ▸ placed)
      exact ⟨answer, after, same, stays, stays ▸ later.eq ungated bonus⟩

def fifth : TermScorer PostingList ℚ := ⟨.fresh [.ofDoc 5], .constant 1 1⟩

/-- Four clauses match the document 5, one required and three optional ones of which two have to match. The gate
reports two. -/
theorem gate_reports_two_of_four_clauses :
    ∃ scorer, (build ⟨[fifth], [fifth, fifth, fifth], [], 2, CoordinationPolicy.share, .standard⟩).outcome =
        .ok scorer ∧
      Cursor.doc (Cursor.next scorer).2 = 5 ∧ Scorer.matchCount (Cursor.next scorer).2 = 2 := by
  have accepted : Posting.Accepted [.ofDoc 5] := ⟨rfl, by decide⟩
  have denotes : Denotes fifth (TermScorer.meaning accepted (.constant 1 1)) :=
    TermScorer.denotes_of_ofPostings rfl accepted (.constant 1 1)
  obtain ⟨scorer, built, fresh, walk⟩ := @build_counts_matching_clauses _ _ _ _
    ⟨_, _, _, 2, CoordinationPolicy.share, .standard⟩ _ _ _ (.cons denotes .nil)
    (.cons denotes (.cons denotes (.cons denotes .nil))) .nil rfl
  have run : (build ⟨[fifth], [fifth, fifth, fifth], [], 2, CoordinationPolicy.share, .standard⟩).outcome.toOption.map
      (fun scorer => Cursor.doc (Cursor.next scorer).2) = some 5 := by decide +kernel
  rw [built] at run
  have here : Cursor.doc (Cursor.next scorer).2 = 5 := Option.some.inj run
  have step : Reaches scorer (Cursor.next scorer).2 := .single (.next scorer (by rw [fresh]; decide))
  exact ⟨scorer, built, here, (walk _ step (by rw [here]; decide) _ rfl).1⟩

/-- Two optional clauses match the document 5 beside the required one. They are left out until it is scored. -/
theorem bonus_reports_optional_clauses_once_scored :
    (build ⟨[fifth], [fifth, fifth], [], 0, CoordinationPolicy.share, .standard⟩).outcome.toOption.map
      (fun scorer =>
        let landed := (Cursor.next scorer).2
        (Cursor.doc landed, Scorer.matchCount landed, Scorer.matchCount (Scorer.score landed).2)) =
      some (5, 1, 3) := by decide +kernel

end BooleanQuery

end PostingQuery
