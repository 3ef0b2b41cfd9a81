import Mathlib
import PostingQuery.Boolean.Build
import PostingQuery.Proofs.Companion
import PostingQuery.Proofs.Conjunction
import PostingQuery.Proofs.Disjunction
import PostingQuery.Proofs.Quorum
import PostingQuery.Proofs.Wrapper

/-!
What the scorer of a boolean query means. Each plan puts the clauses together in another way, and every
plan visits the same documents: those with all required clauses, no prohibited one and enough of the
optional ones.
-/

namespace PostingQuery

namespace Meaning

variable {S : Type} [Score S]

noncomputable def conjoin (clauses : List (Meaning S)) : Meaning S := shared clauses Score.one true

noncomputable def requireAll : List (Meaning S) → Meaning S
  | [clause] => clause.single
  | clauses => conjoin clauses

noncomputable def require (clauses : List (Meaning S)) (minimum : Nat) : Meaning S :=
  if 1 < minimum then atLeast minimum clauses true else any clauses .sum none true

noncomputable def requireSome : List (Meaning S) → Meaning S
  | [clause] => clause.single
  | clauses => require clauses 1

noncomputable def excluding (meaning : Meaning S) : List (Meaning S) → Meaning S
  | [] => meaning
  | [clause] => meaning.without clause
  | clauses => meaning.without (atLeast 1 clauses false)

noncomputable def ofPlan (required optional prohibited : List (Meaning S)) (minimum : Nat)
    (table : CoordinationTable S) : BooleanPlan → Meaning S
  | .nothing => nothing
  | .requiredOnly => shared required (table.factor required.length) false
  | .optionalOnly => any optional .sum (some table) false
  | .someOptional least => ((require optional least).excluding prohibited).coordinated table
  | .oneOptional => ((requireAll optional).excluding prohibited).coordinated table
  | .allOptional => ((conjoin optional).excluding prohibited).coordinated table
  | .everyClause => ((conjoin (required ++ optional)).excluding prohibited).coordinated table
  | .gated =>
    ((shared [requireAll required, require optional minimum] Score.one false).excluding
      prohibited).coordinated table
  | .bonus =>
    (((requireAll required).excluding prohibited).withBonus (requireSome optional)).coordinated table

section Documents

variable {clauses required optional prohibited : List (Meaning S)} {minimum : Nat} {doc : DocId}

omit [Score S] in
theorem matching_length_le (clauses : List (Meaning S)) (doc : DocId) :
    (matching clauses doc).length ≤ clauses.length :=
  List.length_filter_le _ _

omit [Score S] in
theorem matching_length_eq_iff :
    (matching clauses doc).length = clauses.length ↔ ∀ clause ∈ clauses, doc ∈ clause.docs := by
  simp [matching, List.length_filter_eq_length_iff]

omit [Score S] in
theorem matching_length_pos_iff :
    0 < (matching clauses doc).length ↔ ∃ clause ∈ clauses, doc ∈ clause.docs := by
  simp [matching, List.length_pos_iff_exists_mem]

omit [Score S] in
theorem matching_append (others : List (Meaning S)) :
    matching (clauses ++ others) doc = matching clauses doc ++ matching others doc :=
  List.filter_append ..

theorem mem_conjoin :
    doc ∈ (conjoin clauses).docs ↔ IsReal doc ∧ (matching clauses doc).length = clauses.length := by
  rw [conjoin, mem_shared, matching_length_eq_iff]

theorem mem_requireAll (nonempty : clauses ≠ []) :
    doc ∈ (requireAll clauses).docs ↔
      IsReal doc ∧ (matching clauses doc).length = clauses.length := by
  unfold requireAll
  split
  next clause =>
    rw [matching_length_eq_iff, List.forall_mem_singleton]
    exact (and_iff_right_of_imp (clause.real doc)).symm
  next => exact mem_conjoin

theorem mem_any_iff {aggregation : Aggregation S} {coordination : Option (CoordinationTable S)}
    {counting : Bool} : doc ∈ (any clauses aggregation coordination counting).docs ↔
      IsReal doc ∧ 1 ≤ (matching clauses doc).length := by
  rw [mem_any, ← matching_length_pos_iff]
  refine (and_iff_right_of_imp fun some => ?_).symm
  obtain ⟨clause, -, member⟩ := matching_length_pos_iff.mp some
  exact clause.real doc member

theorem mem_require :
    doc ∈ (require clauses minimum).docs ↔ IsReal doc ∧ max minimum 1 ≤ (matching clauses doc).length := by
  unfold require
  split
  next several => rw [mem_atLeast, max_eq_left several.le]
  next few => rw [mem_any_iff, max_eq_right (not_lt.mp few)]

theorem mem_requireSome : doc ∈ (requireSome clauses).docs ↔ 0 < (matching clauses doc).length := by
  rw [matching_length_pos_iff]
  unfold requireSome
  split
  next clause => simp [single]
  next => exact mem_any

theorem matching_eq_nil_of_notMem_requireSome (lacks : doc ∉ (requireSome clauses).docs) :
    matching clauses doc = [] := by
  rw [mem_requireSome] at lacks
  exact List.eq_nil_of_length_eq_zero (by omega)

theorem mem_excluding {meaning : Meaning S} :
    doc ∈ (meaning.excluding prohibited).docs ↔
      doc ∈ meaning.docs ∧ (matching prohibited doc).length = 0 := by
  unfold excluding
  split
  next => simp [matching]
  next clause => simp [without, matching]
  next =>
    rw [without, Finset.mem_sdiff, mem_atLeast, Nat.one_le_iff_ne_zero]
    have real := meaning.real doc
    tauto

noncomputable def selected (required optional prohibited : List (Meaning S)) (minimum : Nat) :
    Finset DocId :=
  allDocs.filter fun doc => (∀ clause ∈ required, doc ∈ clause.docs) ∧
    (∀ clause ∈ prohibited, doc ∉ clause.docs) ∧ minimum ≤ (matching optional doc).length ∧
    (required = [] → ∃ clause ∈ optional, doc ∈ clause.docs)

omit [Score S] in
theorem mem_selected :
    doc ∈ selected required optional prohibited minimum ↔ IsReal doc ∧
      (matching required doc).length = required.length ∧ (matching prohibited doc).length = 0 ∧
      minimum ≤ (matching optional doc).length ∧
      (required.length = 0 → 0 < (matching optional doc).length) := by
  have absent : (∀ clause ∈ prohibited, doc ∉ clause.docs) ↔ (matching prohibited doc).length = 0 := by
    simp [matching]
  rw [selected, Finset.mem_filter, mem_allDocs, matching_length_eq_iff, absent, matching_length_pos_iff,
    ← List.length_eq_zero_iff (l := required)]

end Documents

end Meaning

abbrev AllDenote {S σ : Type} [Scorer S σ] (meanings : List (Meaning S)) (scorers : List σ) : Prop :=
  List.Forall₂ (fun meaning scorer => Denotes scorer meaning) meanings scorers

namespace ClauseGroup

variable {S σ : Type} [Score S] [Scorer S σ] {meanings : List (Meaning S)} {clauses : List σ}

theorem embeds_one : Embeds (one : Single σ → ClauseGroup S σ) := .of_focus fun _ => rfl

theorem embeds_all : Embeds (all : Conjunction S σ → ClauseGroup S σ) := .of_focus fun _ => rfl

theorem embeds_any : Embeds (any : Disjunction S σ → ClauseGroup S σ) := .of_focus fun _ => rfl

theorem embeds_atLeast : Embeds (atLeast : Quorum S σ → ClauseGroup S σ) := .of_focus fun _ => rfl

theorem one_denotes {meaning : Meaning S} {clause : σ} (denotes : Denotes clause meaning) :
    Denotes (one ⟨clause⟩ : ClauseGroup S σ) meaning.single :=
  embeds_one.denotes (Single.denotes denotes)

theorem conjoin_denotes (denote : AllDenote meanings clauses) (nonempty : clauses ≠ []) :
    ∃ group, conjoin clauses = .ok group ∧ Denotes group (Meaning.conjoin meanings) := by
  obtain ⟨conjunction, same, -, counted⟩ :=
    Conjunction.ofList_denotes denote nonempty Score.one
  exact ⟨.all conjunction.counted, by rw [conjoin, same]; rfl, embeds_all.denotes counted⟩

theorem requireAll_denotes (denote : AllDenote meanings clauses) (nonempty : clauses ≠ []) :
    ∃ group, requireAll clauses = .ok group ∧ Denotes group (Meaning.requireAll meanings) := by
  cases denote with
  | nil => exact absurd rfl nonempty
  | cons denotes rest =>
    cases rest with
    | nil => exact ⟨_, rfl, one_denotes denotes⟩
    | cons second rest => exact conjoin_denotes (.cons denotes (.cons second rest)) nonempty

theorem require_denotes {minimum : Nat} (denote : AllDenote meanings clauses) (nonempty : clauses ≠ [])
    (inside : minimum ≤ clauses.length) :
    ∃ group, (require clauses minimum).outcome = .ok group ∧ Denotes group (Meaning.require meanings minimum) := by
  by_cases several : 1 < minimum
  · obtain ⟨quorum, same, -, -, counted, -⟩ :=
      Quorum.ofList_denotes denote (several.trans_le inside) (by omega) inside
    refine ⟨.atLeast quorum.counted, by rw [require, if_pos several, Logged.outcome_map, same]; rfl, ?_⟩
    rw [Meaning.require, if_pos several]
    exact embeds_atLeast.denotes counted
  · obtain ⟨disjunction, same, -, counted⟩ :=
      Disjunction.ofList_denotes denote nonempty (.sum : Aggregation S) none
    refine ⟨.any disjunction.counted, by rw [require, if_neg several, Logged.outcome_map, same]; rfl, ?_⟩
    rw [Meaning.require, if_neg several]
    exact embeds_any.denotes counted

theorem requireSome_denotes (denote : AllDenote meanings clauses) (nonempty : clauses ≠ []) :
    ∃ group : ClauseGroup S σ, (requireSome clauses).outcome = .ok group ∧ Denotes group (Meaning.requireSome meanings) := by
  cases denote with
  | nil => exact absurd rfl nonempty
  | cons denotes rest =>
    cases rest with
    | nil => exact ⟨_, rfl, one_denotes denotes⟩
    | cons second rest =>
      exact require_denotes (.cons denotes (.cons second rest)) nonempty (by simp)

end ClauseGroup

namespace Filtered

variable {S ρ σ : Type} [Score S] [Scorer S ρ] [Scorer S σ]

theorem embeds_free : Embeds (free : ρ → Filtered S ρ σ) := .of_focus fun _ => rfl

theorem embeds_behind : Embeds (behind : Exclusion ρ (Barrier S σ) → Filtered S ρ σ) :=
  .of_focus fun _ => rfl

theorem embeds_barrier_one : Embeds (Barrier.one : σ → Barrier S σ) := .of_focus fun _ => rfl

theorem embeds_barrier_any : Embeds (Barrier.any : Quorum S σ → Barrier S σ) := .of_focus fun _ => rfl

theorem without_denotes {scorer : ρ} {meaning : Meaning S} {meanings : List (Meaning S)}
    {clauses : List σ} (denotes : Denotes scorer meaning) (prohibited : AllDenote meanings clauses) :
    ∃ filtered, (without scorer clauses).outcome = .ok filtered ∧ Denotes filtered (meaning.excluding meanings) := by
  cases prohibited with
  | nil => exact ⟨_, rfl, embeds_free.denotes denotes⟩
  | cons first rest =>
    cases rest with
    | nil =>
      refine ⟨_, rfl, embeds_behind.denotes (Exclusion.ofParts_denotes denotes ?_)⟩
      exact embeds_barrier_one.denotes first
    | cons second rest =>
      obtain ⟨quorum, same, plain, -⟩ :=
        Quorum.ofList_denotes (.cons first (.cons second rest)) (by simp) Nat.one_pos (by simp)
      refine ⟨.behind (.ofParts scorer (.any quorum)), ?_, ?_⟩
      · rw [without]
        · rw [Logged.outcome_map, same]
          rfl
        all_goals simp
      · exact embeds_behind.denotes
          (Exclusion.ofParts_denotes denotes (embeds_barrier_any.denotes plain))

end Filtered

namespace BooleanQuery

variable {S σ : Type} [Score S] [Scorer S σ] {query : BooleanQuery S σ}
  {required optional prohibited : List (Meaning S)}

theorem embeds_nothing : Embeds (BooleanScorer.nothing : EmptyScorer S → BooleanScorer S σ) :=
  .of_focus fun _ => rfl

theorem embeds_all : Embeds (BooleanScorer.all : Conjunction S σ → BooleanScorer S σ) :=
  .of_focus fun _ => rfl

theorem embeds_any : Embeds (BooleanScorer.any : Disjunction S σ → BooleanScorer S σ) :=
  .of_focus fun _ => rfl

theorem embeds_counting :
    Embeds (BooleanScorer.counting : Coordinated S (CountingTree S σ) → BooleanScorer S σ) :=
  .of_focus fun _ => rfl

theorem embeds_group :
    Embeds (CountingTree.group : Filtered S (ClauseGroup S σ) σ → CountingTree S σ) :=
  .of_focus fun _ => rfl

theorem embeds_gated :
    Embeds (CountingTree.gated : Filtered S (Conjunction S (ClauseGroup S σ)) σ → CountingTree S σ) :=
  .of_focus fun _ => rfl

theorem embeds_bonus :
    Embeds (CountingTree.bonus :
      Bonus (Filtered S (ClauseGroup S σ) σ) (ClauseGroup S σ) → CountingTree S σ) :=
  .of_focus fun _ => rfl

theorem counting_denotes {tree : CountingTree S σ} {meaning : Meaning S} (denotes : Denotes tree meaning)
    (table : CoordinationTable S) :
    Denotes (BooleanScorer.counting ⟨tree, table⟩) (meaning.coordinated table) :=
  embeds_counting.denotes (Coordinated.denotes denotes table)

def Suits (query : BooleanQuery S σ) : BooleanPlan → Prop
  | .nothing => query.required = [] ∧ query.optional = [] ∨ query.optional.length < query.minimum
  | .requiredOnly =>
    query.required ≠ [] ∧ query.optional = [] ∧ query.prohibited = [] ∧ query.minimum = 0
  | .optionalOnly => query.required = [] ∧ query.optional ≠ [] ∧ query.prohibited = [] ∧ query.minimum ≤ 1
  | .someOptional least => query.required = [] ∧ query.optional ≠ [] ∧ least = max query.minimum 1 ∧
      least ≤ query.optional.length
  | .oneOptional => query.required = [] ∧ query.optional.length = 1 ∧ query.minimum ≤ 1
  | .allOptional => query.required = [] ∧ query.optional.length = query.minimum ∧ 1 < query.minimum
  | .everyClause => query.required ≠ [] ∧ query.optional.length = query.minimum
  | .gated => query.required ≠ [] ∧ query.optional ≠ [] ∧ 0 < query.minimum ∧
      query.minimum ≤ query.optional.length
  | .bonus => query.required ≠ [] ∧ query.optional ≠ [] ∧ query.minimum = 0

omit [Score S] [Scorer S σ] in
theorem plan_suits (query : BooleanQuery S σ) : query.Suits query.plan := by
  have isEmpty_iff : ∀ clauses : List σ, clauses.isEmpty = true ↔ clauses.length = 0 := by simp
  have ne_nil_iff : ∀ clauses : List σ, clauses ≠ [] ↔ clauses.length ≠ 0 := by simp
  have eq_nil_iff : ∀ clauses : List σ, clauses = [] ↔ clauses.length = 0 := by simp
  unfold plan matchesNothing
  simp only [Bool.or_eq_true, Bool.and_eq_true, decide_eq_true_iff, isEmpty_iff]
  split_ifs
  all_goals
    simp only [Suits, ne_nil_iff, eq_nil_iff, true_and]
    omega

theorem alone_denotes {group : ClauseGroup S σ} {meaning : Meaning S} (denotes : Denotes group meaning)
    (excluded : AllDenote prohibited query.prohibited) :
    ∃ scorer, (carryOut.alone query group).outcome = .ok scorer ∧
      Denotes scorer ((meaning.excluding prohibited).coordinated query.table) := by
  obtain ⟨filtered, same, holds⟩ := Filtered.without_denotes denotes excluded
  refine ⟨.counting ⟨.group filtered, query.table⟩, by rw [carryOut.alone, Logged.outcome_bind_of_ok same]; rfl, ?_⟩
  exact counting_denotes (embeds_group.denotes holds) query.table

omit [Scorer S σ] in
/-- Every plan visits the same documents. -/
theorem ofPlan_docs (query : BooleanQuery S σ) (mustLength : required.length = query.required.length)
    (shouldLength : optional.length = query.optional.length)
    (mustNotLength : prohibited.length = query.prohibited.length) :
    (Meaning.ofPlan required optional prohibited query.minimum query.table query.plan).docs =
      Meaning.selected required optional prohibited query.minimum := by
  ext doc
  have suits := query.plan_suits
  have bound := Meaning.matching_length_le optional doc
  have noneProhibited := Meaning.matching_length_le prohibited doc
  have mustBound := Meaning.matching_length_le required doc
  have byLength : ∀ clauses : List σ, clauses = [] ↔ clauses.length = 0 := by simp
  have byLength' : ∀ clauses : List (Meaning S), clauses ≠ [] ↔ clauses.length ≠ 0 := by simp
  rw [Meaning.mem_selected]
  generalize query.plan = plan at suits
  cases plan with
  | nothing =>
    simp only [Suits, byLength] at suits
    simp only [Meaning.ofPlan, Meaning.nothing, Meaning.ofDocs, Finset.notMem_empty, false_iff]
    omega
  | requiredOnly =>
    simp only [Suits, byLength, ne_eq] at suits
    rw [Meaning.ofPlan, Meaning.mem_shared, ← Meaning.matching_length_eq_iff]
    refine and_congr_right fun _ => ?_
    omega
  | optionalOnly =>
    simp only [Suits, byLength, ne_eq] at suits
    rw [Meaning.ofPlan, Meaning.mem_any_iff]
    refine and_congr_right fun _ => ?_
    omega
  | someOptional least =>
    simp only [Suits, byLength, ne_eq] at suits
    change doc ∈ (Meaning.excluding _ prohibited).docs ↔ _
    rw [Meaning.mem_excluding, Meaning.mem_require, and_assoc]
    refine and_congr_right fun _ => ?_
    omega
  | oneOptional =>
    simp only [Suits, byLength] at suits
    change doc ∈ (Meaning.excluding _ prohibited).docs ↔ _
    rw [Meaning.mem_excluding, Meaning.mem_requireAll ((byLength' _).mpr (by omega)), and_assoc]
    refine and_congr_right fun _ => ?_
    omega
  | allOptional =>
    simp only [Suits, byLength] at suits
    change doc ∈ (Meaning.excluding _ prohibited).docs ↔ _
    rw [Meaning.mem_excluding, Meaning.mem_conjoin, and_assoc]
    refine and_congr_right fun _ => ?_
    omega
  | everyClause =>
    simp only [Suits, byLength, ne_eq] at suits
    change doc ∈ (Meaning.excluding _ prohibited).docs ↔ _
    rw [Meaning.mem_excluding, Meaning.mem_conjoin, and_assoc, Meaning.matching_append,
      List.length_append, List.length_append]
    refine and_congr_right fun _ => ?_
    omega
  | gated =>
    simp only [Suits, byLength, ne_eq] at suits
    change doc ∈ (Meaning.excluding _ prohibited).docs ↔ _
    rw [Meaning.mem_excluding, Meaning.mem_shared, and_assoc, List.forall_mem_cons,
      List.forall_mem_singleton, Meaning.mem_requireAll ((byLength' _).mpr (by omega)),
      Meaning.mem_require]
    refine and_congr_right fun real => ?_
    simp only [real, true_and]
    omega
  | bonus =>
    simp only [Suits, byLength, ne_eq] at suits
    change doc ∈ (Meaning.excluding _ prohibited).docs ↔ _
    rw [Meaning.mem_excluding, Meaning.mem_requireAll ((byLength' _).mpr (by omega)), and_assoc]
    refine and_congr_right fun _ => ?_
    omega

theorem carryOut_bonus (must : AllDenote required query.required)
    (should : AllDenote optional query.optional) (mustNot : AllDenote prohibited query.prohibited)
    (someRequired : query.required ≠ []) (someOptional : query.optional ≠ []) :
    ∃ bonus, (query.carryOut .bonus).outcome = .ok (.counting ⟨.bonus bonus, query.table⟩) ∧
      Cursor.doc bonus = unpositioned ∧
      bonus.Sound ((Meaning.requireAll required).excluding prohibited) (Meaning.requireSome optional) := by
  obtain ⟨all, sameAll, allDenotes⟩ := ClauseGroup.requireAll_denotes must someRequired
  obtain ⟨extra, sameExtra, extraDenotes⟩ := ClauseGroup.requireSome_denotes should someOptional
  obtain ⟨filtered, sameFiltered, holds⟩ := Filtered.without_denotes allDenotes mustNot
  refine ⟨.ofParts filtered extra, ?_, holds.fresh,
    Bonus.ofParts_sound holds extraDenotes⟩
  rw [carryOut, Logged.outcome_bind_of_ok sameAll, Logged.outcome_bind_of_ok sameExtra,
    Logged.outcome_bind_of_ok sameFiltered]
  rfl

theorem carryOut_denotes (must : AllDenote required query.required)
    (should : AllDenote optional query.optional) (mustNot : AllDenote prohibited query.prohibited) :
    ∃ scorer, (query.carryOut query.plan).outcome = .ok scorer ∧
      Denotes scorer (.ofPlan required optional prohibited query.minimum query.table query.plan) := by
  have suits := query.plan_suits
  have requiredLength := must.length_eq
  generalize query.plan = plan at suits
  cases plan with
  | nothing => exact ⟨_, rfl, embeds_nothing.denotes (EmptyScorer.denotes rfl)⟩
  | requiredOnly =>
    obtain ⟨conjunction, same, plain, -⟩ :=
      Conjunction.ofList_denotes must suits.1 (query.table.factor query.required.length)
    refine ⟨.all conjunction, by rw [carryOut, Logged.outcome_bind_of_ok same]; rfl, ?_⟩
    rw [Meaning.ofPlan, requiredLength]
    exact embeds_all.denotes plain
  | optionalOnly =>
    obtain ⟨disjunction, same, plain, -⟩ :=
      Disjunction.ofList_denotes should suits.2.1 (.sum : Aggregation S) (some query.table)
    refine ⟨.any disjunction, by rw [carryOut, Logged.outcome_map, same]; rfl, ?_⟩
    exact embeds_any.denotes plain
  | someOptional least =>
    obtain ⟨-, nonempty, -, inside⟩ := suits
    obtain ⟨group, same, denotes⟩ := ClauseGroup.require_denotes should nonempty inside
    obtain ⟨scorer, sameScorer, holds⟩ := alone_denotes denotes mustNot
    exact ⟨scorer, by rw [carryOut, Logged.outcome_bind_of_ok same]; exact sameScorer, holds⟩
  | oneOptional =>
    obtain ⟨-, one, -⟩ := suits
    have nonempty : query.optional ≠ [] := List.ne_nil_of_length_pos (by omega)
    obtain ⟨group, same, denotes⟩ := ClauseGroup.requireAll_denotes should nonempty
    obtain ⟨scorer, sameScorer, holds⟩ := alone_denotes denotes mustNot
    exact ⟨scorer, by rw [carryOut, Logged.outcome_bind_of_ok same]; exact sameScorer, holds⟩
  | allOptional =>
    obtain ⟨-, all, several⟩ := suits
    have nonempty : query.optional ≠ [] := List.ne_nil_of_length_pos (by omega)
    obtain ⟨group, same, denotes⟩ := ClauseGroup.conjoin_denotes should nonempty
    obtain ⟨scorer, sameScorer, holds⟩ := alone_denotes denotes mustNot
    exact ⟨scorer, by rw [carryOut, Logged.outcome_bind_of_ok same]; exact sameScorer, holds⟩
  | everyClause =>
    obtain ⟨group, same, denotes⟩ := ClauseGroup.conjoin_denotes (List.rel_append must should)
      (List.append_ne_nil_of_left_ne_nil suits.1 _)
    obtain ⟨scorer, sameScorer, holds⟩ := alone_denotes denotes mustNot
    exact ⟨scorer, by rw [carryOut, Logged.outcome_bind_of_ok same]; exact sameScorer, holds⟩
  | gated =>
    obtain ⟨someRequired, someOptional, positive, inside⟩ := suits
    obtain ⟨all, sameAll, allDenotes⟩ := ClauseGroup.requireAll_denotes must someRequired
    obtain ⟨enough, sameEnough, enoughDenotes⟩ := ClauseGroup.require_denotes should someOptional inside
    obtain ⟨both, sameBoth, bothDenote, -⟩ := Conjunction.ofList_denotes
      (.cons allDenotes (.cons enoughDenotes .nil)) (by simp) (Score.one : S)
    obtain ⟨filtered, sameFiltered, holds⟩ := Filtered.without_denotes bothDenote mustNot
    refine ⟨.counting ⟨.gated filtered, query.table⟩, ?_, counting_denotes (embeds_gated.denotes holds) _⟩
    rw [carryOut, Logged.outcome_bind_of_ok sameAll, Logged.outcome_bind_of_ok sameEnough,
      Logged.outcome_bind_of_ok sameBoth, Logged.outcome_bind_of_ok sameFiltered]
    rfl
  | bonus =>
    obtain ⟨someRequired, someOptional, -⟩ := suits
    obtain ⟨bonus, same, fresh, sound⟩ := carryOut_bonus must should mustNot someRequired someOptional
    refine ⟨_, same, counting_denotes (embeds_bonus.denotes ?_) query.table⟩
    exact .of_invariant (Bonus.sound_invariant _ _) sound fresh

theorem build_outcome (valid : query.settings.validate = .ok ()) :
    query.build.outcome = (query.carryOut query.plan).outcome := by
  rw [build, Logged.outcome_bind_of_ok valid, Logged.outcome_bind_of_ok rfl]

theorem build_denotes (must : AllDenote required query.required)
    (should : AllDenote optional query.optional) (mustNot : AllDenote prohibited query.prohibited)
    (valid : query.settings.validate = .ok ()) :
    ∃ scorer, query.build.outcome = .ok scorer ∧
      Denotes scorer (.ofPlan required optional prohibited query.minimum query.table query.plan) := by
  rw [build_outcome valid]
  exact carryOut_denotes must should mustNot

/-- Whatever plan it follows, a scorer built for a query lands on exactly the selected documents, from
wherever a legal walk has led it. -/
theorem build_lands_on_selected (must : AllDenote required query.required)
    (should : AllDenote optional query.optional) (mustNot : AllDenote prohibited query.prohibited)
    (valid : query.settings.validate = .ok ()) :
    ∃ scorer, query.build.outcome = .ok scorer ∧ Cursor.doc scorer = unpositioned ∧
      ∀ state, Reaches scorer state →
        (Cursor.doc state ≠ noMoreDocs → (Cursor.next state).Yields
          (Arrival (Meaning.selected required optional prohibited query.minimum)
            (Cursor.doc state + 1))) ∧
        (∀ target, Cursor.doc state < target → target ≤ noMoreDocs →
          (Cursor.advance state target).Yields
            (Arrival (Meaning.selected required optional prohibited query.minimum) target)) := by
  obtain ⟨scorer, built, denotes⟩ := build_denotes must should mustNot valid
  refine ⟨scorer, built, denotes.fresh, fun state reached => ?_⟩
  have behaves := denotes.refines state reached
  rw [← ofPlan_docs query must.length_eq should.length_eq mustNot.length_eq]
  exact ⟨behaves.next, behaves.advance⟩

/-- One required clause, one optional clause and a prohibited one, which rules the first document out. -/
theorem build_lands_past_prohibited_document :
    ∃ (scorer after : BooleanScorer Float32 (TermScorer PostingList Float32)),
      (BooleanQuery.build ⟨[⟨.fresh [.ofDoc 1, .ofDoc 5], .constant Score.one Score.one⟩],
        [⟨.fresh [.ofDoc 1, .ofDoc 5], .constant Score.one Score.one⟩],
        [⟨.fresh [.ofDoc 1], .constant Score.one Score.one⟩], 1, CoordinationPolicy.share,
        .standard⟩).outcome = .ok scorer ∧
      Cursor.next scorer = (.ok 5, after) := by
  have two : Posting.Accepted [.ofDoc 1, .ofDoc 5] := ⟨rfl, by decide⟩
  have one : Posting.Accepted [.ofDoc 1] := ⟨rfl, by decide⟩
  have denotesTwo := TermScorer.denotes_of_ofPostings (S := Float32) rfl two (.constant Score.one Score.one)
  have denotesOne := TermScorer.denotes_of_ofPostings (S := Float32) rfl one (.constant Score.one Score.one)
  obtain ⟨scorer, built, fresh, walk⟩ := @build_lands_on_selected _ _ _ _
    ⟨_, _, _, 1, CoordinationPolicy.share, .standard⟩ _ _ _ (.cons denotesTwo .nil)
    (.cons denotesTwo .nil) (.cons denotesOne .nil) rfl
  obtain ⟨landing, after, answer, -, lands⟩ := (walk scorer .refl).1 (by rw [fresh]; decide)
  have member : (5 : DocId) ∈ Meaning.selected [TermScorer.meaning two (.constant (Score.one : Float32)
      Score.one)] [TermScorer.meaning two (.constant Score.one Score.one)]
      [TermScorer.meaning one (.constant Score.one Score.one)] 1 := by
    refine Finset.mem_filter.mpr ⟨mem_allDocs.mpr (by decide), ?_⟩
    simp [Meaning.matching, TermScorer.meaning, Meaning.leaf, Posting.docs, Posting.ofDoc]
  have upper : landing ≤ 5 := lands.first 5 member (by rw [fresh]; decide)
  have here : landing = 5 := by
    rcases lands.place with listed | ended
    · have selected := (Finset.mem_filter.mp listed).2
      simp [TermScorer.meaning, Meaning.leaf, Posting.docs, Posting.ofDoc] at selected
      lia
    · rw [ended] at upper
      exact absurd upper (by decide)
  exact ⟨scorer, after, built, here ▸ answer⟩

end BooleanQuery

end PostingQuery
