import Mathlib
import PostingQuery.Proofs.Boolean

/-!
Scores without rounding. Where additions and multiplications are exact, sums do not depend on the order
in which a scorer meets its clauses, and every plan of a boolean query gives a document the same score:
the sum of its matching clauses times the factor for their number.
-/

namespace PostingQuery

namespace Score

class IsExact (S : Type) [Score S] : Prop where
  add_assoc : ∀ a b c : S, a + b + c = a + (b + c)
  add_comm : ∀ a b : S, a + b = b + a
  zero_add : ∀ a : S, zero + a = a
  mul_one : ∀ a : S, a * one = a
  round_nothing : round (nothing : Total S) = zero
  round_widen : ∀ a : S, round (widen a) = a
  round_accumulate : ∀ (sum : Total S) (a : S), round (accumulate sum a) = round sum + a
  scaled_eq : ∀ (sum : Total S) (factor : S), scaled sum factor = round sum * factor

/-- Rational numbers, which are added and multiplied exactly. -/
instance rational : Score ℚ where
  Total := ℚ
  zero := 0
  one := 1
  ofInt n := n
  ofNat n := n
  nothing := 0
  widen a := a
  accumulate sum a := sum + a
  round sum := sum
  scaled sum factor := sum * factor
  largest scores := scores.foldl max (scores.headD 0)
  isOne a := a == 1
  isPositive a := 0 < a
  text a := toString a
  inspected a := toString a

instance : IsExact ℚ where
  add_assoc := Rat.add_assoc
  add_comm := Rat.add_comm
  zero_add := Rat.zero_add
  mul_one := Rat.mul_one
  round_nothing := rfl
  round_widen _ := rfl
  round_accumulate _ _ := rfl
  scaled_eq _ _ := rfl

variable {S : Type} [Score S]

def sum (values : List S) : S := values.foldr (· + ·) zero

@[simp]
theorem sum_nil : sum ([] : List S) = zero := rfl

@[simp]
theorem sum_cons (value : S) (values : List S) : sum (value :: values) = value + sum values := rfl

variable [IsExact S]

theorem add_zero (a : S) : a + zero = a := by
  rw [IsExact.add_comm, IsExact.zero_add]

theorem sum_append (values others : List S) : sum (values ++ others) = sum values + sum others := by
  induction values with
  | nil => exact (IsExact.zero_add _).symm
  | cons value values ih => rw [List.cons_append, sum_cons, sum_cons, ih, IsExact.add_assoc]

theorem sum_perm {values others : List S} (perm : values.Perm others) : sum values = sum others := by
  induction perm with
  | nil => rfl
  | cons value _ ih => rw [sum_cons, sum_cons, ih]
  | swap value other values =>
    rw [sum_cons, sum_cons, sum_cons, sum_cons, ← IsExact.add_assoc, ← IsExact.add_assoc,
      IsExact.add_comm other value]
  | trans _ _ first second => exact first.trans second

theorem round_foldl (values : List S) (start : Total S) :
    round (values.foldl accumulate start) = round start + sum values := by
  induction values generalizing start with
  | nil => exact (add_zero _).symm
  | cons value values ih => rw [List.foldl_cons, ih, IsExact.round_accumulate, sum_cons, IsExact.add_assoc]

/-- A running total is the sum, in whatever order the scores were added. -/
theorem round_total (values : List S) : round (total values) = sum values := by
  rw [total, round_foldl, IsExact.round_nothing, IsExact.zero_add]

end Score

namespace Meaning

variable {S : Type} [Score S]

noncomputable def value (meaning : Meaning S) (doc : DocId) : S :=
  @Classical.epsilon S ⟨Score.zero⟩ (meaning.scores doc)

def Valued (meaning : Meaning S) : Prop :=
  ∀ doc ∈ meaning.docs, ∀ answer, meaning.scores doc answer → answer = meaning.value doc

structure Plain (meaning : Meaning S) : Prop where
  valued : meaning.Valued
  uncounted : ∀ doc ∈ meaning.docs, ∀ answer, meaning.tallies doc answer → answer = (meaning.value doc, 0)

noncomputable def values (clauses : List (Meaning S)) (doc : DocId) : List S :=
  (matching clauses doc).map (·.value doc)

def Sums (group : Meaning S) (clauses : List (Meaning S)) : Prop :=
  ∀ doc ∈ group.docs, ∀ answer, group.tallies doc answer →
    answer = (Score.sum (values clauses doc), (matching clauses doc).length)

noncomputable def coordinatedSum (clauses : List (Meaning S)) (table : CoordinationTable S) (doc : DocId) :
    S :=
  Score.sum (values clauses doc) * table.factor (matching clauses doc).length

def Totals (meaning : Meaning S) (clauses : List (Meaning S)) (table : CoordinationTable S) : Prop :=
  ∀ doc ∈ meaning.docs,
    (∀ answer, meaning.scores doc answer → answer = coordinatedSum clauses table doc) ∧
    ∀ answer, meaning.tallies doc answer → answer = (coordinatedSum clauses table doc, 0)

variable {clauses others required optional prohibited : List (Meaning S)}

theorem values_append (clauses others : List (Meaning S)) (doc : DocId) :
    values (clauses ++ others) doc = values clauses doc ++ values others doc := by
  rw [values, matching_append, List.map_append]
  rfl

omit [Score S] in
theorem matching_eq_self {doc : DocId} (all : ∀ clause ∈ clauses, doc ∈ clause.docs) :
    matching clauses doc = clauses :=
  List.filter_eq_self.mpr fun clause member => decide_eq_true (all clause member)

theorem value_leaf {docs : Finset DocId} {real : ∀ doc ∈ docs, IsReal doc} {score : DocId → S}
    (doc : DocId) : (leaf docs real score).value doc = score doc :=
  Classical.epsilon_spec (p := (leaf docs real score).scores doc) ⟨score doc, rfl⟩

theorem leaf_valued (docs : Finset DocId) (real : ∀ doc ∈ docs, IsReal doc) (score : DocId → S) :
    (leaf docs real score).Valued := by
  intro doc _ answer scored
  exact scored.trans (value_leaf doc).symm

theorem leaf_plain (docs : Finset DocId) (real : ∀ doc ∈ docs, IsReal doc) (score : DocId → S) :
    (leaf docs real score).Plain where
  valued := leaf_valued docs real score
  uncounted doc _ answer tallied := by
    rw [value_leaf]
    exact tallied

variable [Score.IsExact S]

theorem round_total_gathered {doc : DocId} {answers : List S}
    (valued : ∀ clause ∈ clauses, clause.Valued)
    (gathers : Gathers (fun clause : Meaning S => clause.scores doc) (matching clauses doc) answers) :
    Score.round (Score.total answers) = Score.sum (values clauses doc) := by
  rw [Score.round_total]
  refine Score.sum_perm (gathers.perm_map fun clause member answer scored => ?_)
  obtain ⟨listed, has⟩ := List.mem_filter.mp member
  exact valued clause listed doc (of_decide_eq_true has) answer scored

theorem sharedTally_eq {doc : DocId} {factor : S} {counting : Bool} {answer : S × Nat}
    (plain : ∀ clause ∈ clauses, clause.Plain) (all : ∀ clause ∈ clauses, doc ∈ clause.docs)
    (tally : sharedTally clauses factor counting doc answer) :
    answer = (Score.sum (values clauses doc) * factor, if counting then clauses.length else 0) := by
  obtain ⟨answers, gathers, rfl⟩ := tally
  have perm : answers.Perm (clauses.map fun clause => (clause.value doc, 0)) := gathers.perm_map
    fun clause member answer tallied => (plain clause member).uncounted doc (all clause member) answer tallied
  have scores : Score.sum (answers.map (·.1)) = Score.sum (values clauses doc) := by
    rw [values, matching_eq_self all]
    refine Score.sum_perm ((perm.map _).trans (.of_eq ?_))
    rw [List.map_map]
    rfl
  have counts : (answers.map (·.2)).sum = 0 := by
    rw [(perm.map _).sum_eq, List.map_map]
    exact List.sum_eq_zero (by simp)
  rw [Score.round_total, scores, counts, Nat.zero_add]

theorem single_sums {clause : Meaning S} (valued : clause.Valued) : Sums clause.single [clause] := by
  intro doc member answer tallied
  obtain ⟨scored, count⟩ := tallied
  have here : matching [clause] doc = [clause] := matching_eq_self fun other listed =>
    (List.mem_singleton.mp listed).symm ▸ member
  rw [values, here, List.map_singleton, Score.sum_cons, Score.sum_nil, Score.add_zero]
  exact Prod.ext (valued doc member answer.1 scored) count

theorem conjoin_sums (plain : ∀ clause ∈ clauses, clause.Plain) : Sums (conjoin clauses) clauses := by
  intro doc member answer tallied
  obtain ⟨-, all⟩ := mem_shared.mp member
  rw [sharedTally_eq plain all tallied, Score.IsExact.mul_one, matching_eq_self all]
  rfl

theorem requireAll_sums (plain : ∀ clause ∈ clauses, clause.Plain) : Sums (requireAll clauses) clauses := by
  unfold requireAll
  split
  next clause => exact single_sums (plain clause (List.mem_singleton_self clause)).valued
  next => exact conjoin_sums plain

theorem require_sums {minimum : Nat} (valued : ∀ clause ∈ clauses, clause.Valued) :
    Sums (require clauses minimum) clauses := by
  unfold require
  split
  next =>
    rintro doc - answer ⟨⟨answers, gathers, sum⟩, count⟩
    rw [round_total_gathered valued gathers] at sum
    exact Prod.ext sum count
  next =>
    rintro doc - answer ⟨⟨answers, gathers, sum⟩, count⟩
    have total : answer.1 = Score.round (Score.total answers) := sum
    rw [round_total_gathered valued gathers] at total
    exact Prod.ext total count

theorem requireSome_sums (valued : ∀ clause ∈ clauses, clause.Valued) :
    Sums (requireSome clauses) clauses := by
  unfold requireSome
  split
  next clause => exact single_sums (valued clause (List.mem_singleton_self clause))
  next => exact require_sums valued

omit [Score.IsExact S] in
theorem excluding_sums {group : Meaning S} (sums : Sums group clauses) :
    Sums (group.excluding prohibited) clauses := by
  intro doc member answer tallied
  have inside := (mem_excluding.mp member).1
  unfold excluding at tallied
  split at tallied
  all_goals exact sums doc inside answer tallied

theorem both_sums {group other : Meaning S} (sums : Sums group clauses) (otherSums : Sums other others) :
    Sums (shared [group, other] Score.one false) (clauses ++ others) := by
  intro doc member answer tallied
  obtain ⟨-, all⟩ := mem_shared.mp member
  obtain ⟨answers, gathers, rfl⟩ := tallied
  obtain ⟨ordered, perm, each⟩ := gathers.exists_forall₂
  cases each with
  | @cons _ own _ rest tallied each =>
  cases each with
  | @cons _ more _ rest otherTallied each =>
  cases each
  have first := sums doc (all group (by simp)) own tallied
  have second := otherSums doc (all other (by simp)) more otherTallied
  have scores : Score.sum (answers.map (·.1)) = Score.sum (values (clauses ++ others) doc) := by
    rw [← Score.sum_perm (perm.map _), values_append, Score.sum_append, List.map_cons, List.map_singleton,
      Score.sum_cons, Score.sum_cons, Score.sum_nil, Score.add_zero, first, second]
  have counts : (answers.map (·.2)).sum = (matching (clauses ++ others) doc).length := by
    rw [← (perm.map _).sum_eq, matching_append, List.length_append, first, second]
    simp
  rw [Score.round_total, scores, counts, Score.IsExact.mul_one]
  rfl

theorem withBonus_sums {group bonus : Meaning S} (sums : Sums group clauses) (bonusSums : Sums bonus others)
    (whole : ∀ doc, doc ∉ bonus.docs → matching others doc = []) :
    Sums (group.withBonus bonus) (clauses ++ others) := by
  intro doc member answer tallied
  obtain ⟨own, ownTallied, ⟨lacks, rfl⟩ | ⟨has, more, moreTallied, rfl⟩⟩ := tallied
  · rw [sums doc member _ ownTallied, values_append, matching_append, values, values, whole doc lacks]
    simp
  · rw [sums doc member _ ownTallied, bonusSums doc has _ moreTallied, values_append, matching_append,
      Score.sum_append, List.length_append]

omit [Score.IsExact S] in
theorem coordinated_totals {group : Meaning S} (sums : Sums group clauses) (table : CoordinationTable S) :
    Totals (group.coordinated table) clauses table := by
  refine fun doc member => ⟨fun answer scored => ?_, fun answer tallied => ?_⟩
  · obtain ⟨own, ownTallied, rfl⟩ := scored
    rw [sums doc member own ownTallied]
    rfl
  · obtain ⟨⟨own, ownTallied, first⟩, second⟩ := tallied
    rw [sums doc member own ownTallied] at first
    exact Prod.ext first second

theorem any_totals (valued : ∀ clause ∈ clauses, clause.Valued) (table : CoordinationTable S) :
    Totals (any clauses .sum (some table) false) clauses table := by
  have scored : ∀ doc answer, anyScore clauses .sum (some table) doc answer →
      answer = coordinatedSum clauses table doc := by
    rintro doc _ ⟨answers, gathers, rfl⟩
    change Score.round (Score.total answers) * table.factor answers.length = _
    rw [round_total_gathered valued gathers, gathers.length_eq]
    rfl
  refine fun doc _ => ⟨scored doc, fun answer tallied => ?_⟩
  exact Prod.ext (scored doc answer.1 tallied.1) tallied.2

theorem shared_totals (plain : ∀ clause ∈ clauses, clause.Plain) (table : CoordinationTable S) :
    Totals (shared clauses (table.factor clauses.length) false) clauses table := by
  intro doc member
  obtain ⟨-, all⟩ := mem_shared.mp member
  have tallied : ∀ answer, sharedTally clauses (table.factor clauses.length) false doc answer →
      answer = (coordinatedSum clauses table doc, 0) := by
    intro answer tally
    rw [sharedTally_eq plain all tally, coordinatedSum, matching_eq_self all]
    rfl
  refine ⟨fun answer scored => ?_, tallied⟩
  obtain ⟨count, tally⟩ := scored
  exact congrArg Prod.fst (tallied _ tally)

end Meaning

namespace BooleanQuery

variable {S σ : Type} [Score S] [Score.IsExact S] {query : BooleanQuery S σ}
  {required optional prohibited : List (Meaning S)}

open Meaning in
/-- Every plan gives the same scores. The clauses need not leave the counting to others where there are
optional ones only and one of them is enough. -/
theorem ofPlan_totals (query : BooleanQuery S σ) (mustLength : required.length = query.required.length)
    (shouldLength : optional.length = query.optional.length)
    (valued : ∀ clause ∈ required ++ optional, clause.Valued)
    (plain : query.required ≠ [] ∨ 1 < query.minimum → ∀ clause ∈ required ++ optional, clause.Plain) :
    Totals (ofPlan required optional prohibited query.minimum query.table query.plan)
      (required ++ optional) query.table := by
  have suits := query.plan_suits
  have noneRequired : query.required = [] → required = [] := fun none => by
    rw [none] at mustLength
    exact List.eq_nil_of_length_eq_zero mustLength
  have inRequired : ∀ clause ∈ required, clause ∈ required ++ optional := fun _ =>
    List.mem_append_left optional
  have inOptional : ∀ clause ∈ optional, clause ∈ required ++ optional := fun _ =>
    List.mem_append_right required
  generalize query.plan = plan at suits
  cases plan with
  | nothing => exact fun doc member => absurd member (Finset.notMem_empty doc)
  | requiredOnly =>
    have noneOptional : optional = [] := by
      rw [suits.2.1] at shouldLength
      exact List.eq_nil_of_length_eq_zero shouldLength
    rw [noneOptional, List.append_nil] at plain ⊢
    exact shared_totals (plain (.inl suits.1)) query.table
  | optionalOnly =>
    rw [noneRequired suits.1] at valued ⊢
    exact any_totals valued query.table
  | someOptional least =>
    rw [noneRequired suits.1] at valued ⊢
    exact coordinated_totals (excluding_sums (require_sums valued)) query.table
  | oneOptional =>
    rw [noneRequired suits.1] at valued ⊢
    obtain ⟨clause, rfl⟩ := List.length_eq_one_iff.mp (shouldLength.trans suits.2.1)
    exact coordinated_totals (excluding_sums (single_sums (valued clause (by simp)))) query.table
  | allOptional =>
    rw [noneRequired suits.1] at plain ⊢
    exact coordinated_totals (excluding_sums (conjoin_sums (plain (.inr suits.2.2)))) query.table
  | everyClause =>
    exact coordinated_totals (excluding_sums (conjoin_sums (plain (.inl suits.1)))) query.table
  | gated =>
    have allPlain := plain (.inl suits.1)
    exact coordinated_totals (excluding_sums (both_sums
      (requireAll_sums fun clause member => allPlain clause (inRequired clause member))
      (require_sums fun clause member => valued clause (inOptional clause member)))) query.table
  | bonus =>
    have allPlain := plain (.inl suits.1)
    exact coordinated_totals (withBonus_sums (excluding_sums
      (requireAll_sums fun clause member => allPlain clause (inRequired clause member)))
      (requireSome_sums fun clause member => valued clause (inOptional clause member))
      fun doc lacks => matching_eq_nil_of_notMem_requireSome lacks) query.table

end BooleanQuery

end PostingQuery
