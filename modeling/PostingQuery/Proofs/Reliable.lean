import Mathlib
import PostingQuery.Proofs.NestedScore
import PostingQuery.Proofs.Rescoring

/-!
Scorers that can be relied on: no legal walk makes them fail, and each document can be scored as often as one likes.
Every tree of scorers over such leaves is one, whatever combinators it is built with and however high it is.
-/

namespace PostingQuery

section Made

variable {ε α β : Type}

theorem exists_of_bind_eq_ok {first : Except ε α} {next : α → Except ε β} {result : β}
    (same : first >>= next = .ok result) : ∃ answer, first = .ok answer ∧ next answer = .ok result := by
  cases first with
  | error failure => cases same
  | ok answer => exact ⟨answer, rfl, same⟩

theorem exists_of_map_eq_ok {first : Except ε α} {change : α → β} {result : β}
    (same : first.map change = .ok result) : ∃ answer, first = .ok answer ∧ change answer = result := by
  cases first with
  | error failure => cases same
  | ok answer => exact ⟨answer, rfl, Except.ok.inj same⟩

theorem exists_of_outcome_eq_ok {first : Logged α} {next : α → Logged β} {result : β}
    (same : (first >>= next).outcome = .ok result) :
    ∃ answer, first.outcome = .ok answer ∧ (next answer).outcome = .ok result := by
  rw [Logged.outcome_bind] at same
  exact exists_of_bind_eq_ok same

end Made

/-- A scorer that has not been moved, never fails on legal walks and can be scored again. -/
structure Reliable {S σ : Type} [Scorer S σ] (scorer : σ) : Prop where
  denotes : ∃ meaning : Meaning S, Denotes scorer meaning
  repeats : Repeats scorer

section Combinators

variable {S σ τ ρ ξ ο : Type} [Score S] [Scorer S σ] [Scorer S τ] [Scorer S ρ] [Scorer S ξ] [Scorer S ο]

omit [Score S] in
theorem Reliable.wrap {wrap : σ → τ} (embeds : Embeds wrap) {part : σ} (reliable : Reliable part) :
    Reliable (wrap part) := by
  obtain ⟨meaning, denotes⟩ := reliable.denotes
  exact ⟨⟨meaning, embeds.denotes denotes⟩, embeds.repeats reliable.repeats⟩

omit [Score S] in
theorem exists_allDenote {scorers : List σ} (each : ∀ scorer ∈ scorers, Reliable scorer) :
    ∃ meanings, AllDenote meanings scorers :=
  exists_labels fun scorer member => (each scorer member).denotes

theorem Single.reliable {scorer : σ} (reliable : Reliable scorer) : Reliable (Single.mk scorer) := by
  obtain ⟨meaning, denotes⟩ := reliable.denotes
  exact ⟨⟨_, Single.denotes denotes⟩, Single.repeats reliable.repeats⟩

theorem Coordinated.reliable {scorer : σ} (reliable : Reliable scorer) (table : CoordinationTable S) :
    Reliable (Coordinated.mk scorer table) := by
  obtain ⟨meaning, denotes⟩ := reliable.denotes
  exact ⟨⟨_, Coordinated.denotes denotes table⟩, Coordinated.repeats reliable.repeats table⟩

theorem Exclusion.reliable {scorer : ρ} {barrier : ξ} (reliable : Reliable scorer) (barred : Reliable barrier) :
    Reliable (ofParts scorer barrier) := by
  obtain ⟨required, denotes⟩ := reliable.denotes
  obtain ⟨excluded, keeps⟩ := barred.denotes
  exact ⟨⟨_, ofParts_denotes denotes keeps⟩, Exclusion.repeats denotes keeps reliable.repeats⟩

theorem Bonus.reliable {scorer : ρ} {companion : ο} (reliable : Reliable scorer) (more : Reliable companion) :
    Reliable (ofParts scorer companion) := by
  obtain ⟨required, denotes⟩ := reliable.denotes
  obtain ⟨optional, adds⟩ := more.denotes
  exact ⟨⟨_, ofParts_denotes denotes adds⟩, Bonus.repeats denotes adds reliable.repeats more.repeats⟩

theorem Conjunction.reliable {scorers : List σ} (each : ∀ scorer ∈ scorers, Reliable scorer) {factor : S}
    {made : Conjunction S σ} (same : ofList scorers factor = .ok made) : Reliable made ∧ Reliable made.counted := by
  obtain ⟨meanings, denote⟩ := exists_allDenote each
  have nonempty : scorers ≠ [] := List.ne_nil_of_mem (mem_of_mem_parts same List.mem_cons_self)
  obtain ⟨conjunction, sameMade, plain, counted⟩ := ofList_denotes denote nonempty factor
  obtain rfl := Except.ok.inj (sameMade.symm.trans same)
  have repeated := Conjunction.repeats denote (fun scorer member => (each scorer member).repeats) same
  exact ⟨⟨⟨_, plain⟩, repeated.1⟩, ⟨⟨_, counted⟩, repeated.2⟩⟩

omit [Scorer S σ] in
theorem Disjunction.ne_nil_of_made [Cursor σ] {scorers : List σ} {aggregation : Aggregation S}
    {coordination : Option (CoordinationTable S)} {made : Disjunction S σ}
    (same : (ofList scorers aggregation coordination).outcome = .ok made) : scorers ≠ [] := by
  intro empty
  rw [empty] at same
  cases same

theorem Disjunction.reliable {scorers : List σ} (each : ∀ scorer ∈ scorers, Reliable scorer)
    {aggregation : Aggregation S} {coordination : Option (CoordinationTable S)} {made : Disjunction S σ}
    (same : (ofList scorers aggregation coordination).outcome = .ok made) : Reliable made ∧ Reliable made.counted := by
  obtain ⟨meanings, denote⟩ := exists_allDenote each
  have nonempty := ne_nil_of_made same
  obtain ⟨disjunction, sameMade, plain, counted⟩ := ofList_denotes denote nonempty aggregation coordination
  obtain rfl := Except.ok.inj (sameMade.symm.trans same)
  exact ⟨⟨⟨_, plain⟩, repeats _⟩, ⟨⟨_, counted⟩, repeats _⟩⟩

theorem Quorum.range_of_made {scorers : List σ} {minimum : Nat} {made : Quorum S σ}
    (same : (ofList scorers minimum).outcome = .ok made) :
    2 ≤ scorers.length ∧ 0 < minimum ∧ minimum ≤ scorers.length := by
  by_cases few : scorers.length < 2
  · rw [ofList, if_pos few] at same
    cases same
  · by_cases outside : minimum = 0 ∨ scorers.length < minimum
    · rw [ofList, if_neg few, if_pos outside] at same
      cases same
    · lia

theorem Quorum.reliable {scorers : List σ} (each : ∀ scorer ∈ scorers, Reliable scorer) {minimum : Nat}
    {made : Quorum S σ} (same : (ofList scorers minimum).outcome = .ok made) :
    Reliable made ∧ Reliable made.thorough ∧ Reliable made.counted := by
  obtain ⟨meanings, denote⟩ := exists_allDenote each
  obtain ⟨several, positive, inside⟩ := range_of_made same
  obtain ⟨quorum, sameMade, plain, thorough, counted, -⟩ := ofList_denotes denote several positive inside
  obtain rfl := Except.ok.inj (sameMade.symm.trans same)
  exact ⟨⟨⟨_, plain⟩, repeats _⟩, ⟨⟨_, thorough⟩, repeats _⟩, ⟨⟨_, counted⟩, repeats _⟩⟩

theorem EmptyScorer.reliable : Reliable ({} : EmptyScorer S) :=
  ⟨⟨.ofDocs ∅ nofun, EmptyScorer.denotes rfl⟩, EmptyScorer.repeats _⟩

end Combinators

section Boolean

variable {S ρ σ : Type} [Score S] [Scorer S ρ] [Scorer S σ] {clauses : List σ}

namespace ClauseGroup

theorem conjoin_reliable (each : ∀ clause ∈ clauses, Reliable clause) {group : ClauseGroup S σ}
    (same : conjoin clauses = .ok group) : Reliable group := by
  obtain ⟨conjunction, made, rfl⟩ := exists_of_map_eq_ok same
  exact (Conjunction.reliable each made).2.wrap embeds_all

theorem one_reliable {clause : σ} (reliable : Reliable clause) : Reliable (one ⟨clause⟩ : ClauseGroup S σ) :=
  (Single.reliable reliable).wrap embeds_one

theorem requireAll_reliable (each : ∀ clause ∈ clauses, Reliable clause) {group : ClauseGroup S σ}
    (same : requireAll clauses = .ok group) : Reliable group := by
  unfold requireAll at same
  split at same
  next clause =>
    obtain rfl := Except.ok.inj same
    exact one_reliable (List.forall_mem_singleton.mp each)
  next => exact conjoin_reliable each same

theorem require_reliable (each : ∀ clause ∈ clauses, Reliable clause) {minimum : Nat} {group : ClauseGroup S σ}
    (same : (require clauses minimum).outcome = .ok group) : Reliable group := by
  unfold require at same
  split at same
  next =>
    obtain ⟨quorum, made, rfl⟩ := exists_of_map_eq_ok same
    exact (Quorum.reliable each made).2.2.wrap embeds_atLeast
  next =>
    obtain ⟨disjunction, made, rfl⟩ := exists_of_map_eq_ok same
    exact (Disjunction.reliable each made).2.wrap embeds_any

end ClauseGroup

theorem Filtered.without_reliable {scorer : ρ} (reliable : Reliable scorer)
    (each : ∀ clause ∈ clauses, Reliable clause) {filtered : Filtered S ρ σ}
    (same : (without scorer clauses).outcome = .ok filtered) : Reliable filtered := by
  unfold without at same
  split at same
  next =>
    obtain rfl := Except.ok.inj same
    exact reliable.wrap embeds_free
  next clause =>
    obtain rfl := Except.ok.inj same
    have barred := (List.forall_mem_singleton.mp each).wrap (embeds_barrier_one (S := S))
    exact (Exclusion.reliable reliable barred).wrap embeds_behind
  next =>
    obtain ⟨quorum, made, rfl⟩ := exists_of_map_eq_ok same
    have barred := (Quorum.reliable each made).1.wrap embeds_barrier_any
    exact (Exclusion.reliable reliable barred).wrap embeds_behind

namespace BooleanQuery

variable {query : BooleanQuery S σ} {scorer : BooleanScorer S σ}

theorem counting_reliable {tree : CountingTree S σ} (reliable : Reliable tree) (table : CoordinationTable S) :
    Reliable (BooleanScorer.counting ⟨tree, table⟩) :=
  (Coordinated.reliable reliable table).wrap embeds_counting

inductive Decides (query : BooleanQuery S σ) : ClauseGroup S σ → Prop
  | someOptional {least : Nat} {group : ClauseGroup S σ} (made : (ClauseGroup.require query.optional least).outcome = .ok group) :
    Decides query group
  | oneOptional {group : ClauseGroup S σ} (made : ClauseGroup.requireAll query.optional = .ok group) :
    Decides query group
  | allOptional {group : ClauseGroup S σ} (made : ClauseGroup.conjoin query.optional = .ok group) : Decides query group
  | everyClause {group : ClauseGroup S σ}
    (made : ClauseGroup.conjoin (query.required ++ query.optional) = .ok group) : Decides query group

inductive Adds (query : BooleanQuery S σ) : ClauseGroup S σ → Prop
  | one {clause : σ} (member : clause ∈ query.optional) : Adds query (.one ⟨clause⟩)
  | any {group : ClauseGroup S σ} (made : (ClauseGroup.require query.optional 1).outcome = .ok group) : Adds query group

inductive CarriedOut (query : BooleanQuery S σ) : BooleanScorer S σ → Prop
  | nothing : CarriedOut query (.nothing {})
  | requiredOnly {factor : S} {conjunction : Conjunction S σ}
    (made : Conjunction.ofList query.required factor = .ok conjunction) : CarriedOut query (.all conjunction)
  | optionalOnly {table : CoordinationTable S} {disjunction : Disjunction S σ}
    (made : (Disjunction.ofList query.optional .sum (some table)).outcome = .ok disjunction) : CarriedOut query (.any disjunction)
  | alone {group : ClauseGroup S σ} {filtered : Filtered S (ClauseGroup S σ) σ} (decides : query.Decides group)
    (made : (Filtered.without group query.prohibited).outcome = .ok filtered) :
    CarriedOut query (.counting ⟨.group filtered, query.table⟩)
  | gated {all enough : ClauseGroup S σ} {both : Conjunction S (ClauseGroup S σ)}
    {filtered : Filtered S (Conjunction S (ClauseGroup S σ)) σ}
    (madeAll : ClauseGroup.requireAll query.required = .ok all)
    (madeEnough : (ClauseGroup.require query.optional query.minimum).outcome = .ok enough)
    (madeBoth : Conjunction.ofList [all, enough] Score.one = .ok both)
    (made : (Filtered.without both query.prohibited).outcome = .ok filtered) :
    CarriedOut query (.counting ⟨.gated filtered, query.table⟩)
  | bonus {all extra : ClauseGroup S σ} {filtered : Filtered S (ClauseGroup S σ) σ}
    (madeAll : ClauseGroup.requireAll query.required = .ok all) (adds : query.Adds extra)
    (made : (Filtered.without all query.prohibited).outcome = .ok filtered) :
    CarriedOut query (.counting ⟨.bonus (.ofParts filtered extra), query.table⟩)

theorem adds_of_made {group : ClauseGroup S σ}
    (same : (ClauseGroup.requireSome query.optional).outcome = .ok group) : query.Adds group := by
  unfold ClauseGroup.requireSome at same
  split at same
  next clause single =>
    obtain rfl := Except.ok.inj same
    exact .one (by rw [single]; exact List.mem_singleton_self _)
  next => exact .any same

theorem carriedOut_of_alone {group : ClauseGroup S σ} (decides : query.Decides group)
    (same : (carryOut.alone query group).outcome = .ok scorer) : query.CarriedOut scorer := by
  obtain ⟨filtered, made, same⟩ := exists_of_outcome_eq_ok same
  obtain rfl := Except.ok.inj same
  exact .alone decides made

theorem carriedOut_of_eq {plan : BooleanPlan} (same : (query.carryOut plan).outcome = .ok scorer) : query.CarriedOut scorer := by
  cases plan with
  | nothing =>
    obtain rfl := Except.ok.inj same
    exact .nothing
  | requiredOnly =>
    obtain ⟨conjunction, made, same⟩ := exists_of_outcome_eq_ok same
    obtain rfl := Except.ok.inj same
    exact .requiredOnly made
  | optionalOnly =>
    obtain ⟨disjunction, made, rfl⟩ := exists_of_map_eq_ok same
    exact .optionalOnly made
  | someOptional least =>
    obtain ⟨group, made, same⟩ := exists_of_outcome_eq_ok same
    exact carriedOut_of_alone (.someOptional made) same
  | oneOptional =>
    obtain ⟨group, made, same⟩ := exists_of_outcome_eq_ok same
    exact carriedOut_of_alone (.oneOptional made) same
  | allOptional =>
    obtain ⟨group, made, same⟩ := exists_of_outcome_eq_ok same
    exact carriedOut_of_alone (.allOptional made) same
  | everyClause =>
    obtain ⟨group, made, same⟩ := exists_of_outcome_eq_ok same
    exact carriedOut_of_alone (.everyClause made) same
  | gated =>
    obtain ⟨all, madeAll, same⟩ := exists_of_outcome_eq_ok same
    obtain ⟨enough, madeEnough, same⟩ := exists_of_outcome_eq_ok same
    obtain ⟨both, madeBoth, same⟩ := exists_of_outcome_eq_ok same
    obtain ⟨filtered, made, same⟩ := exists_of_outcome_eq_ok same
    obtain rfl := Except.ok.inj same
    exact .gated madeAll madeEnough madeBoth made
  | bonus =>
    obtain ⟨all, madeAll, same⟩ := exists_of_outcome_eq_ok same
    obtain ⟨extra, madeExtra, same⟩ := exists_of_outcome_eq_ok same
    obtain ⟨filtered, made, same⟩ := exists_of_outcome_eq_ok same
    obtain rfl := Except.ok.inj same
    exact .bonus madeAll (adds_of_made madeExtra) made

theorem carriedOut_of_build (built : query.build.outcome = .ok scorer) : query.CarriedOut scorer := by
  rw [build_outcome (valid_of_build built)] at built
  exact carriedOut_of_eq built

theorem Decides.reliable {group : ClauseGroup S σ} (decides : query.Decides group)
    (required : ∀ clause ∈ query.required, Reliable clause) (optional : ∀ clause ∈ query.optional, Reliable clause) :
    Reliable group := by
  cases decides with
  | someOptional made => exact ClauseGroup.require_reliable optional made
  | oneOptional made => exact ClauseGroup.requireAll_reliable optional made
  | allOptional made => exact ClauseGroup.conjoin_reliable optional made
  | everyClause made => exact ClauseGroup.conjoin_reliable (List.forall_mem_append.mpr ⟨required, optional⟩) made

theorem Adds.reliable {group : ClauseGroup S σ} (adds : query.Adds group)
    (optional : ∀ clause ∈ query.optional, Reliable clause) : Reliable group := by
  cases adds with
  | one member => exact ClauseGroup.one_reliable (optional _ member)
  | any made => exact ClauseGroup.require_reliable optional made

theorem build_reliable (each : ∀ clause ∈ query.clauses, Reliable clause)
    (built : query.build.outcome = .ok scorer) : Reliable scorer := by
  obtain ⟨clauses, prohibited⟩ := List.forall_mem_append.mp each
  obtain ⟨required, optional⟩ := List.forall_mem_append.mp clauses
  cases carriedOut_of_build built with
  | nothing => exact EmptyScorer.reliable.wrap embeds_nothing
  | requiredOnly made => exact (Conjunction.reliable required made).1.wrap embeds_all
  | optionalOnly made => exact (Disjunction.reliable optional made).1.wrap embeds_any
  | alone decides made =>
    have free := Filtered.without_reliable (decides.reliable required optional) prohibited made
    exact counting_reliable (free.wrap embeds_group) _
  | @gated all enough _ _ madeAll madeEnough madeBoth made =>
    have groups : ∀ group ∈ [all, enough], Reliable group :=
      List.forall_mem_cons.mpr ⟨ClauseGroup.requireAll_reliable required madeAll,
        List.forall_mem_singleton.mpr (ClauseGroup.require_reliable optional madeEnough)⟩
    have gate := Filtered.without_reliable (Conjunction.reliable groups madeBoth).1 prohibited made
    exact counting_reliable (gate.wrap embeds_gated) _
  | bonus madeAll adds made =>
    have free := Filtered.without_reliable (ClauseGroup.requireAll_reliable required madeAll) prohibited made
    exact counting_reliable ((Bonus.reliable free (adds.reliable optional)).wrap embeds_bonus) _

end BooleanQuery

end Boolean

variable {P S : Type} [PostingSource P] [Score S]

theorem Leaf.repeats (leaf : Leaf P S) : Repeats leaf := by
  rintro (term | exact | sloppy | empty) - - <;> exact ⟨rfl, rfl⟩

namespace Tree

inductive IsBuilt : (height : Nat) → Tree P S height → Prop
  | bare {leaf : Leaf P S} {meaning : Meaning S} (denotes : Denotes leaf meaning) : IsBuilt 0 leaf
  | leaf {height : Nat} {leaf : Leaf P S} {meaning : Meaning S} (denotes : Denotes leaf meaning) :
    IsBuilt (height + 1) (Node.leaf leaf)
  | conjunction {height : Nat} {scorers : List (Tree P S height)} {factor : S}
    {made : Conjunction S (Tree P S height)} (each : ∀ scorer ∈ scorers, IsBuilt height scorer)
    (same : Conjunction.ofList scorers factor = .ok made) : IsBuilt (height + 1) (Node.conjunction made)
  | disjunction {height : Nat} {scorers : List (Tree P S height)} {aggregation : Aggregation S}
    {coordination : Option (CoordinationTable S)} {made : Disjunction S (Tree P S height)}
    (each : ∀ scorer ∈ scorers, IsBuilt height scorer)
    (same : (Disjunction.ofList scorers aggregation coordination).outcome = .ok made) :
    IsBuilt (height + 1) (Node.disjunction made)
  | quorum {height : Nat} {scorers : List (Tree P S height)} {minimum : Nat} {made : Quorum S (Tree P S height)}
    (each : ∀ scorer ∈ scorers, IsBuilt height scorer) (same : (Quorum.ofList scorers minimum).outcome = .ok made) :
    IsBuilt (height + 1) (Node.quorum made)
  | thoroughQuorum {height : Nat} {scorers : List (Tree P S height)} {minimum : Nat}
    {made : Quorum S (Tree P S height)} (each : ∀ scorer ∈ scorers, IsBuilt height scorer)
    (same : (Quorum.ofList scorers minimum).outcome = .ok made) : IsBuilt (height + 1) (Node.quorum made.thorough)
  | single {height : Nat} {inner : Tree P S height} (built : IsBuilt height inner) :
    IsBuilt (height + 1) (Node.single ⟨inner⟩)
  | exclusion {height : Nat} {required barrier : Tree P S height} (built : IsBuilt height required)
    (barred : IsBuilt height barrier) : IsBuilt (height + 1) (Node.exclusion (.ofParts required barrier))
  | bonus {height : Nat} {required optional : Tree P S height} (built : IsBuilt height required)
    (more : IsBuilt height optional) : IsBuilt (height + 1) (Node.bonus (.ofParts required optional))
  | coordinated {height : Nat} {inner : Tree P S height} (built : IsBuilt height inner)
    (table : CoordinationTable S) : IsBuilt (height + 1) (Node.coordinated ⟨inner, table⟩)
  | boolean {height : Nat} {query : BooleanQuery S (Tree P S height)} {scorer : BooleanScorer S (Tree P S height)}
    (each : ∀ clause ∈ query.clauses, IsBuilt height clause) (built : query.build.outcome = .ok scorer) :
    IsBuilt (height + 1) (Node.boolean scorer)

theorem IsBuilt.reliable {height : Nat} {tree : Tree P S height} (built : IsBuilt height tree) : Reliable tree := by
  induction built with
  | bare denotes => exact ⟨⟨_, denotes⟩, Leaf.repeats _⟩
  | leaf denotes => exact Reliable.wrap (.of_focus fun _ => rfl) ⟨⟨_, denotes⟩, Leaf.repeats _⟩
  | conjunction _ same each => exact (Conjunction.reliable each same).1.wrap (.of_focus fun _ => rfl)
  | disjunction _ same each => exact (Disjunction.reliable each same).1.wrap (.of_focus fun _ => rfl)
  | quorum _ same each => exact (Quorum.reliable each same).1.wrap (.of_focus fun _ => rfl)
  | thoroughQuorum _ same each => exact (Quorum.reliable each same).2.1.wrap (.of_focus fun _ => rfl)
  | single _ inner => exact (Single.reliable inner).wrap (.of_focus fun _ => rfl)
  | exclusion _ _ required barrier => exact (Exclusion.reliable required barrier).wrap (.of_focus fun _ => rfl)
  | bonus _ _ required optional => exact (Bonus.reliable required optional).wrap (.of_focus fun _ => rfl)
  | coordinated _ table inner => exact (Coordinated.reliable inner table).wrap (.of_focus fun _ => rfl)
  | boolean _ built each => exact (BooleanQuery.build_reliable each built).wrap (.of_focus fun _ => rfl)

end Tree

end PostingQuery
