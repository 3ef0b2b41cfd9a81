import Mathlib
import PostingQuery.Proofs.ExplainedScore
import PostingQuery.Proofs.Reliable

/-!
Costs as estimates. A scorer has at most as many documents as its cost says if this holds of its leaves and no sum of
costs on the way is too large for a cost. A sum that is too large is reported, and taken modulo `2 ^ 64` it may tell
less than each cost in it.
-/

namespace PostingQuery

section Sums

variable {S σ : Type} [Score S] [Scorer S σ] {scorers : List σ}

namespace Disjunction

variable {aggregation : Aggregation S} {coordination : Option (CoordinationTable S)}

theorem toNat_cost {made : Disjunction S σ} (same : (ofList scorers aggregation coordination).outcome = .ok made) :
    made.cost.toNat = totalCost scorers % 2 ^ 64 := by
  obtain ⟨cost, sameMade, summed⟩ := exists_outcome (ne_nil_of_made same) aggregation coordination
  obtain rfl := Except.ok.inj (sameMade.symm.trans same)
  exact summed

/-- Making a disjunction reports an overflow if and only if its costs do not add up to a cost. -/
theorem reports_overflow (nonempty : scorers ≠ []) :
    .costOverflow ∈ (ofList scorers aggregation coordination : Logged (Disjunction S σ)).events ↔
      2 ^ 64 ≤ totalCost scorers := by
  rw [ofList]
  · exact CursorHeap.cost_reports scorers
  · exact nonempty

end Disjunction

namespace Quorum

variable {minimum : Nat}

theorem toNat_cost {made : Quorum S σ} (same : (ofList scorers minimum).outcome = .ok made) :
    made.cost.toNat = totalCost scorers % 2 ^ 64 := by
  obtain ⟨several, positive, inside⟩ := range_of_made same
  obtain ⟨cost, sameMade, summed⟩ := exists_outcome (S := S) several positive inside
  obtain rfl := Except.ok.inj (sameMade.symm.trans same)
  exact summed

/-- Making a quorum reports an overflow if and only if its costs do not add up to a cost. -/
theorem reports_overflow (several : 2 ≤ scorers.length) (positive : 0 < minimum) (inside : minimum ≤ scorers.length) :
    .costOverflow ∈ (ofList scorers minimum : Logged (Quorum S σ)).events ↔ 2 ^ 64 ≤ totalCost scorers := by
  have inRange : ¬ (minimum = 0 ∨ scorers.length < minimum) := by omega
  rw [ofList, if_neg several.not_gt, if_neg inRange]
  exact sumCosts_reports scorers

end Quorum

end Sums

/-- A scorer with a meaning of at most as many documents as its cost says. -/
structure Estimates {S σ : Type} [Scorer S σ] (scorer : σ) (meaning : Meaning S) : Prop where
  denotes : Denotes scorer meaning
  bound : meaning.docs.card ≤ (Cursor.cost scorer).toNat

def Estimated {S σ : Type} [Scorer S σ] (scorer : σ) : Prop := ∃ meaning : Meaning S, Estimates scorer meaning

section Combinators

variable {S σ τ ρ ξ : Type} [Score S] [Scorer S σ] [Scorer S ρ] [Scorer S ξ]
variable {scorers : List σ} {meanings : List (Meaning S)}

omit [Score S] in
theorem Estimated.denotes {scorer : σ} (estimated : Estimated scorer) :
    ∃ meaning : Meaning S, Denotes scorer meaning := by
  obtain ⟨meaning, estimates⟩ := estimated
  exact ⟨meaning, estimates.denotes⟩

omit [Score S] in
theorem Estimated.around {focus : τ → Scorer.Focus S τ} {build : σ → τ} {part : σ} (estimated : Estimated part)
    (focused : ∀ part, focus (build part) = ⟨part, build⟩) :
    @Estimated S τ (Scorer.ofFocus focus) (build part) := by
  let _ : Scorer S τ := Scorer.ofFocus focus
  obtain ⟨meaning, denotes, bound⟩ := estimated
  refine ⟨meaning, (Embeds.of_focus focused).denotes denotes, bound.trans_eq (congrArg UInt64.toNat ?_)⟩
  change Cursor.cost part = (focus (build part)).scorer.cost (focus (build part)).state
  rw [focused]

theorem Single.estimated {scorer : σ} (estimated : Estimated scorer) : Estimated (Single.mk scorer) := by
  obtain ⟨meaning, denotes, bound⟩ := estimated
  exact ⟨_, Single.denotes denotes, bound⟩

theorem Coordinated.estimated {scorer : σ} (estimated : Estimated scorer) (table : CoordinationTable S) :
    Estimated (Coordinated.mk scorer table) := by
  obtain ⟨meaning, denotes, bound⟩ := estimated
  exact ⟨_, Coordinated.denotes denotes table, bound⟩

theorem Exclusion.estimated {scorer : ρ} {barrier : ξ} (estimated : Estimated scorer) {excluded : Meaning S}
    (keeps : Denotes barrier excluded) : Estimated (ofParts scorer barrier) := by
  obtain ⟨required, denotes, bound⟩ := estimated
  have fewer : (required.without excluded).docs.card ≤ required.docs.card :=
    Finset.card_le_card fun doc member => (Finset.mem_sdiff.mp member).1
  exact ⟨_, ofParts_denotes denotes keeps, fewer.trans bound⟩

theorem Bonus.estimated {scorer : ρ} {companion : ξ} (estimated : Estimated scorer) {optional : Meaning S}
    (adds : Denotes companion optional) : Estimated (ofParts scorer companion) := by
  obtain ⟨required, denotes, bound⟩ := estimated
  exact ⟨_, ofParts_denotes denotes adds, bound⟩

theorem Conjunction.estimated (each : ∀ scorer ∈ scorers, Estimated scorer) {factor : S} {made : Conjunction S σ}
    (same : ofList scorers factor = .ok made) : Estimated made ∧ Estimated made.counted := by
  obtain ⟨meanings, estimates⟩ := exists_labels each
  have leads : made.lead.scorer ∈ scorers := mem_of_mem_parts same List.mem_cons_self
  -- Which part leads does not matter: the shared documents are documents of every part.
  obtain ⟨meaning, listed, -, bound⟩ := exists_partner estimates.flip leads
  have fewer : ∀ counting, (Meaning.shared meanings factor counting).docs.card ≤ (Cursor.cost made).toNat :=
    fun counting => (Finset.card_le_card fun doc member =>
      (Meaning.mem_shared.mp member).2 meaning listed).trans bound
  obtain ⟨conjunction, sameMade, plain, counted⟩ :=
    ofList_denotes (estimates.imp fun _ _ part => part.denotes) (List.ne_nil_of_mem leads) factor
  obtain rfl := Except.ok.inj (sameMade.symm.trans same)
  exact ⟨⟨_, plain, fewer false⟩, ⟨_, counted, fewer true⟩⟩

omit [Score S] in
theorem card_le_totalCost (estimates : List.Forall₂ (fun meaning scorer => Estimates scorer meaning) meanings scorers)
    {docs : Finset DocId} (within : ∀ doc ∈ docs, ∃ meaning ∈ meanings, doc ∈ meaning.docs) :
    docs.card ≤ totalCost scorers := by
  -- A document that several parts have is counted for the first of them alone: the others bound what it leaves.
  induction estimates generalizing docs with
  | nil =>
    refine Nat.le_zero.mpr (Finset.card_eq_zero.mpr (Finset.eq_empty_of_forall_notMem fun doc member => ?_))
    obtain ⟨meaning, listed, -⟩ := within doc member
    cases listed
  | @cons meaning scorer meanings scorers head _ ih =>
    have others : (docs \ meaning.docs).card ≤ totalCost scorers := by
      refine ih fun doc member => ?_
      obtain ⟨inside, outside⟩ := Finset.mem_sdiff.mp member
      obtain ⟨other, listed, has⟩ := within doc inside
      rcases List.mem_cons.mp listed with rfl | later
      · exact absurd has outside
      · exact ⟨other, later, has⟩
    calc docs.card
      _ ≤ (docs \ meaning.docs).card + meaning.docs.card := Finset.card_le_card_sdiff_add_card
      _ ≤ totalCost scorers + (Cursor.cost scorer).toNat := Nat.add_le_add others head.bound
      _ = totalCost (scorer :: scorers) := by rw [totalCost, totalCost, List.map_cons, List.sum_cons, Nat.add_comm]

theorem Disjunction.estimated (each : ∀ scorer ∈ scorers, Estimated scorer) (fits : totalCost scorers < 2 ^ 64)
    {aggregation : Aggregation S} {coordination : Option (CoordinationTable S)} {made : Disjunction S σ}
    (same : (ofList scorers aggregation coordination).outcome = .ok made) :
    Estimated made ∧ Estimated made.counted := by
  obtain ⟨meanings, estimates⟩ := exists_labels each
  have cost := (toNat_cost same).trans (Nat.mod_eq_of_lt fits)
  have fewer : ∀ counting, (Meaning.any meanings aggregation coordination counting).docs.card ≤ made.cost.toNat :=
    fun counting => cost ▸ card_le_totalCost estimates fun doc member => Meaning.mem_any.mp member
  have nonempty := ne_nil_of_made same
  obtain ⟨disjunction, sameMade, plain, counted⟩ :=
    ofList_denotes (estimates.imp fun _ _ part => part.denotes) nonempty aggregation coordination
  obtain rfl := Except.ok.inj (sameMade.symm.trans same)
  exact ⟨⟨_, plain, fewer false⟩, ⟨_, counted, fewer true⟩⟩

theorem Quorum.estimated (each : ∀ scorer ∈ scorers, Estimated scorer) (fits : totalCost scorers < 2 ^ 64)
    {minimum : Nat} {made : Quorum S σ} (same : (ofList scorers minimum).outcome = .ok made) :
    Estimated made ∧ Estimated made.thorough ∧ Estimated made.counted := by
  obtain ⟨meanings, estimates⟩ := exists_labels each
  obtain ⟨several, positive, inside⟩ := range_of_made same
  have cost := (toNat_cost same).trans (Nat.mod_eq_of_lt fits)
  have fewer : ∀ counting, (Meaning.atLeast minimum meanings counting).docs.card ≤ made.cost.toNat := by
    refine fun counting => cost ▸ card_le_totalCost estimates fun doc member => ?_
    have enough := (Meaning.mem_atLeast.mp member).2
    exact Meaning.matching_length_pos_iff.mp (positive.trans_le enough)
  obtain ⟨quorum, sameMade, plain, thorough, counted, -⟩ :=
    ofList_denotes (estimates.imp fun _ _ part => part.denotes) several positive inside
  obtain rfl := Except.ok.inj (sameMade.symm.trans same)
  exact ⟨⟨_, plain, fewer false⟩, ⟨_, thorough, fewer false⟩, ⟨_, counted, fewer true⟩⟩

theorem EmptyScorer.estimated : Estimated ({} : EmptyScorer S) :=
  ⟨.ofDocs ∅ nofun, EmptyScorer.denotes rfl, Nat.zero_le _⟩

end Combinators

section Boolean

variable {S ρ σ : Type} [Score S] [Scorer S ρ] [Scorer S σ] {clauses : List σ}

namespace ClauseGroup

theorem one_estimated {clause : σ} (estimated : Estimated clause) : Estimated (one ⟨clause⟩ : ClauseGroup S σ) :=
  (Single.estimated estimated).around fun _ => rfl

theorem conjoin_estimated (each : ∀ clause ∈ clauses, Estimated clause) {group : ClauseGroup S σ}
    (same : conjoin clauses = .ok group) : Estimated group := by
  obtain ⟨conjunction, made, rfl⟩ := exists_of_map_eq_ok same
  exact (Conjunction.estimated each made).2.around fun _ => rfl

theorem requireAll_estimated (each : ∀ clause ∈ clauses, Estimated clause) {group : ClauseGroup S σ}
    (same : requireAll clauses = .ok group) : Estimated group := by
  unfold requireAll at same
  split at same
  next clause =>
    obtain rfl := Except.ok.inj same
    exact one_estimated (List.forall_mem_singleton.mp each)
  next => exact conjoin_estimated each same

theorem require_estimated (each : ∀ clause ∈ clauses, Estimated clause) (fits : totalCost clauses < 2 ^ 64)
    {minimum : Nat} {group : ClauseGroup S σ} (same : (require clauses minimum).outcome = .ok group) :
    Estimated group := by
  unfold require at same
  split at same
  next =>
    obtain ⟨quorum, made, rfl⟩ := exists_of_map_eq_ok same
    exact (Quorum.estimated each fits made).2.2.around fun _ => rfl
  next =>
    obtain ⟨disjunction, made, rfl⟩ := exists_of_map_eq_ok same
    exact (Disjunction.estimated each fits made).2.around fun _ => rfl

end ClauseGroup

theorem Filtered.without_estimated {scorer : ρ} (estimated : Estimated scorer)
    (each : ∀ clause ∈ clauses, Reliable clause) {filtered : Filtered S ρ σ}
    (same : (without scorer clauses).outcome = .ok filtered) : Estimated filtered := by
  unfold without at same
  split at same
  next =>
    obtain rfl := Except.ok.inj same
    exact estimated.around fun _ => rfl
  next clause =>
    obtain rfl := Except.ok.inj same
    have barred := (List.forall_mem_singleton.mp each).wrap (embeds_barrier_one (S := S))
    obtain ⟨excluded, keeps⟩ := barred.denotes
    exact (Exclusion.estimated estimated keeps).around fun _ => rfl
  next =>
    obtain ⟨quorum, made, rfl⟩ := exists_of_map_eq_ok same
    obtain ⟨excluded, keeps⟩ := ((Quorum.reliable each made).1.wrap embeds_barrier_any).denotes
    exact (Exclusion.estimated estimated keeps).around fun _ => rfl

namespace BooleanQuery

variable {query : BooleanQuery S σ} {scorer : BooleanScorer S σ}

theorem counting_estimated {tree : CountingTree S σ} (estimated : Estimated tree) (table : CoordinationTable S) :
    Estimated (BooleanScorer.counting ⟨tree, table⟩) :=
  (Coordinated.estimated estimated table).around fun _ => rfl

theorem Decides.estimated {group : ClauseGroup S σ} (decides : query.Decides group)
    (required : ∀ clause ∈ query.required, Estimated clause) (optional : ∀ clause ∈ query.optional, Estimated clause)
    (fits : totalCost query.optional < 2 ^ 64) : Estimated group := by
  cases decides with
  | someOptional made => exact ClauseGroup.require_estimated optional fits made
  | oneOptional made => exact ClauseGroup.requireAll_estimated optional made
  | allOptional made => exact ClauseGroup.conjoin_estimated optional made
  | everyClause made => exact ClauseGroup.conjoin_estimated (List.forall_mem_append.mpr ⟨required, optional⟩) made

theorem Adds.estimated {group : ClauseGroup S σ} (adds : query.Adds group)
    (optional : ∀ clause ∈ query.optional, Estimated clause) (fits : totalCost query.optional < 2 ^ 64) :
    Estimated group := by
  cases adds with
  | one member => exact ClauseGroup.one_estimated (optional _ member)
  | any made => exact ClauseGroup.require_estimated optional fits made

theorem build_estimated (required : ∀ clause ∈ query.required, Estimated clause)
    (optional : ∀ clause ∈ query.optional, Estimated clause) (prohibited : ∀ clause ∈ query.prohibited, Reliable clause)
    (fits : totalCost query.optional < 2 ^ 64) (built : query.build.outcome = .ok scorer) : Estimated scorer := by
  cases carriedOut_of_build built with
  | nothing => exact EmptyScorer.estimated.around fun _ => rfl
  | requiredOnly made => exact (Conjunction.estimated required made).1.around fun _ => rfl
  | optionalOnly made => exact (Disjunction.estimated optional fits made).1.around fun _ => rfl
  | alone decides made =>
    have free := Filtered.without_estimated (decides.estimated required optional fits) prohibited made
    exact counting_estimated (free.around fun _ => rfl) _
  | @gated all enough _ _ madeAll madeEnough madeBoth made =>
    have groups : ∀ group ∈ [all, enough], Estimated group :=
      List.forall_mem_cons.mpr ⟨ClauseGroup.requireAll_estimated required madeAll,
        List.forall_mem_singleton.mpr (ClauseGroup.require_estimated optional fits madeEnough)⟩
    have gate := Filtered.without_estimated (Conjunction.estimated groups madeBoth).1 prohibited made
    exact counting_estimated (gate.around fun _ => rfl) _
  | bonus madeAll adds made =>
    have free := Filtered.without_estimated (ClauseGroup.requireAll_estimated required madeAll) prohibited made
    obtain ⟨extra, more⟩ := (adds.estimated optional fits).denotes
    exact counting_estimated ((Bonus.estimated free more).around fun _ => rfl) _

end BooleanQuery

end Boolean

section Leaves

variable {P S : Type} [PostingSource P] [Score S]

def Priced (postings : List Posting) (source : P) : Prop := postings.length ≤ (Cursor.cost source).toNat

omit [Score S] in
theorem Priced.card_le {postings : List Posting} {source : P} (priced : Priced postings source) :
    (Posting.docs postings).card ≤ (Cursor.cost source).toNat := by
  refine (List.toFinset_card_le _).trans ?_
  rw [List.length_map]
  exact priced

theorem TermScorer.estimated {postings : List Posting} (accepted : Posting.Accepted postings) (relevance : Relevance S)
    {source : P} (fresh : StandsAt postings source .unplaced) (priced : Priced postings source) :
    Estimated (TermScorer.mk source relevance) :=
  ⟨_, denotes accepted relevance fresh, priced.card_le⟩

namespace PhrasePart

variable {parts : List PhrasePart} {terms : List (PhraseTerm P)}

def AllPriced (parts : List PhrasePart) (terms : List (PhraseTerm P)) : Prop :=
  List.Forall₂ (fun part term => Priced part.postings term.postings) parts terms

/-- The documents of a phrase are documents of the term that is cheapest. -/
theorem Makes.exists_lead (makes : Makes parts terms) (priced : AllPriced parts terms) :
    ∃ lead followers, PhraseTerm.arrange terms = lead :: followers ∧
      ∀ docs ⊆ commonDocs parts, docs.card ≤ (Cursor.cost lead.postings).toNat := by
  obtain ⟨part, others, lead, followers, perm, -, arranged, leads, -⟩ := arrange_cons priced makes.refusal_eq_none
  refine ⟨lead, followers, arranged, fun docs within => ?_⟩
  have listed : part ∈ parts := perm.mem_iff.mp List.mem_cons_self
  have fewer : docs ⊆ Posting.docs part.postings := fun doc member =>
    (mem_commonDocs.mp (within member)).2 part listed
  exact (Finset.card_le_card fewer).trans leads.card_le

end PhrasePart

open PhrasePart

variable {parts : List PhrasePart} {terms : List (PhraseTerm P)} {relevance : Relevance S}

omit [Score S] in
theorem ExactPhrase.cost_eq {lead : PhraseTerm P} {followers : List (PhraseTerm P)} {settings : Settings}
    {phrase : ExactPhrase P S} (arranged : PhraseTerm.arrange terms = lead :: followers)
    (made : ofTerms terms relevance settings = .ok phrase) : Cursor.cost phrase = Cursor.cost lead.postings := by
  obtain ⟨valid, unrefused⟩ := unrefused_of_made made
  obtain ⟨bound, same⟩ := ofTerms_eq valid unrefused arranged rfl
  rw [made] at same
  obtain ⟨placed, -, ends⟩ := exists_of_bind_eq_ok same.symm
  obtain rfl := Except.ok.inj ends
  rfl

theorem ExactPhrase.estimated (makes : Makes parts terms) (priced : AllPriced parts terms) {settings : Settings}
    {phrase : ExactPhrase P S} (made : ofTerms terms relevance settings = .ok phrase) : Estimated phrase := by
  obtain ⟨lead, followers, arranged, bound⟩ := makes.exists_lead priced
  obtain ⟨first, same, -, sameMade, denotes⟩ := ofTerms_denotes makes relevance (unrefused_of_made made).1
  obtain rfl := Except.ok.inj (sameMade.symm.trans made)
  exact ⟨_, denotes, (bound _ (docs_subset parts first)).trans_eq (congrArg _ (cost_eq arranged made).symm)⟩

theorem SloppyPhrase.cost_eq {lead : PhraseTerm P} {followers : List (PhraseTerm P)} {slop : Int}
    {phrase : SloppyPhrase P S} (arranged : PhraseTerm.arrange terms = lead :: followers)
    (made : (ofTerms terms slop relevance).outcome = .ok phrase) : Cursor.cost phrase = Cursor.cost lead.postings := by
  obtain ⟨unrefused, nonneg⟩ := unrefused_of_made made
  obtain rfl := Except.ok.inj ((ofTerms_eq unrefused nonneg relevance arranged).symm.trans made)
  exact congrArg (fun term : SloppyTerm P => Cursor.cost term.postings) (Vector.getElem_map _ _)

theorem SloppyPhrase.estimated (makes : Makes parts terms) (priced : AllPriced parts terms) {slop : Int}
    {phrase : SloppyPhrase P S} (made : (ofTerms terms slop relevance).outcome = .ok phrase) : Estimated phrase := by
  obtain ⟨lead, followers, arranged, bound⟩ := makes.exists_lead priced
  obtain ⟨last, shape, same, sameMade, denotes, perm, -⟩ :=
    ofTerms_denotes makes (unrefused_of_made made).2 relevance
  obtain rfl := Except.ok.inj (sameMade.symm.trans made)
  have within : shape.docs ⊆ commonDocs parts := commonDocs_perm perm ▸ Finset.filter_subset _ _
  exact ⟨_, denotes, (bound _ within).trans_eq (congrArg _ (cost_eq arranged made).symm)⟩

namespace Leaf

inductive IsPriced : Leaf P S → Prop
  | term {postings : List Posting} (accepted : Posting.Accepted postings) {source : P}
    (fresh : StandsAt postings source .unplaced) (priced : Priced postings source) (relevance : Relevance S) :
    IsPriced (.term ⟨source, relevance⟩)
  | exact {parts : List PhrasePart} {terms : List (PhraseTerm P)} (makes : Makes parts terms)
    (priced : AllPriced parts terms) {relevance : Relevance S} {settings : Settings} {phrase : ExactPhrase P S}
    (made : ExactPhrase.ofTerms terms relevance settings = .ok phrase) : IsPriced (.exact phrase)
  | sloppy {parts : List PhrasePart} {terms : List (PhraseTerm P)} (makes : Makes parts terms)
    (priced : AllPriced parts terms) {relevance : Relevance S} {slop : Int} {phrase : SloppyPhrase P S}
    (made : (SloppyPhrase.ofTerms terms slop relevance).outcome = .ok phrase) : IsPriced (.sloppy phrase)
  | empty : IsPriced (.empty {})

theorem IsPriced.estimated {leaf : Leaf P S} (priced : leaf.IsPriced) : Estimated leaf := by
  cases priced with
  | term accepted fresh priced relevance =>
    exact (TermScorer.estimated accepted relevance fresh priced).around fun _ => rfl
  | exact makes priced made => exact (ExactPhrase.estimated makes priced made).around fun _ => rfl
  | sloppy makes priced made => exact (SloppyPhrase.estimated makes priced made).around fun _ => rfl
  | empty => exact EmptyScorer.estimated.around fun _ => rfl

end Leaf

namespace Tree

/-- A tree of scorers that is built out of leaves that estimate their documents, where every sum of costs is a cost
again. Nothing is asked of the costs of parts that only keep documents out or add to scores. -/
inductive IsEstimated : (height : Nat) → Tree P S height → Prop
  | bare {leaf : Leaf P S} (estimated : Estimated leaf) : IsEstimated 0 leaf
  | leaf {height : Nat} {leaf : Leaf P S} (estimated : Estimated leaf) : IsEstimated (height + 1) (Node.leaf leaf)
  | conjunction {height : Nat} {scorers : List (Tree P S height)} {factor : S}
    {made : Conjunction S (Tree P S height)} (each : ∀ scorer ∈ scorers, IsEstimated height scorer)
    (same : Conjunction.ofList scorers factor = .ok made) : IsEstimated (height + 1) (Node.conjunction made)
  | disjunction {height : Nat} {scorers : List (Tree P S height)} {aggregation : Aggregation S}
    {coordination : Option (CoordinationTable S)} {made : Disjunction S (Tree P S height)}
    (each : ∀ scorer ∈ scorers, IsEstimated height scorer) (fits : totalCost scorers < 2 ^ 64)
    (same : (Disjunction.ofList scorers aggregation coordination).outcome = .ok made) :
    IsEstimated (height + 1) (Node.disjunction made)
  | quorum {height : Nat} {scorers : List (Tree P S height)} {minimum : Nat} {made : Quorum S (Tree P S height)}
    (each : ∀ scorer ∈ scorers, IsEstimated height scorer) (fits : totalCost scorers < 2 ^ 64)
    (same : (Quorum.ofList scorers minimum).outcome = .ok made) : IsEstimated (height + 1) (Node.quorum made)
  | thoroughQuorum {height : Nat} {scorers : List (Tree P S height)} {minimum : Nat}
    {made : Quorum S (Tree P S height)} (each : ∀ scorer ∈ scorers, IsEstimated height scorer)
    (fits : totalCost scorers < 2 ^ 64) (same : (Quorum.ofList scorers minimum).outcome = .ok made) :
    IsEstimated (height + 1) (Node.quorum made.thorough)
  | single {height : Nat} {inner : Tree P S height} (estimated : IsEstimated height inner) :
    IsEstimated (height + 1) (Node.single ⟨inner⟩)
  | exclusion {height : Nat} {required barrier : Tree P S height} (estimated : IsEstimated height required)
    (barred : IsBuilt height barrier) : IsEstimated (height + 1) (Node.exclusion (.ofParts required barrier))
  | bonus {height : Nat} {required optional : Tree P S height} (estimated : IsEstimated height required)
    (more : IsBuilt height optional) : IsEstimated (height + 1) (Node.bonus (.ofParts required optional))
  | coordinated {height : Nat} {inner : Tree P S height} (estimated : IsEstimated height inner)
    (table : CoordinationTable S) : IsEstimated (height + 1) (Node.coordinated ⟨inner, table⟩)
  | boolean {height : Nat} {query : BooleanQuery S (Tree P S height)} {scorer : BooleanScorer S (Tree P S height)}
    (required : ∀ clause ∈ query.required, IsEstimated height clause)
    (optional : ∀ clause ∈ query.optional, IsEstimated height clause)
    (prohibited : ∀ clause ∈ query.prohibited, IsBuilt height clause) (fits : totalCost query.optional < 2 ^ 64)
    (built : query.build.outcome = .ok scorer) : IsEstimated (height + 1) (Node.boolean scorer)

theorem IsEstimated.estimated {height : Nat} {tree : Tree P S height} (holds : IsEstimated height tree) :
    Estimated tree := by
  induction holds with
  | bare estimated => exact estimated
  | leaf estimated => exact estimated.around fun _ => rfl
  | conjunction _ same each => exact (Conjunction.estimated each same).1.around fun _ => rfl
  | disjunction _ fits same each =>
    exact (Disjunction.estimated each fits same).1.around fun _ => rfl
  | quorum _ fits same each => exact (Quorum.estimated each fits same).1.around fun _ => rfl
  | thoroughQuorum _ fits same each =>
    exact (Quorum.estimated each fits same).2.1.around fun _ => rfl
  | single _ inner => exact (Single.estimated inner).around fun _ => rfl
  | exclusion _ barred required =>
    obtain ⟨excluded, keeps⟩ := barred.reliable.denotes
    exact (Exclusion.estimated required keeps).around fun _ => rfl
  | bonus _ more required =>
    obtain ⟨optional, adds⟩ := more.reliable.denotes
    exact (Bonus.estimated required adds).around fun _ => rfl
  | coordinated _ table inner => exact (Coordinated.estimated inner table).around fun _ => rfl
  | boolean _ _ prohibited fits built required optional =>
    have barred := fun clause member => (prohibited clause member).reliable
    exact (BooleanQuery.build_estimated required optional barred fits built).around fun _ => rfl

/-- The documents that the legal walks of a tree land on are at most as many as its cost says. -/
theorem IsEstimated.documents_within_cost {height : Nat} {tree : Tree P S height} (holds : IsEstimated height tree) :
    ∃ docs : Finset DocId, docs.card ≤ (Cursor.cost tree).toNat ∧
      ∀ doc, doc ∈ docs ↔ IsReal doc ∧ ∃ state, Reaches tree state ∧ Cursor.doc state = doc := by
  obtain ⟨meaning, denotes, bound⟩ := holds.estimated
  refine ⟨meaning.docs, bound, fun doc => ⟨fun member => ?_, fun ⟨real, lands⟩ => (denotes.yields_iff real).mp lands⟩⟩
  have real := meaning.real doc member
  exact ⟨real, (denotes.yields_iff real).mpr member⟩

end Tree

end Leaves

def halfway : TermScorer (Quoted PostingList) Float32 := ⟨⟨.fresh [.ofDoc 5], .ofNat (2 ^ 63)⟩, .constant 1 1⟩

/-- Two terms on document 5, each at half of what is too much for a cost. Making their disjunction or their quorum
reports an overflow. By the costs that they go on with neither has documents, and both land on 5. -/
theorem costs_of_two_terms_wrap :
    ∃ (disjunction : Disjunction Float32 (TermScorer (Quoted PostingList) Float32))
      (quorum : Quorum Float32 (TermScorer (Quoted PostingList) Float32)),
      Disjunction.ofList [halfway, halfway] .sum none = ⟨.ok disjunction, [.costOverflow]⟩ ∧
      Quorum.ofList [halfway, halfway] 1 = ⟨.ok quorum, [.costOverflow]⟩ ∧
      Cursor.cost disjunction = 0 ∧ (Cursor.next disjunction).1 = .ok 5 ∧
      Cursor.cost quorum = 0 ∧ (Cursor.next quorum).1 = .ok 5 := by
  refine ⟨_, _, Logged.ext rfl ?_, Logged.ext rfl ?_, ?_, ?_, ?_, ?_⟩
  all_goals decide +kernel

end PostingQuery
