import Mathlib
import PostingQuery.Proofs.Stagger

/-!
A conjunction visits the documents that all of its parts have, if they have not been moved before it is made. The
invariant of its walk: all parts stand on one document, and none of them has passed a shared document.
-/

namespace PostingQuery

namespace Meaning

variable {S : Type} [Score S]

def sharedTally (parts : List (Meaning S)) (factor : S) (counting : Bool) (doc : DocId)
    (answer : S × Nat) : Prop :=
  ∃ answers : List (S × Nat), Gathers (fun part : Meaning S => part.tallies doc) parts answers ∧
    answer = (Score.round (Score.total (answers.map (·.1))) * factor,
      (answers.map (·.2)).sum + if counting then parts.length else 0)

noncomputable def shared (parts : List (Meaning S)) (factor : S) (counting : Bool) : Meaning S where
  docs := allDocs.filter fun doc => ∀ part ∈ parts, doc ∈ part.docs
  real _ member := mem_allDocs.mp (Finset.mem_filter.mp member).1
  scores doc value := ∃ count, sharedTally parts factor counting doc (value, count)
  tallies := sharedTally parts factor counting
  counts _ count := count = parts.length

theorem mem_shared {parts : List (Meaning S)} {factor : S} {counting : Bool} {doc : DocId} :
    doc ∈ (shared parts factor counting).docs ↔ IsReal doc ∧ ∀ part ∈ parts, doc ∈ part.docs := by
  simp [shared]

theorem shared_docs_perm {parts others : List (Meaning S)} {factor : S} {counting : Bool}
    (perm : parts.Perm others) :
    (shared parts factor counting).docs = (shared others factor counting).docs := by
  ext doc
  simp only [mem_shared, perm.mem_iff]

theorem sharedTally.perm {parts others : List (Meaning S)} {factor : S} {counting : Bool}
    {doc : DocId} {answer : S × Nat} (tally : sharedTally parts factor counting doc answer)
    (perm : parts.Perm others) : sharedTally others factor counting doc answer := by
  obtain ⟨answers, gathers, same⟩ := tally
  exact ⟨answers, gathers.perm perm, by rw [same, perm.length_eq]⟩

end Meaning

namespace Conjunction

variable {S σ : Type} [Score S] [Scorer S σ]

structure Aligned (holds : Meaning S → σ → Prop) (lead : Meaning S) (followers : List (Meaning S))
    (factor : S) (counting : Bool) (conjunction : Conjunction S σ) : Prop where
  lead : conjunction.lead.Follows (holds lead)
  followers : List.Forall₂ (fun part place => Placed.Follows (holds part) place) followers
    conjunction.followers
  leads : conjunction.lead.doc = conjunction.doc
  together : conjunction.doc ≠ noMoreDocs → ∀ place ∈ conjunction.followers,
    place.doc = conjunction.doc
  factor : conjunction.factor = factor
  counting : conjunction.counting = counting

variable {holds : Meaning S → σ → Prop} {leadMeaning : Meaning S} {meanings : List (Meaning S)} {factor : S}
  {counting : Bool} (invariant : ∀ part, Invariant part (holds part))

section Aligned

variable {conjunction : Conjunction S σ}

include invariant

omit [Score S] in
theorem Aligned.staggered (aligned : Aligned holds leadMeaning meanings factor counting conjunction) :
    Staggered holds leadMeaning (meanings.map (·, unpositioned)) factor counting conjunction where
  lead := aligned.lead
  leads := .inl aligned.leads
  followers := by
    rw [List.forall₂_map_left_iff, List.forall₂_iff_get]
    refine ⟨aligned.followers.length_eq, fun i inMeanings inFollowers => ?_⟩
    have follows := aligned.followers.get inMeanings inFollowers
    refine ⟨follows, ?_, le_max_of_le_left ?_⟩
    · rw [follows.noted]
      exact ((invariant _).refines follows.here).le_doc
    · by_cases live : conjunction.doc = noMoreDocs
      · exact live ▸ follows.doc_le (invariant _)
      · exact (aligned.together live _ (List.get_mem ..)).le
  level live place member := (aligned.together live place member).ge
  factor := aligned.factor
  counting := aligned.counting

omit invariant in
omit [Score S] in
/-- A conjunction whose parts have been put in before their first move is aligned from its own first move on. -/
theorem Staggered.aligned
    (staggered : Staggered holds leadMeaning (meanings.map (·, unpositioned)) factor counting conjunction)
    (nonneg : 0 ≤ conjunction.doc) : Aligned holds leadMeaning meanings factor counting conjunction where
  lead := staggered.lead
  followers := (List.forall₂_map_left_iff.mp staggered.followers).imp fun _ _ trails => trails.follows
  leads := by
    refine staggered.leads.resolve_right fun ⟨fresh, _⟩ => ?_
    rw [fresh] at nonneg
    exact absurd nonneg (by decide)
  together live place member := by
    obtain ⟨meaning, -, trails⟩ := exists_partner (List.forall₂_map_left_iff.mp staggered.followers).flip member
    have before : unpositioned ≤ 0 := by decide
    rw [trails.doc_eq (staggered.level live place member)]
    exact max_eq_left (before.trans nonneg)
  factor := staggered.factor
  counting := staggered.counting

omit invariant in
theorem admitted_shared : Admitted (Meaning.shared (leadMeaning :: meanings) factor counting).docs leadMeaning
    (meanings.map (·, unpositioned)) := by
  intro doc
  rw [Meaning.mem_shared, List.forall_mem_cons, List.forall_mem_map]
  constructor
  · rintro ⟨-, has, each⟩
    exact ⟨has, fun part member => .inl (each part member)⟩
  · rintro ⟨has, each⟩
    have real := leadMeaning.real doc has
    have before : unpositioned ≤ 0 := by decide
    exact ⟨real, has, fun part member => (each part member).resolve_right (not_lt.mpr (before.trans real.1))⟩

theorem Aligned.scoreCounting_yields (aligned : Aligned holds leadMeaning meanings factor counting conjunction)
    (real : IsReal conjunction.doc) :
    conjunction.scoreCounting.Yields fun answer after =>
      (Meaning.sharedTally (leadMeaning :: meanings) factor counting conjunction.doc answer ∧
        after.doc = conjunction.doc) ∧
      Aligned holds leadMeaning meanings factor counting after := by
  have first : unpositioned < noMoreDocs := by decide
  have live : ∀ part ∈ meanings.map (·, unpositioned), part.2 < noMoreDocs :=
    List.forall_mem_map.mpr fun _ _ => first
  refine ((aligned.staggered invariant).scoreCounting_yields invariant live real).mono
    fun answer after ⟨⟨⟨answers, each, totals⟩, stays⟩, staggered⟩ => ?_
  have here : max conjunction.doc unpositioned = conjunction.doc := max_eq_left (le_trans (by decide) real.1)
  rw [← List.map_cons (f := (·, unpositioned)), List.forall₂_map_left_iff] at each
  simp only [here] at each
  refine ⟨⟨⟨answers, .of_forall₂ each, ?_⟩, stays⟩, staggered.aligned (stays ▸ real.1)⟩
  rw [totals, each.length_eq]

theorem aligned_invariant (leadMeaning : Meaning S) (meanings : List (Meaning S)) (factor : S)
    (counting : Bool) :
    Invariant (Meaning.shared (leadMeaning :: meanings) factor counting)
      (Aligned holds leadMeaning meanings factor counting) where
  place conjunction aligned := by
    have noted := aligned.lead.noted
    rw [aligned.leads] at noted
    rcases (invariant leadMeaning).place _ aligned.lead.here with fresh | member | ended
    · exact .inl (noted.trans fresh)
    · have real : IsReal conjunction.doc := noted ▸ leadMeaning.real _ member
      exact .inr (.inl ((aligned.staggered invariant).member invariant admitted_shared real))
    · exact .inr (.inr (noted.trans ended))
  next conjunction aligned live := by
    have staggered := aligned.staggered invariant
    have low := (staggered.bounds invariant).1
    obtain ⟨landing, after, same, ⟨here, lands⟩, kept⟩ := staggered.next_yields invariant admitted_shared live
    rw [aligned.leads] at lands
    have reached := lands.reached
    unfold unpositioned at low
    exact ⟨landing, after, same, ⟨here, lands⟩, kept.aligned (by lia)⟩
  advance conjunction target aligned beyond inside := by
    have staggered := aligned.staggered invariant
    have nonneg : 0 ≤ target := nonneg_of_unpositioned_lt ((staggered.bounds invariant).1.trans_lt beyond)
    obtain ⟨landing, after, same, ⟨here, lands⟩, kept⟩ :=
      staggered.advance_yields invariant admitted_shared beyond inside
    have lags : conjunction.doc < target := beyond
    rw [aligned.leads, max_eq_left lags.le] at lands
    exact ⟨landing, after, same, ⟨here, lands⟩, kept.aligned (here ▸ nonneg.trans lands.reached)⟩
  score conjunction aligned member := by
    have real := (Meaning.mem_shared.mp member).1
    exact Step.Yields.map ((aligned.scoreCounting_yields invariant real).mono fun answer _ both =>
      ⟨⟨⟨answer.2, both.1.1⟩, both.1.2⟩, both.2⟩)
  tally conjunction aligned member :=
    aligned.scoreCounting_yields invariant (Meaning.mem_shared.mp member).1
  count conjunction aligned _ := by
    change conjunction.size = (leadMeaning :: meanings).length
    simp [size, Conjunction.parts, aligned.followers.length_eq]

end Aligned

omit [Score S] in
theorem ofList_aligned {meanings : List (Meaning S)} {scorers : List σ}
    (denote : List.Forall₂ (fun meaning scorer => Denotes scorer meaning) meanings scorers)
    (nonempty : scorers ≠ []) (factor : S) :
    ∃ conjunction leadMeaning order, ofList scorers factor = .ok conjunction ∧
      (leadMeaning :: order).Perm meanings ∧ conjunction.doc = unpositioned ∧
      Aligned (fun meaning scorer => Refines scorer meaning) leadMeaning order factor false conjunction := by
  have placed : List.Forall₂ (fun (meaning : Meaning S) (place : Placed σ) =>
      place.Follows (Refines · meaning) ∧ place.doc = unpositioned) meanings
      (scorers.map Placed.ofScorer) :=
    List.forall₂_map_right_iff.mpr
      (denote.imp fun _ _ denotes => ⟨⟨rfl, denotes.refines⟩, denotes.fresh⟩)
  obtain ⟨order, perm, sorted⟩ := forall₂_sort
    (fun a b : Placed σ => decide (Cursor.cost a.scorer ≤ Cursor.cost b.scorer)) placed
  unfold ofList
  dsimp only
  generalize StableSort.sort _ (scorers.map Placed.ofScorer) = places at sorted ⊢
  cases sorted with
  | nil =>
    rw [List.nil_perm.mp perm] at denote
    exact absurd (List.forall₂_nil_left_iff.mp denote) nonempty
  | @cons leadMeaning lead order followers leads follow =>
    refine ⟨_, leadMeaning, order, rfl, perm, rfl, leads.1, follow.imp fun _ _ both => both.1, leads.2,
      fun _ place member => ?_, rfl, rfl⟩
    obtain ⟨part, _, both⟩ := exists_partner follow.flip member
    exact both.2

omit [Score S] in
theorem Aligned.counted {conjunction : Conjunction S σ}
    (aligned : Aligned holds leadMeaning meanings factor counting conjunction) :
    Aligned holds leadMeaning meanings factor true conjunction.counted :=
  { aligned with counting := rfl }

theorem Aligned.denotes {parts : List (Meaning S)} {conjunction : Conjunction S σ}
    (aligned : Aligned (fun meaning scorer => Refines scorer meaning) leadMeaning meanings factor counting
      conjunction)
    (perm : (leadMeaning :: meanings).Perm parts) (fresh : conjunction.doc = unpositioned) :
    Denotes conjunction (Meaning.shared parts factor counting) :=
  (Denotes.of_invariant (aligned_invariant Refines.invariant leadMeaning meanings factor counting) aligned
    fresh).mono (Meaning.shared_docs_perm perm) (fun _ _ _ scored => scored.imp fun _ tally => tally.perm perm)
    (fun _ _ _ tally => tally.perm perm) (fun _ _ _ counted => counted.trans perm.length_eq)

theorem ofList_denotes {meanings : List (Meaning S)} {scorers : List σ}
    (denote : List.Forall₂ (fun meaning scorer => Denotes scorer meaning) meanings scorers)
    (nonempty : scorers ≠ []) (factor : S) :
    ∃ conjunction, ofList scorers factor = .ok conjunction ∧
      Denotes conjunction (Meaning.shared meanings factor false) ∧
      Denotes conjunction.counted (Meaning.shared meanings factor true) := by
  obtain ⟨conjunction, leadMeaning, order, same, perm, fresh, aligned⟩ :=
    ofList_aligned denote nonempty factor
  exact ⟨conjunction, same, aligned.denotes perm fresh, aligned.counted.denotes perm fresh⟩

end Conjunction

end PostingQuery
