import Mathlib
import PostingQuery.Proofs.Search

/-!
Windowed searches that are drained in several calls, with any bounds and with collectors that may refuse
hits. What one call owes is either offered, kept for the next call, or lost: buckets that were set aside
are lost when a hit is refused behind them. Hence no document is offered twice, and every wanted document
is offered where no refusal comes behind a bucket that was set aside.
-/

namespace PostingQuery

open BucketTable (Linked gathered emission get_set)
open LabeledMeaning (matched Wanted)

variable {S σ κ : Type} [Score S]

structure Offered (S κ : Type) where
  inner : κ
  hits : List (Hit S) := []

omit [Score S] in
instance [Collector S κ] : Collector S (Offered S κ) where
  collect sink doc score := (Collector.collect sink.inner doc score).within fun inner =>
    ⟨inner, sink.hits ++ [⟨doc, score⟩]⟩
  acceptsAnyOrder sink := Collector.acceptsAnyOrder sink.inner

def Collector.Refuses (κ : Type) [Collector S κ] (failure : Failure) : Prop :=
  ∃ (sink : κ) (doc : DocId) (score : S), (collect sink doc score).1 = .error failure

theorem balance_trans {α : Type} {owed news offered kept lost more taken left missed : List α}
    (first : (offered ++ kept ++ lost).Perm (owed ++ news))
    (second : (taken ++ left ++ missed).Perm (kept ++ more)) :
    (offered ++ taken ++ left ++ (lost ++ missed)).Perm (owed ++ (news ++ more)) := by
  have before := Multiset.coe_eq_coe.mpr first
  have last := Multiset.coe_eq_coe.mpr second
  rw [← Multiset.coe_eq_coe]
  simp only [← Multiset.coe_add] at before last ⊢
  calc (offered + taken + left + (lost + missed) : Multiset α)
    _ = offered + lost + (taken + left + missed) := by abel
    _ = offered + lost + (kept + more) := congrArg _ last
    _ = offered + kept + lost + more := by abel
    _ = owed + news + more := congrArg (· + (more : Multiset α)) before
    _ = owed + (news + more) := add_assoc ..

def Bucket.content {last : Nat} (bucket : Bucket S last) : Bucket S last := { bucket with next := none }

theorem emission_eq_of_content {last : Nat} {bucket other : Bucket S last} (same : bucket.content = other.content)
    (minimum : Nat) (coordination : CoordinationTable S) :
    emission minimum coordination bucket = emission minimum coordination other := by
  change emission minimum coordination bucket.content = emission minimum coordination other.content
  rw [same]

theorem doc_eq_of_content {last : Nat} {bucket other : Bucket S last} (same : bucket.content = other.content) :
    bucket.doc = other.doc := by
  change bucket.content.doc = other.content.doc
  rw [same]

theorem isLate_eq_of_content {last : Nat} {bucket other : Bucket S last} (same : bucket.content = other.content)
    (bound : DocId) : bucket.isLate bound = other.isLate bound := by
  change bucket.content.isLate bound = other.content.isLate bound
  rw [same]

namespace WindowedSearch

def hitsOf (search : WindowedSearch S σ) (slots : List (Fin (search.last + 1))) : List (Hit S) :=
  slots.filterMap fun slot => emission search.minimum search.coordination (search.table.buckets.get slot)

def lateOf (search : WindowedSearch S σ) (bound : DocId) (slots : List (Fin (search.last + 1))) :
    List (Fin (search.last + 1)) :=
  slots.filter fun slot => (search.table.buckets.get slot).isLate bound

def earlyOf (search : WindowedSearch S σ) (bound : DocId) (slots : List (Fin (search.last + 1))) :
    List (Fin (search.last + 1)) :=
  slots.filter fun slot => !(search.table.buckets.get slot).isLate bound

variable {search : WindowedSearch S σ} {bound : DocId} {slots aside : List (Fin (search.last + 1))}

def relinked (search : WindowedSearch S σ) (table : BucketTable S search.last)
    (head : Option (Fin (search.last + 1))) : WindowedSearch S σ :=
  { search with table, pending := head }

def Keeps (search : WindowedSearch S σ) (table : BucketTable S search.last) : Prop :=
  ∀ slot, (table.buckets.get slot).content = (search.table.buckets.get slot).content

variable {table : BucketTable S search.last} {head : Option (Fin (search.last + 1))}

theorem Keeps.hitsOf_eq (keeps : search.Keeps table) (slots : List (Fin (search.last + 1))) :
    (search.relinked table head).hitsOf slots = search.hitsOf slots :=
  List.filterMap_congr fun slot _ => emission_eq_of_content (keeps slot) _ _

theorem Keeps.lateOf_eq (keeps : search.Keeps table) (slots : List (Fin (search.last + 1))) :
    (search.relinked table head).lateOf bound slots = search.lateOf bound slots :=
  List.filter_congr fun slot _ => isLate_eq_of_content (keeps slot) bound

theorem Keeps.earlyOf_eq (keeps : search.Keeps table) (slots : List (Fin (search.last + 1))) :
    (search.relinked table head).earlyOf bound slots = search.earlyOf bound slots :=
  List.filter_congr fun slot _ => congrArg (!·) (isLate_eq_of_content (keeps slot) bound)

theorem hitsOf_cons (slot : Fin (search.last + 1)) (slots : List (Fin (search.last + 1))) :
    search.hitsOf (slot :: slots) =
      (emission search.minimum search.coordination (search.table.buckets.get slot)).toList ++
        search.hitsOf slots := by
  unfold hitsOf
  cases emitted : emission search.minimum search.coordination (search.table.buckets.get slot) with
  | none => exact List.filterMap_cons_none emitted
  | some hit => exact List.filterMap_cons_some emitted

theorem split_cons_of_early {slot : Fin (search.last + 1)}
    (early : (search.table.buckets.get slot).isLate bound = false) (slots : List (Fin (search.last + 1))) :
    search.earlyOf bound (slot :: slots) = slot :: search.earlyOf bound slots ∧
      search.lateOf bound (slot :: slots) = search.lateOf bound slots := by
  simp [earlyOf, lateOf, early]

theorem split_cons_of_late {slot : Fin (search.last + 1)}
    (late : (search.table.buckets.get slot).isLate bound = true) (slots : List (Fin (search.last + 1))) :
    search.earlyOf bound (slot :: slots) = search.earlyOf bound slots ∧
      search.lateOf bound (slot :: slots) = slot :: search.lateOf bound slots := by
  simp [earlyOf, lateOf, late]

theorem doc_lt_of_mem_early {hit : Hit S} (member : hit ∈ search.hitsOf (search.earlyOf bound slots)) :
    hit.doc < bound := by
  obtain ⟨slot, listed, emits⟩ := List.mem_filterMap.mp member
  obtain ⟨allowed, -, rfl, -⟩ := BucketTable.emission_eq_some.mp emits
  have early := (List.mem_filter.mp listed).2
  simpa [Bucket.isLate, allowed] using early

theorem le_doc_of_mem_late {hit : Hit S} (member : hit ∈ search.hitsOf (search.lateOf bound slots)) :
    bound ≤ hit.doc := by
  obtain ⟨slot, listed, emits⟩ := List.mem_filterMap.mp member
  obtain ⟨allowed, -, rfl, -⟩ := BucketTable.emission_eq_some.mp emits
  have late := (List.mem_filter.mp listed).2
  simpa [Bucket.isLate, allowed] using late

/-- No hit of an earlier window comes after one of a later window. -/
def ByWindow (size : Int) (hits : List (Hit S)) : Prop :=
  hits.Pairwise fun hit later => hit.doc / size ≤ later.doc / size

omit [Score S] in
theorem ByWindow.append {size : Int} {hits more : List (Hit S)} (positive : 0 < size)
    (first : ByWindow size hits) (second : ByWindow size more)
    (apart : ∀ hit ∈ hits, ∀ later ∈ more, hit.doc ≤ later.doc) : ByWindow size (hits ++ more) :=
  List.pairwise_append.mpr ⟨first, second, fun hit member later listed =>
    Int.ediv_le_ediv positive (apart hit member later listed)⟩

/-- A search with hits of its last window. Windows end at multiples of their size, or behind the last
document there can be. -/
structure OneWindow (size : Int) (search : WindowedSearch S σ) (hits : List (Hit S)) : Prop where
  sized : (search.last : Int) + 1 = size
  aligned : size ∣ search.windowEnd ∨ search.windowEnd = noMoreDocs
  together : ∀ hit ∈ hits, ∀ other ∈ hits, hit.doc / size = other.doc / size

namespace OneWindow

variable {size : Int} {hits : List (Hit S)}

theorem positive (one : OneWindow size search hits) : 0 < size := by
  have sized := one.sized
  lia

theorem byWindow (one : OneWindow size search hits) {some : List (Hit S)} (subset : some ⊆ hits) :
    ByWindow size some :=
  List.pairwise_of_forall_mem_list fun hit member other listed =>
    (one.together hit (subset member) other (subset listed)).le

theorem relinked (one : OneWindow size search hits) {some : List (Hit S)} (subset : some ⊆ hits)
    (table : BucketTable S search.last) (head : Option (Fin (search.last + 1))) :
    OneWindow size (search.relinked table head) some where
  sized := one.sized
  aligned := one.aligned
  together hit member other listed := one.together hit (subset member) other (subset listed)

theorem next {following : WindowedSearch S σ} {window : List (Hit S)} (one : OneWindow size search hits)
    (sameLast : following.last = search.last)
    (ends : following.windowEnd = min (search.windowEnd + (search.last + 1)) noMoreDocs)
    (inside : ∀ hit ∈ window, search.windowEnd ≤ hit.doc ∧ hit.doc < following.windowEnd) :
    OneWindow size following window where
  sized := sameLast ▸ one.sized
  aligned := by
    rw [ends, one.sized]
    rcases min_choice (search.windowEnd + size) noMoreDocs with full | short
    · rcases one.aligned with whole | ended
      · rw [full]
        exact .inl (dvd_add_self_right.mpr whole)
      · have positive := one.positive
        refine .inr (min_eq_right ?_)
        lia
    · exact .inr short
  together := by
    have number : ∀ hit ∈ window, hit.doc / size = search.windowEnd / size := by
      intro hit member
      obtain ⟨start, stop⟩ := inside hit member
      rw [ends, one.sized] at stop
      rcases one.aligned with ⟨windows, whole⟩ | ended
      · rw [whole, Int.mul_ediv_cancel_left _ one.positive.ne']
        refine (Int.ediv_eq_iff_of_pos one.positive).mpr ⟨?_, ?_⟩
        all_goals lia
      · lia
    exact fun hit member other listed => (number hit member).trans (number other listed).symm

end OneWindow

theorem setAside_linked {last : Nat} {table : BucketTable S last} {slot : Fin (last + 1)}
    {head : Option (Fin (last + 1))} {slots aside : List (Fin (last + 1))}
    (linked : Linked table.buckets head slots) (asideLinked : Linked table.buckets table.first aside)
    (fresh : slot ∉ slots) (unlisted : slot ∉ aside) :
    Linked (table.setAside slot).buckets head slots ∧
      Linked (table.setAside slot).buckets (table.setAside slot).first (slot :: aside) ∧
      ∀ other, ((table.setAside slot).buckets.get other).content = (table.buckets.get other).content := by
  have elsewhere : ∀ other, slot ≠ other →
      (table.setAside slot).buckets.get other = table.buckets.get other := fun other differs => by
    rw [BucketTable.setAside, get_set, if_neg differs]
  have here : (table.setAside slot).buckets.get slot =
      { table.buckets.get slot with next := table.first } := by
    rw [BucketTable.setAside, get_set, if_pos rfl]
    rfl
  refine ⟨linked.congr fun other member => ?_, .link slot aside ?_, fun other => ?_⟩
  · rw [elsewhere other fun same => fresh (same ▸ member)]
  · rw [here]
    refine asideLinked.congr fun other member => ?_
    rw [elsewhere other fun same => unlisted (same ▸ member)]
  · by_cases same : slot = other
    · subst same
      rw [here]
      rfl
    · rw [elsewhere other same]

variable [Collector S κ]

/-- How a walk over pending buckets ends, when it has walked over some of them and left others: the early
ones have been offered and the late ones set aside. -/
def Walks (bound : DocId) (search : WindowedSearch S σ) (sink : Offered S κ)
    (aside walked left : List (Fin (search.last + 1)))
    (step : Step (WindowedSearch S σ × Offered S κ) Unit) : Prop :=
  ∃ outcome table head inner, step = (outcome, (search.relinked table head,
      ⟨inner, sink.hits ++ search.hitsOf (search.earlyOf bound walked)⟩)) ∧
    search.Keeps table ∧ Linked table.buckets head left ∧
    Linked table.buckets table.first ((search.lateOf bound walked).reverse ++ aside) ∧
    (outcome = .ok () → left = []) ∧
    ∀ failure, outcome = .error failure → Collector.Refuses κ failure

variable {sink after : Offered S κ} {slot : Fin (search.last + 1)}
  {walked left : List (Fin (search.last + 1))} {step : Step (WindowedSearch S σ × Offered S κ) Unit}

theorem Walks.early (early : (search.table.buckets.get slot).isLate bound = false)
    (offered : after.hits = sink.hits ++
      (emission search.minimum search.coordination (search.table.buckets.get slot)).toList)
    (walks : Walks bound (search.relinked search.table head) after aside walked left step) :
    Walks bound search sink aside (slot :: walked) left step := by
  obtain ⟨outcome, table, last, inner, same, keeps, linked, asideLinked, rest⟩ := walks
  obtain ⟨earlyCons, lateCons⟩ := split_cons_of_early early walked
  refine ⟨outcome, table, last, inner, ?_, keeps, linked, ?_, rest⟩
  · rw [same, earlyCons, hitsOf_cons, ← List.append_assoc, ← offered]
    rfl
  · rw [lateCons]
    exact asideLinked

theorem Walks.late (late : (search.table.buckets.get slot).isLate bound = true)
    (keeps : search.Keeps (search.table.setAside slot))
    (walks : Walks bound (search.relinked (search.table.setAside slot) head) sink (slot :: aside) walked left
      step) :
    Walks bound search sink aside (slot :: walked) left step := by
  obtain ⟨outcome, table, last, inner, same, keepsAfter, linked, asideLinked, rest⟩ := walks
  obtain ⟨earlyCons, lateCons⟩ := split_cons_of_late late walked
  rw [keeps.earlyOf_eq, keeps.hitsOf_eq] at same
  rw [keeps.lateOf_eq] at asideLinked
  refine ⟨outcome, table, last, inner, ?_, fun other => (keepsAfter other).trans (keeps other), linked, ?_,
    rest⟩
  · rw [same, earlyCons]
    rfl
  · rw [lateCons, List.reverse_cons, List.append_assoc, List.singleton_append]
    exact asideLinked

theorem Walks.ended (none : search.pending = none)
    (asideLinked : Linked search.table.buckets search.table.first aside) :
    Walks bound search sink aside [] [] (.ok (), (search, sink)) := by
  refine ⟨.ok (), search.table, .none, sink.inner, ?_, fun _ => rfl, .done, asideLinked, fun _ => rfl,
    fun _ same => by cases same⟩
  have same : search.relinked search.table .none = search := by rw [relinked, ← none]
  simp only [earlyOf, hitsOf, List.filter_nil, List.filterMap_nil, List.append_nil, same]

theorem Walks.refused (early : (search.table.buckets.get slot).isLate bound = false) {hit : Hit S}
    (emits : emission search.minimum search.coordination (search.table.buckets.get slot) = some hit)
    (rest : Linked search.table.buckets head left)
    (asideLinked : Linked search.table.buckets search.table.first aside) {failure : Failure}
    (refuses : Collector.Refuses κ failure) (inner : κ) :
    Walks bound search sink aside [slot] left
      (.error failure, (search.relinked search.table head, ⟨inner, sink.hits ++ [hit]⟩)) := by
  obtain ⟨earlyCons, lateCons⟩ := split_cons_of_early early []
  refine ⟨.error failure, search.table, head, inner, ?_, fun _ => rfl, rest, ?_, (fun same => by cases same),
    fun other same => ?_⟩
  · rw [earlyCons, hitsOf_cons, emits]
    rfl
  · rw [lateCons]
    exact asideLinked
  · cases same
    exact refuses

theorem emit_walks (bound : DocId) (visits : Nat) (search : WindowedSearch S σ) (sink : Offered S κ)
    {slots aside : List (Fin (search.last + 1))}
    (linked : Linked search.table.buckets search.pending slots)
    (asideLinked : Linked search.table.buckets search.table.first aside)
    (distinct : (slots ++ aside).Nodup) (enough : slots.length < visits) :
    ∃ walked left, slots = walked ++ left ∧
      Walks bound search sink aside walked left (emit bound visits search sink) := by
  induction visits generalizing search sink slots aside with
  | zero => omega
  | succ visits ih =>
    cases slots with
    | nil =>
      have none := linked.eq_none
      rw [emit, none]
      exact ⟨[], [], rfl, .ended none asideLinked⟩
    | cons slot slots =>
      obtain ⟨head, rest⟩ := linked.eq_some
      rw [List.cons_append, List.nodup_cons, List.mem_append, not_or] at distinct
      obtain ⟨⟨fresh, unlisted⟩, distinctRest⟩ := distinct
      have fewer : slots.length < visits := by simpa using enough
      rw [emit_succ bound visits sink head]
      cases late : (search.table.buckets.get slot).isLate bound with
      | true =>
        obtain ⟨linkedAfter, asideAfter, keeps⟩ := setAside_linked rest asideLinked fresh unlisted
        have distinctAfter : (slots ++ slot :: aside).Nodup := by
          rw [List.perm_middle.nodup_iff, List.nodup_cons, List.mem_append, not_or]
          exact ⟨⟨fresh, unlisted⟩, distinctRest⟩
        obtain ⟨walked, left, split, walks⟩ := ih
          (search.relinked (search.table.setAside slot) (search.table.buckets.get slot).next)
          sink linkedAfter asideAfter distinctAfter fewer
        exact ⟨slot :: walked, left, congrArg (slot :: ·) split, walks.late late keeps⟩
      | false =>
        have goOn : ∀ after : Offered S κ, after.hits = sink.hits ++
            (emission search.minimum search.coordination (search.table.buckets.get slot)).toList →
            ∃ walked left, slot :: slots = walked ++ left ∧ Walks bound search sink aside walked left
              (emit bound visits (search.relinked search.table (search.table.buckets.get slot).next) after) := by
          intro after offered
          obtain ⟨walked, left, split, walks⟩ := ih
            (search.relinked search.table (search.table.buckets.get slot).next) after rest asideLinked
            distinctRest fewer
          exact ⟨slot :: walked, left, congrArg (slot :: ·) split, walks.early late offered⟩
        rw [if_neg Bool.false_ne_true]
        cases emits : emission search.minimum search.coordination (search.table.buckets.get slot) with
        | none => exact goOn sink (by rw [emits, Option.toList_none, List.append_nil])
        | some hit =>
          have collected : Collector.collect sink hit.doc hit.score =
            (Collector.collect sink.inner hit.doc hit.score).within fun inner =>
              ⟨inner, sink.hits ++ [⟨hit.doc, hit.score⟩]⟩ := rfl
          simp only [collected]
          rcases answer : Collector.collect sink.inner hit.doc hit.score with ⟨failure | taken, inner⟩
          · have refuses : Collector.Refuses κ failure :=
              ⟨sink.inner, hit.doc, hit.score, congrArg Prod.fst answer⟩
            exact ⟨[slot], slots, rfl, .refused late emits rest asideLinked refuses inner⟩
          · exact goOn ⟨inner, sink.hits ++ [hit]⟩ (by rw [emits]; rfl)

theorem early_append_late_perm (search : WindowedSearch S σ) (bound : DocId)
    (slots : List (Fin (search.last + 1))) :
    (search.hitsOf (search.earlyOf bound slots) ++ search.hitsOf (search.lateOf bound slots)).Perm
      (search.hitsOf slots) := by
  rw [hitsOf, hitsOf, ← List.filterMap_append]
  refine List.Perm.filterMap _ (List.perm_append_comm.trans ?_)
  exact List.filter_append_perm _ slots

/-- A search between two calls, with the hits of its pending buckets. All of them lie before the end of
the last window, and the clauses are as they should be there. -/
structure Owes (ready : DocId → List (WindowedClause σ) → Prop) (search : WindowedSearch S σ)
    (owed : List (Hit S)) : Prop where
  nonneg : 0 ≤ search.windowEnd
  inside : search.windowEnd ≤ noMoreDocs
  small : (search.last : Int) + 1 ≤ noMoreDocs
  ready : ready search.windowEnd search.clauses
  stale : ∀ slot : Fin (search.last + 1), (search.table.buckets.get slot).doc < search.windowEnd
  pending : ∃ slots, Linked search.table.buckets search.pending slots ∧ slots.Nodup ∧
    search.hitsOf slots = owed

section Owes

variable {ready : DocId → List (WindowedClause σ) → Prop} {owed : List (Hit S)}

omit [Collector S κ] in
theorem Owes.relinked (owes : Owes ready search owed) (keeps : search.Keeps table)
    {slots : List (Fin (search.last + 1))} (linked : Linked table.buckets head slots)
    (distinct : slots.Nodup) : Owes ready (search.relinked table head) (search.hitsOf slots) where
  nonneg := owes.nonneg
  inside := owes.inside
  small := owes.small
  ready := owes.ready
  stale slot := (doc_eq_of_content (keeps slot)).trans_lt (owes.stale slot)
  pending := ⟨slots, linked, distinct, keeps.hitsOf_eq slots⟩

omit [Collector S κ] in
theorem Owes.doc_lt (owes : Owes ready search owed) : ∀ hit ∈ owed, hit.doc < search.windowEnd := by
  obtain ⟨slots, -, -, rfl⟩ := owes.pending
  intro hit member
  obtain ⟨slot, -, emits⟩ := List.mem_filterMap.mp member
  obtain ⟨-, -, rfl, -⟩ := BucketTable.emission_eq_some.mp emits
  exact owes.stale slot

theorem Owes.emit_eq (owes : Owes ready search owed) (bound : DocId)
    (sink : Offered S κ) :
    ∃ outcome table head inner taken left aside,
      emit bound moveLimit { search with table := { search.table with first := none } } sink =
        (outcome, (search.relinked table head, ⟨inner, sink.hits ++ taken⟩)) ∧
      search.Keeps table ∧ Linked table.buckets head left ∧ left.Nodup ∧
      Linked table.buckets table.first aside ∧ aside.Nodup ∧
      (taken ++ search.hitsOf left ++ search.hitsOf aside).Perm owed ∧
      (∀ hit ∈ taken, hit.doc < bound) ∧ (∀ hit ∈ search.hitsOf aside, bound ≤ hit.doc) ∧
      (outcome = .ok () → left = []) ∧ (search.windowEnd ≤ bound → aside = []) ∧
      ∀ failure, outcome = .error failure → Collector.Refuses κ failure := by
  obtain ⟨slots, linked, distinct, rfl⟩ := owes.pending
  have room : slots.length < moveLimit := by
    have few := distinct.length_le_card
    have small := owes.small
    rw [Fintype.card_fin] at few
    unfold noMoreDocs at small
    unfold moveLimit
    omega
  let cleared : WindowedSearch S σ := { search with table := { search.table with first := none } }
  have noneAside : Linked cleared.table.buckets cleared.table.first [] := .done
  obtain ⟨walked, left, split, outcome, table, head, inner, same, keeps, linkedAfter, aside, stops,
    refused⟩ := emit_walks bound moveLimit cleared sink linked noneAside (by rwa [List.append_nil]) room
  subst split
  rw [List.append_nil] at aside
  obtain ⟨distinctWalked, distinctLeft, -⟩ := List.nodup_append.mp distinct
  refine ⟨outcome, table, head, inner, search.hitsOf (search.earlyOf bound walked), left,
    (search.lateOf bound walked).reverse, same, keeps, linkedAfter, distinctLeft, aside,
    List.nodup_reverse.mpr (distinctWalked.filter _), ?_, fun hit => doc_lt_of_mem_early, ?_, stops, ?_,
    refused⟩
  · have whole : search.hitsOf (walked ++ left) = search.hitsOf walked ++ search.hitsOf left :=
      List.filterMap_append
    have back : (search.hitsOf (search.lateOf bound walked).reverse).Perm
        (search.hitsOf (search.lateOf bound walked)) := (List.reverse_perm _).filterMap _
    calc search.hitsOf (search.earlyOf bound walked) ++ search.hitsOf left ++
          search.hitsOf (search.lateOf bound walked).reverse
      _ |>.Perm (search.hitsOf (search.earlyOf bound walked) ++ search.hitsOf left ++
          search.hitsOf (search.lateOf bound walked)) := back.append_left _
      _ |>.Perm (search.hitsOf (search.earlyOf bound walked) ++ search.hitsOf (search.lateOf bound walked) ++
          search.hitsOf left) := by
        rw [List.append_assoc, List.append_assoc]
        exact List.perm_append_comm.append_left _
      _ |>.Perm (search.hitsOf walked ++ search.hitsOf left) :=
        (search.early_append_late_perm bound walked).append_right _
      _ = search.hitsOf (walked ++ left) := whole.symm
  · intro hit member
    have listed : hit ∈ search.hitsOf (search.lateOf bound walked) :=
      ((List.reverse_perm _).filterMap _).subset member
    exact le_doc_of_mem_late listed
  · intro beyond
    refine List.reverse_eq_nil_iff.mpr (List.filter_eq_nil_iff.mpr fun slot _ => ?_)
    rw [Bucket.isLate_eq_false ((owes.stale slot).trans_le beyond)]
    exact Bool.false_ne_true

end Owes

variable [Scorer S σ] {labels : List (LabeledMeaning S)}

section Round

variable {ready : DocId → List (WindowedClause σ) → Prop} {owed : List (Hit S)}

inductive Round (ready : DocId → List (WindowedClause σ) → Prop) (bound : DocId) (windows : Nat)
    (search : WindowedSearch S σ) (owed : List (Hit S)) (sink : Offered S κ) (events : List Event) : Prop where
  | refused (failure : Failure) (table : BucketTable S search.last) (head : Option (Fin (search.last + 1)))
      (inner : κ) (taken kept lost : List (Hit S))
      (same : drainWithin bound (windows + 1) search sink events =
        ⟨.error failure, search.relinked table head, ⟨inner, sink.hits ++ taken⟩, events.reverse⟩)
      (owes : Owes ready (search.relinked table head) kept) (balance : (taken ++ kept ++ lost).Perm owed)
      (early : ∀ hit ∈ taken, hit.doc < bound) (lossless : search.windowEnd ≤ bound → lost = [])
      (refuses : Collector.Refuses κ failure)
  | setAside (table : BucketTable S search.last) (slot : Fin (search.last + 1)) (inner : κ)
      (taken kept : List (Hit S))
      (same : drainWithin bound (windows + 1) search sink events =
        ⟨.ok true, search.relinked table (some slot), ⟨inner, sink.hits ++ taken⟩, events.reverse⟩)
      (owes : Owes ready (search.relinked table (some slot)) kept) (balance : (taken ++ kept).Perm owed)
      (early : ∀ hit ∈ taken, hit.doc < bound) (late : ∀ hit ∈ kept, bound ≤ hit.doc)
      (short : ¬search.windowEnd ≤ bound)
  | offered (table : BucketTable S search.last) (inner : κ) (taken : List (Hit S))
      (same : drainWithin bound (windows + 1) search sink events =
        match (search.relinked table none).fill with
        | (.error failure, search) =>
          ⟨.error failure, search, ⟨inner, sink.hits ++ taken⟩, events.reverse⟩
        | (.ok (hits, more), search) =>
          if search.table.first.isNone && !more then
            ⟨.ok false, { search with pending := search.table.first }, ⟨inner, sink.hits ++ taken⟩,
              (.windowFilled search.windowEnd hits more :: events).reverse⟩
          else drainWithin bound windows { search with pending := search.table.first }
            ⟨inner, sink.hits ++ taken⟩ (.windowFilled search.windowEnd hits more :: events))
      (owes : Owes ready (search.relinked table none) []) (unused : table.first = none)
      (all : taken.Perm owed) (early : ∀ hit ∈ taken, hit.doc < bound)

theorem Owes.round (owes : Owes ready search owed) (bound : DocId) (windows : Nat) (sink : Offered S κ)
    (events : List Event) : Round ready bound windows search owed sink events := by
  obtain ⟨outcome, table, head, inner, taken, left, aside, same, keeps, linked, distinct, asideLinked,
    asideDistinct, balance, early, late, stops, noneAside, refused⟩ := owes.emit_eq bound sink
  have answer := drainWithin_succ bound windows search sink events
  rw [same] at answer
  cases outcome with
  | error failure =>
    exact .refused failure table head inner taken (search.hitsOf left) (search.hitsOf aside) answer
      (owes.relinked keeps linked distinct) balance early (fun beyond => by rw [noneAside beyond]; rfl)
      (refused failure rfl)
  | ok done =>
    have nothingLeft := stops rfl
    subst nothingLeft
    have ended := linked.eq_none
    subst ended
    cases first : table.first with
    | some slot =>
      rw [first] at asideLinked
      have someFirst : (search.relinked table none).table.first = some slot := first
      simp only [someFirst] at answer
      have keepsAfter : search.Keeps ⟨table.buckets, none⟩ := keeps
      refine .setAside ⟨table.buckets, none⟩ slot inner taken (search.hitsOf aside) answer
        (owes.relinked keepsAfter asideLinked asideDistinct) ?_ early late fun beyond => ?_
      · exact (List.append_nil taken) ▸ balance
      · rw [noneAside beyond] at asideLinked
        exact absurd asideLinked.eq_none (Option.some_ne_none slot)
    | none =>
      rw [first] at asideLinked
      cases asideLinked
      have noneFirst : (search.relinked table none).table.first = none := first
      simp only [noneFirst] at answer
      exact .offered table inner taken answer (owes.relinked keeps linked distinct) first
        (by simpa [hitsOf] using balance) early

end Round

def AllReady (labels : List (LabeledMeaning S)) (low : DocId) (clauses : List (WindowedClause σ)) : Prop :=
  List.Forall₂ (Ready low) labels clauses

theorem Standing.owes {start : DocId} (standing : Standing labels start search) :
    ∃ owed, Owes (AllReady labels) search owed ∧
      Results labels search.minimum search.coordination start search.windowEnd owed := by
  obtain ⟨nonneg, le, inside, small, ready, reports, slots, holds, reported⟩ := standing
  refine ⟨search.hitsOf slots, ⟨nonneg.trans le, inside, small, ready, fun slot => ?_,
    slots, holds.linked, holds.distinct, rfl⟩, holds.results reported _ _⟩
  exact holds.doc_lt le (fun report member => (reported.inside report member).2) slot

/-- How a call ends. What was owed and what the windows filled by the call hold is offered, kept for the
next call, or lost. -/
structure Settles (labels : List (LabeledMeaning S)) (bound : DocId) (search : WindowedSearch S σ)
    (owed : List (Hit S)) (sink : Offered S κ) (drained : Drained (WindowedSearch S σ) (Offered S κ) Bool)
    (news taken kept lost : List (Hit S)) : Prop where
  offered : drained.sink.hits = sink.hits ++ taken
  results : Results labels search.minimum search.coordination search.windowEnd drained.rest.windowEnd news
  balance : (taken ++ kept ++ lost).Perm (owed ++ news)
  early : ∀ hit ∈ taken, hit.doc < bound
  late : (∃ answer, drained.outcome = .ok answer) → ∀ hit ∈ kept, bound ≤ hit.doc
  byWindow : ∀ size, OneWindow size search owed →
    ByWindow size (taken ++ kept) ∧ OneWindow size drained.rest kept
  owes : Owes (AllReady labels) drained.rest kept
  terms : drained.rest.terms = search.terms
  le : search.windowEnd ≤ drained.rest.windowEnd
  lossless : (∃ answer, drained.outcome = .ok answer) ∨ drained.rest.windowEnd ≤ bound → lost = []
  finished : drained.outcome = .ok false → kept = [] ∧
    ∀ label ∈ labels, ∀ doc ∈ label.1.docs, doc < drained.rest.windowEnd
  whole : drained.rest.windowEnd ≤ bound → drained.outcome ≠ .ok true
  refused : ∀ failure, drained.outcome = .error failure → Collector.Refuses κ failure

omit [Scorer S σ] in
theorem results_nil (labels : List (LabeledMeaning S)) (minimum : Nat) (coordination : CoordinationTable S)
    (low : DocId) : Results labels minimum coordination low low [] :=
  ⟨.nil, fun doc => by simp, by simp⟩

theorem Settles.goOn {next : WindowedSearch S σ} {drained : Drained (WindowedSearch S σ) (Offered S κ) Bool}
    {owed window news first taken kept lost : List (Hit S)}
    (settles : Settles labels bound next window after drained news taken kept lost) (all : first.Perm owed)
    (offered : after.hits = sink.hits ++ first) (early : ∀ hit ∈ first, hit.doc < bound)
    (results : Results labels search.minimum search.coordination search.windowEnd next.windowEnd window)
    (before : ∀ hit ∈ owed, hit.doc < search.windowEnd)
    (filled : ∀ size, OneWindow size search owed → OneWindow size next window)
    (le : search.windowEnd ≤ next.windowEnd) (terms : next.terms = search.terms) :
    Settles labels bound search owed sink drained (window ++ news) (first ++ taken) kept lost := by
  obtain ⟨sameMinimum, sameFactors⟩ := Prod.mk.inj terms
  have later := settles.results
  rw [sameMinimum, sameFactors] at later
  have found := results.append later le settles.le
  refine ⟨?_, found, ?_, List.forall_mem_append.mpr ⟨early, settles.early⟩, settles.late, fun size one => ?_,
    settles.owes, settles.terms.trans terms, le.trans settles.le, settles.lossless, settles.finished,
    settles.whole, settles.refused⟩
  · rw [settles.offered, offered, List.append_assoc]
  · have stage : (first ++ window ++ []).Perm (owed ++ window) := by
      rw [List.append_nil]
      exact all.append_right window
    exact balance_trans stage settles.balance
  · obtain ⟨laterByWindow, last⟩ := settles.byWindow size (filled size one)
    refine ⟨?_, last⟩
    rw [List.append_assoc]
    refine (one.byWindow all.subset).append one.positive laterByWindow fun hit member other listed => ?_
    have fresh : other ∈ window ++ news := settles.balance.subset (List.mem_append_left lost listed)
    have beyond := ((found.mem_docs other.doc).mp (List.mem_map_of_mem fresh)).1.1
    exact (before hit (all.subset member)).le.trans beyond

theorem settles_of_refusal {owed taken kept lost : List (Hit S)} {failure : Failure} {events : List Event}
    {inner : κ} (owes : Owes (AllReady labels) (search.relinked table head) kept)
    (balance : (taken ++ kept ++ lost).Perm owed) (early : ∀ hit ∈ taken, hit.doc < bound)
    (lossless : search.windowEnd ≤ bound → lost = []) (refuses : Collector.Refuses κ failure) :
    Settles labels bound search owed sink
      ⟨.error failure, search.relinked table head, ⟨inner, sink.hits ++ taken⟩, events⟩ [] taken kept lost := by
  have subset : taken ++ kept ⊆ owed := fun hit member => balance.subset (List.mem_append_left lost member)
  have keptOwed : kept ⊆ owed := List.Subset.trans (List.subset_append_right taken kept) subset
  refine ⟨rfl, results_nil _ _ _ _, (List.append_nil owed).symm ▸ balance, early, nofun,
    fun size one => ⟨one.byWindow subset, one.relinked keptOwed table head⟩, owes, rfl, le_rfl, ?_, nofun, nofun,
    fun other failed => ?_⟩
  · rintro (⟨answer, ok⟩ | beyond)
    · cases ok
    · exact lossless beyond
  · cases failed
    exact refuses

theorem settles_of_setAside {owed taken kept : List (Hit S)} {events : List Event} {inner : κ}
    (owes : Owes (AllReady labels) (search.relinked table head) kept) (balance : (taken ++ kept).Perm owed)
    (early : ∀ hit ∈ taken, hit.doc < bound) (late : ∀ hit ∈ kept, bound ≤ hit.doc)
    (short : ¬search.windowEnd ≤ bound) :
    Settles labels bound search owed sink
      ⟨.ok true, search.relinked table head, ⟨inner, sink.hits ++ taken⟩, events⟩ [] taken kept [] := by
  have keptOwed : kept ⊆ owed := List.Subset.trans (List.subset_append_right taken kept) balance.subset
  refine ⟨rfl, results_nil _ _ _ _, ?_, early, fun _ => late,
    fun size one => ⟨one.byWindow balance.subset, one.relinked keptOwed table head⟩, owes, rfl, le_rfl,
    fun _ => rfl, nofun, fun beyond => absurd beyond short, nofun⟩
  rwa [List.append_nil, List.append_nil]

theorem settles_of_finished {after : WindowedSearch S σ} {owed taken : List (Hit S)} {events : List Event} {inner : κ}
    (owes : Owes (AllReady labels) after []) (all : taken.Perm owed) (early : ∀ hit ∈ taken, hit.doc < bound)
    (results : Results labels search.minimum search.coordination search.windowEnd after.windowEnd [])
    (filled : ∀ size, OneWindow size search owed → OneWindow size after []) (terms : after.terms = search.terms)
    (le : search.windowEnd ≤ after.windowEnd)
    (settled : ∀ label ∈ labels, ∀ doc ∈ label.1.docs, doc < after.windowEnd) :
    Settles labels bound search owed sink ⟨.ok false, after, ⟨inner, sink.hits ++ taken⟩, events⟩ [] taken [] [] := by
  have balance : (taken ++ [] ++ []).Perm (owed ++ []) := by simpa using all
  refine ⟨rfl, results, balance, early, fun _ => nofun, fun size one => ⟨one.byWindow ?_, filled size one⟩, owes,
    terms, le, fun _ => rfl, fun _ => ⟨rfl, settled⟩, nofun, nofun⟩
  rw [List.append_nil]
  exact all.subset

theorem drainWithin_settles (bound : DocId) (windows : Nat) (search : WindowedSearch S σ)
    (sink : Offered S κ) (events : List Event) {owed : List (Hit S)} (owes : Owes (AllReady labels) search owed)
    (enough : (noMoreDocs - search.windowEnd).toNat < windows) :
    ∃ news taken kept lost, Settles labels bound search owed sink
      (drainWithin bound windows search sink events) news taken kept lost := by
  -- Each window ends later than the one before until no document is left, so there are enough windows.
  induction windows generalizing search sink events owed with
  | zero => omega
  | succ windows ih =>
    cases owes.round bound windows sink events with
    | refused failure table head inner taken kept lost same owesAfter balance early lossless refuses =>
      rw [same]
      exact ⟨[], taken, kept, lost, settles_of_refusal owesAfter balance early lossless refuses⟩
    | setAside table slot inner taken kept same owesAfter balance early late short =>
      rw [same]
      exact ⟨[], taken, kept, [], settles_of_setAside owesAfter balance early late short⟩
    | offered table inner taken same owesNothing unused all early =>
      obtain ⟨⟨count, more⟩, after, filled, standing, terms, settled, goesOn⟩ := fill_yields
        (search.relinked table none) owesNothing.nonneg owesNothing.inside owesNothing.small
        owesNothing.ready owesNothing.stale unused
      obtain ⟨window, owesWindow, results⟩ := standing.owes
      change Results labels after.minimum after.coordination search.windowEnd after.windowEnd window at results
      obtain ⟨sameMinimum, sameFactors⟩ :
          after.minimum = search.minimum ∧ after.coordination = search.coordination := Prod.mk.inj terms
      rw [sameMinimum, sameFactors] at results
      have le : search.windowEnd ≤ after.windowEnd := standing.le
      have sameLast : after.last = search.last := congrArg (·.2.last) filled.symm
      have ends : after.windowEnd = min (search.windowEnd + (search.last + 1)) noMoreDocs :=
        congrArg (·.2.windowEnd) filled.symm
      have oneFilled : ∀ size, OneWindow size search owed →
          OneWindow size { after with pending := after.table.first } window := fun size one =>
        one.next sameLast ends fun hit member =>
          ((results.mem_docs hit.doc).mp (List.mem_map_of_mem member)).1
      simp only [filled] at same
      rw [same]
      by_cases finished : (after.table.first.isNone && !more) = true
      · rw [if_pos finished]
        rw [Bool.and_eq_true, Option.isNone_iff_eq_none, Bool.not_eq_true'] at finished
        have empty : window = [] := by
          obtain ⟨slots, pending, -, rfl⟩ := owesWindow.pending
          change Linked after.table.buckets after.table.first slots at pending
          rw [finished.1] at pending
          cases pending
          rfl
        subst empty
        exact ⟨[], taken, [], [],
          settles_of_finished owesWindow all early results oneFilled terms le (settled finished.2)⟩
      · rw [if_neg finished]
        have progress : search.windowEnd < after.windowEnd := by
          apply goesOn
          cases more with
          | true => exact .inl rfl
          | false => exact .inr (by simpa using finished)
        have upper : after.windowEnd ≤ noMoreDocs := standing.inside
        have fewer : (noMoreDocs - after.windowEnd).toNat < windows := by
          clear same filled
          lia
        obtain ⟨news, takenLater, kept, lost, settles⟩ := ih { after with pending := after.table.first }
          ⟨inner, sink.hits ++ taken⟩ (.windowFilled after.windowEnd count more :: events) owesWindow fewer
        exact ⟨window ++ news, taken ++ takenLater, kept, lost, settles.goOn all rfl early results
          owes.doc_lt oneFilled le terms⟩

omit [Scorer S σ] in
theorem emit_offered (bound : DocId) (visits : Nat) (search : WindowedSearch S σ) (sink : κ)
    (hits : List (Hit S)) : ∃ noted, emit bound visits search (⟨sink, hits⟩ : Offered S κ) =
      (emit bound visits search sink).within fun (after, inner) => (after, ⟨inner, noted⟩) := by
  induction visits generalizing search sink hits with
  | zero => exact ⟨hits, rfl⟩
  | succ visits ih =>
    cases head : search.pending with
    | none =>
      rw [emit, emit, head]
      exact ⟨hits, rfl⟩
    | some slot =>
      rw [emit_succ bound visits (⟨sink, hits⟩ : Offered S κ) head, emit_succ bound visits sink head]
      split
      · exact ih _ sink hits
      · cases emission search.minimum search.coordination (search.table.buckets.get slot) with
        | none => exact ih _ sink hits
        | some hit =>
          simp only [Collector.collect]
          rcases Collector.collect sink hit.doc hit.score with ⟨failure | taken, inner⟩
          · exact ⟨_, rfl⟩
          · exact ih _ inner _

/-- A call answers the same to a collector whether or not its hits are noted. -/
theorem drainWithin_offered (bound : DocId) (windows : Nat) (search : WindowedSearch S σ) (sink : κ)
    (hits : List (Hit S)) (events : List Event) :
    ∃ noted, drainWithin bound windows search (⟨sink, hits⟩ : Offered S κ) events =
      { drainWithin bound windows search sink events with
        sink := ⟨(drainWithin bound windows search sink events).sink, noted⟩ } := by
  induction windows generalizing search sink hits events with
  | zero => exact ⟨hits, rfl⟩
  | succ windows ih =>
    obtain ⟨noted, same⟩ := emit_offered bound moveLimit
      { search with table := { search.table with first := none } } sink hits
    rw [drainWithin_succ, drainWithin_succ, same]
    rcases emit bound moveLimit { search with table := { search.table with first := none } } sink with
      ⟨outcome, after, inner⟩
    cases outcome with
    | error failure => exact ⟨noted, rfl⟩
    | ok done =>
      simp only [Step.within]
      cases after.table.first with
      | some first => exact ⟨noted, rfl⟩
      | none =>
        rcases after.fill with ⟨answer, filled⟩
        cases answer with
        | error failure => exact ⟨noted, rfl⟩
        | ok answer =>
          simp only
          split
          · exact ⟨noted, rfl⟩
          · exact ih _ inner noted _

def drains (search : WindowedSearch S σ) :
    List (κ × DocId) → List (DocId × Drained (WindowedSearch S σ) (Offered S κ) Bool)
  | [] => []
  | (sink, bound) :: calls =>
    let drained := search.drain (⟨sink, []⟩ : Offered S κ) bound
    (bound, drained) :: drained.rest.drains calls

def afterCalls (search : WindowedSearch S σ) : List (κ × DocId) → WindowedSearch S σ
  | [] => search
  | (sink, bound) :: calls => (search.drain (⟨sink, []⟩ : Offered S κ) bound).rest.afterCalls calls

theorem drains_snoc (search : WindowedSearch S σ) (calls : List (κ × DocId)) (sink : κ) (bound : DocId) :
    search.drains (calls ++ [(sink, bound)]) =
      search.drains calls ++ [(bound, (search.afterCalls calls).drain (⟨sink, []⟩ : Offered S κ) bound)] := by
  induction calls generalizing search with
  | nil => rfl
  | cons call calls ih => exact congrArg (_ :: ·) (ih _)

theorem afterCalls_snoc (search : WindowedSearch S σ) (calls : List (κ × DocId)) (sink : κ) (bound : DocId) :
    search.afterCalls (calls ++ [(sink, bound)]) =
      ((search.afterCalls calls).drain (⟨sink, []⟩ : Offered S κ) bound).rest := by
  induction calls generalizing search with
  | nil => rfl
  | cons call calls ih => exact ih _

def offers (answers : List (DocId × Drained (WindowedSearch S σ) (Offered S κ) Bool)) : List (Hit S) :=
  answers.flatMap fun answer => answer.2.sink.hits

theorem offers_snoc (search : WindowedSearch S σ) (calls : List (κ × DocId)) (sink : κ) (bound : DocId) :
    offers (search.drains (calls ++ [(sink, bound)])) = offers (search.drains calls) ++
      ((search.afterCalls calls).drain (⟨sink, []⟩ : Offered S κ) bound).sink.hits := by
  rw [drains_snoc, offers, List.flatMap_append, List.flatMap_singleton, offers]

/-- A call that succeeds or whose bound lies at or beyond the end of the windows: no bucket has been set
aside in it when a hit is refused. -/
def Lossless (answer : DocId × Drained (WindowedSearch S σ) (Offered S κ) Bool) : Prop :=
  (∃ left, answer.2.outcome = .ok left) ∨ answer.2.rest.windowEnd ≤ answer.1

structure AllSettle (labels : List (LabeledMeaning S)) (search : WindowedSearch S σ) (owed : List (Hit S))
    (calls : List (κ × DocId)) (news kept lost : List (Hit S)) : Prop where
  results : Results labels search.minimum search.coordination search.windowEnd
    (search.afterCalls calls).windowEnd news
  balance : (offers (search.drains calls) ++ kept ++ lost).Perm (owed ++ news)
  byWindow : ∀ size, OneWindow size search owed →
    ByWindow size (offers (search.drains calls) ++ kept) ∧ OneWindow size (search.afterCalls calls) kept
  owes : Owes (AllReady labels) (search.afterCalls calls) kept
  terms : (search.afterCalls calls).terms = search.terms
  le : search.windowEnd ≤ (search.afterCalls calls).windowEnd
  lossless : (∀ answer ∈ search.drains calls, Lossless answer) → lost = []
  refused : ∀ answer ∈ search.drains calls, ∀ failure, answer.2.outcome = .error failure →
    Collector.Refuses κ failure

theorem AllSettle.doc_lt {owed news kept lost : List (Hit S)} {calls : List (κ × DocId)}
    (all : AllSettle labels search owed calls news kept lost) (owes : Owes (AllReady labels) search owed) :
    ∀ hit ∈ offers (search.drains calls), hit.doc < (search.afterCalls calls).windowEnd := by
  intro hit member
  have listed := all.balance.subset (List.mem_append_left lost (List.mem_append_left kept member))
  rcases List.mem_append.mp listed with old | new
  · exact (owes.doc_lt hit old).trans_le all.le
  · exact ((all.results.mem_docs hit.doc).mp (List.mem_map_of_mem new)).1.2

theorem AllSettle.snoc {owed news kept lost more taken left missed : List (Hit S)} {calls : List (κ × DocId)}
    {sink : κ} (owes : Owes (AllReady labels) search owed)
    (all : AllSettle labels search owed calls news kept lost)
    (settles : Settles labels bound (search.afterCalls calls) kept ⟨sink, []⟩
      ((search.afterCalls calls).drain (⟨sink, []⟩ : Offered S κ) bound) more taken left missed) :
    AllSettle labels search owed (calls ++ [(sink, bound)]) (news ++ more) left (lost ++ missed) := by
  obtain ⟨sameMinimum, sameFactors⟩ := Prod.mk.inj all.terms
  have later := settles.results
  rw [sameMinimum, sameFactors] at later
  refine ⟨?_, ?_, fun size one => ?_, ?_, ?_, ?_, fun unlost => ?_, ?_⟩
  · rw [afterCalls_snoc]
    exact all.results.append later all.le settles.le
  · rw [offers_snoc, settles.offered]
    exact balance_trans all.balance settles.balance
  · obtain ⟨first, oneKept⟩ := all.byWindow size one
    obtain ⟨second, oneLeft⟩ := settles.byWindow size oneKept
    rw [afterCalls_snoc, offers_snoc, settles.offered, List.nil_append, List.append_assoc]
    refine ⟨List.pairwise_append.mpr ⟨(List.pairwise_append.mp first).1, second,
      fun hit member other listed => ?_⟩, oneLeft⟩
    rcases List.mem_append.mp (settles.balance.subset (List.mem_append_left missed listed)) with old | new
    · exact (List.pairwise_append.mp first).2.2 hit member other old
    · have beyond := ((settles.results.mem_docs other.doc).mp (List.mem_map_of_mem new)).1.1
      exact Int.ediv_le_ediv one.positive ((all.doc_lt owes hit member).le.trans beyond)
  · rw [afterCalls_snoc]
    exact settles.owes
  · rw [afterCalls_snoc]
    exact settles.terms.trans all.terms
  · rw [afterCalls_snoc]
    exact all.le.trans settles.le
  · rw [drains_snoc, List.forall_mem_append, List.forall_mem_singleton] at unlost
    rw [all.lossless unlost.1, settles.lossless unlost.2]
    rfl
  · rw [drains_snoc, List.forall_mem_append, List.forall_mem_singleton]
    exact ⟨all.refused, settles.refused⟩

theorem drain_settles (bound : DocId) (search : WindowedSearch S σ) (sink : Offered S κ)
    {owed : List (Hit S)} (owes : Owes (AllReady labels) search owed) :
    ∃ news taken kept lost, Settles labels bound search owed sink (search.drain sink bound) news taken kept
      lost := by
  refine drainWithin_settles bound moveLimit search sink [] owes ?_
  have nonneg := owes.nonneg
  unfold noMoreDocs moveLimit
  lia

theorem drains_settle (calls : List (κ × DocId)) (search : WindowedSearch S σ) {owed : List (Hit S)}
    (owes : Owes (AllReady labels) search owed) :
    ∃ news kept lost, AllSettle labels search owed calls news kept lost := by
  induction calls using List.reverseRecOn with
  | nil =>
    refine ⟨[], owed, [], results_nil labels search.minimum search.coordination search.windowEnd, ?_,
      fun size one => ⟨one.byWindow (List.Subset.refl owed), one⟩, owes, rfl, le_rfl, fun _ => rfl,
      fun answer member => absurd member List.not_mem_nil⟩
    simp [drains, offers]
  | append_singleton calls call ih =>
    obtain ⟨news, kept, lost, all⟩ := ih
    obtain ⟨more, taken, left, missed, settles⟩ := drain_settles call.2 _ ⟨call.1, []⟩ all.owes
    exact ⟨news ++ more, left, lost ++ missed, all.snoc owes settles⟩

/-- Calls with any bounds and collectors, the last one for all documents. They offer no document twice and
none that is not wanted, and they fail only where a collector refuses a hit. Buckets that were set aside are
lost only where a hit is refused behind them in the same call: where all calls but the last one keep their
buckets, every wanted document is offered. -/
theorem calls_offer_wanted_once {optional prohibited : List (Meaning S)} {clauses excluded : List σ}
    (should : AllDenote optional clauses) (mustNot : AllDenote prohibited excluded) {minimum : Nat}
    {coordination : CoordinationTable S} {settings : Settings} (valid : settings.validate = .ok ())
    (some : clauses ≠ []) (inside : minimum ≤ clauses.length)
    (covered : clauses.length ≤ coordination.largest) :
    ∃ search, ofClauses clauses excluded minimum coordination settings = .ok search ∧
      ∀ (calls : List (κ × DocId)) (sink : κ),
        ((offers (search.drains (calls ++ [(sink, noMoreDocs)]))).map (·.doc)).Nodup ∧
        (∀ hit ∈ offers (search.drains (calls ++ [(sink, noMoreDocs)])), IsReal hit.doc ∧
          (∀ clause ∈ prohibited, hit.doc ∉ clause.docs) ∧
          max minimum 1 ≤ (Meaning.matching optional hit.doc).length) ∧
        (∀ answer ∈ search.drains (calls ++ [(sink, noMoreDocs)]), ∀ failure,
          answer.2.outcome = .error failure → Collector.Refuses κ failure) ∧
        ((∀ answer ∈ search.drains calls, Lossless answer) →
          (∃ left,
            ((search.afterCalls calls).drain (⟨sink, []⟩ : Offered S κ) noMoreDocs).outcome = .ok left) →
          ∀ doc, IsReal doc → (∀ clause ∈ prohibited, doc ∉ clause.docs) →
            max minimum 1 ≤ (Meaning.matching optional doc).length →
            doc ∈ (offers (search.drains (calls ++ [(sink, noMoreDocs)]))).map (·.doc)) := by
  obtain ⟨search, made, standing, fresh, terms⟩ :=
    ofClauses_standing should mustNot valid some inside covered
  obtain ⟨rfl, rfl⟩ := Prod.mk.inj terms
  refine ⟨search, made, fun calls sink => ?_⟩
  obtain ⟨owed, owes, results⟩ := standing.owes
  have nothing : owed = [] := by
    refine List.eq_nil_iff_forall_not_mem.mpr fun hit member => ?_
    have range := ((results.mem_docs hit.doc).mp (List.mem_map_of_mem member)).1
    rw [fresh] at range
    exact absurd range.2 (not_lt.mpr range.1)
  subst nothing
  obtain ⟨news, kept, lost, all⟩ := drains_settle calls search owes
  obtain ⟨more, taken, left, missed, settles⟩ :=
    drain_settles noMoreDocs (search.afterCalls calls) ⟨sink, []⟩ all.owes
  have whole := all.snoc owes settles
  have found := whole.results
  have balance := whole.balance
  rw [fresh] at found
  rw [List.nil_append] at balance
  have upper := whole.owes.inside
  have after : (search.afterCalls (calls ++ [(sink, noMoreDocs)])).windowEnd =
      ((search.afterCalls calls).drain (⟨sink, []⟩ : Offered S κ) noMoreDocs).rest.windowEnd :=
    congrArg windowEnd (afterCalls_snoc ..)
  refine ⟨?_, fun hit member => ?_, whole.refused, fun unlost ⟨answer, ended⟩ doc real allowed enough => ?_⟩
  · have distinct := (balance.map (·.doc)).nodup_iff.mpr found.distinct
    rw [List.append_assoc, List.map_append] at distinct
    exact (List.nodup_append.mp distinct).1
  · have listed : hit ∈ news ++ more :=
      balance.subset (List.mem_append_left _ (List.mem_append_left _ member))
    obtain ⟨range, wanted⟩ := (found.mem_docs hit.doc).mp (List.mem_map_of_mem listed)
    obtain ⟨allowed, enough⟩ := wanted_iff_max.mp wanted
    exact ⟨⟨range.1, range.2.trans_le upper⟩, allowed, enough⟩
  · have inWindows := settles.owes.inside
    have all_left : answer = false := by
      cases answer with
      | false => rfl
      | true => exact absurd ended (settles.whole inWindows)
    subst all_left
    obtain ⟨noneLeft, used⟩ := settles.finished ended
    rw [noneLeft, all.lossless unlost, settles.lossless (.inl ⟨false, ended⟩), List.append_nil, List.append_nil,
      List.append_nil] at balance
    have wanted := wanted_iff_max.mpr ⟨allowed, enough⟩
    obtain ⟨clause, member⟩ := List.exists_mem_of_length_pos
      (show 0 < (Meaning.matching optional doc).length by omega)
    obtain ⟨listed, has⟩ := List.mem_filter.mp member
    have before := used (clause, false) (List.mem_append_left _ (List.mem_map_of_mem listed)) doc
      (of_decide_eq_true has)
    rw [(balance.map (·.doc)).mem_iff, found.mem_docs, after]
    exact ⟨⟨real.1, before⟩, wanted⟩

/-- A collector that refuses the first of two documents when everything is drained. The next call offers
the second one. -/
theorem second_call_offers_second_document :
    ∃ search : WindowedSearch ℚ (TermScorer PostingList ℚ),
      ofClauses [⟨.fresh [.ofDoc 1, .ofDoc 5], .constant 1 1⟩] [] 0 (.disabled 1)
        { Settings.standard with bucketTableSize := 8 } = .ok search ∧
      5 ∈ (offers (search.drains [((⟨{}, 0, 0⟩ : Limited (HitList ℚ)), noMoreDocs),
        (⟨{}, 2, 0⟩, noMoreDocs)])).map (·.doc) := by
  have accepted : Posting.Accepted [.ofDoc 1, .ofDoc 5] := ⟨rfl, by decide⟩
  have denotes := TermScorer.denotes_of_ofPostings (S := ℚ) rfl accepted (.constant 1 1)
  have has : (5 : DocId) ∈ (TermScorer.meaning accepted (.constant (1 : ℚ) 1)).docs := by
    simp [TermScorer.meaning, Meaning.leaf, Posting.docs, Posting.ofDoc]
  obtain ⟨search, made, offered⟩ := @calls_offer_wanted_once ℚ _ (Limited (HitList ℚ)) _ _ _ _ _ _ _
    (.cons denotes .nil) .nil 0 (.disabled 1) { Settings.standard with bucketTableSize := 8 } rfl (by simp)
    (by simp) le_rfl
  refine ⟨search, made, ?_⟩
  obtain ⟨-, -, -, complete⟩ := offered [(⟨{}, 0, 0⟩, noMoreDocs)] ⟨{}, 2, 0⟩
  cases Except.ok.inj made
  refine complete (fun answer member => ?_) ⟨false, ?_⟩ 5 (by decide) (by simp) ?_
  · cases List.mem_singleton.mp member
    exact .inr (by decide +kernel)
  · decide +kernel
  · simp [Meaning.matching, has]

/-- A refusal loses the buckets that were set aside before it: document 5 is set aside for a later call,
document 1 is refused, and then draining everything finds nothing. -/
theorem refusal_loses_bucket_set_aside :
    ∃ search : WindowedSearch ℚ (TermScorer PostingList ℚ),
      ofClauses [⟨.fresh [.ofDoc 1, .ofDoc 5], .constant 1 1⟩] [] 0 (.disabled 1)
        { Settings.standard with bucketTableSize := 8 } = .ok search ∧
      (offers (search.drains [((⟨{}, 0, 0⟩ : Limited (HitList ℚ)), 3),
        (⟨{}, 2, 0⟩, noMoreDocs)])).map (·.doc) = [1] ∧
      (search.drains [((⟨{}, 0, 0⟩ : Limited (HitList ℚ)), 3), (⟨{}, 2, 0⟩, noMoreDocs)]).map
        (fun answer => answer.2.outcome) = [.error .terminated, .ok false] :=
  ⟨_, rfl, by decide +kernel, by decide +kernel⟩

end WindowedSearch

end PostingQuery
