import Mathlib
import PostingQuery.Proofs.Gather
import PostingQuery.Proofs.Heap
import PostingQuery.Proofs.Walk

/-!
Pools of parts that are still walking. A disjunction keeps its pool in a heap, a quorum in a heap and a
reserve. Each part is known by its rank. A part that has left the pool has no document left, and those
in it have not passed any, so the pool alone tells how many parts have a document.
-/

namespace PostingQuery

namespace Meaning

variable {S : Type}

def nothing : Meaning S := ofDocs ∅ (by simp)

def ofRank (meanings : List (Meaning S)) (rank : Nat) : Meaning S := meanings.getD rank nothing

theorem ofRank_mem {meanings : List (Meaning S)} {rank : Nat} (inside : rank < meanings.length) :
    ofRank meanings rank ∈ meanings := by
  rw [ofRank, List.getD_eq_getElem _ _ inside]
  exact List.getElem_mem inside

def matching (meanings : List (Meaning S)) (doc : DocId) : List (Meaning S) :=
  meanings.filter fun meaning => decide (doc ∈ meaning.docs)

theorem matching_perm {meanings others : List (Meaning S)} (perm : meanings.Perm others)
    (doc : DocId) : (matching meanings doc).Perm (matching others doc) :=
  perm.filter _

end Meaning

theorem Ranked.map_rank_ofList {σ : Type} (scorers : List σ) :
    (Ranked.ofList scorers).map (·.rank) = List.range scorers.length := by
  rw [Ranked.ofList, List.map_map, List.range_eq_range', ← List.zipIdx_map_snd 0 scorers]
  exact List.map_congr_left fun _ _ => rfl

variable {S σ : Type} [Scorer S σ]

theorem Ranked.denotes_of_mem_ofList {meanings : List (Meaning S)} {scorers : List σ}
    (denote : List.Forall₂ (fun meaning scorer => Denotes scorer meaning) meanings scorers)
    {part : Ranked σ} (member : part ∈ Ranked.ofList scorers) :
    part.rank < meanings.length ∧ Denotes part.scorer (Meaning.ofRank meanings part.rank) := by
  obtain ⟨⟨scorer, rank⟩, listed, rfl⟩ := List.mem_map.mp member
  obtain ⟨inside, found⟩ := List.mem_zipIdx' listed
  have bound : rank < meanings.length := denote.length_eq ▸ inside
  refine ⟨bound, ?_⟩
  change Denotes scorer (Meaning.ofRank meanings rank)
  rw [Meaning.ofRank, List.getD_eq_getElem _ _ bound, found]
  exact denote.get bound inside

/-- Parts that refine their meanings and have not passed any document from `low` on. A part that is not
here has none left from there on. -/
structure Pool (meanings : List (Meaning S)) (low : DocId) (parts : List (Ranked σ)) : Prop where
  inside : ∀ part ∈ parts, part.rank < meanings.length
  refines : ∀ part ∈ parts, Refines part.scorer (Meaning.ofRank meanings part.rank)
  covers : ∀ part ∈ parts, Covers (Meaning.ofRank meanings part.rank).docs low part.doc
  live : ∀ part ∈ parts, part.doc ≠ noMoreDocs
  distinct : (parts.map (·.rank)).Nodup
  lost : ∀ rank, rank ∉ parts.map (·.rank) → ∀ doc ∈ (Meaning.ofRank meanings rank).docs, doc < low

def fitting (meanings : List (Meaning S)) (doc : DocId) (parts : List (Ranked σ)) : List (Ranked σ) :=
  parts.filter fun part => decide (doc ∈ (Meaning.ofRank meanings part.rank).docs)

omit [Scorer S σ] in
theorem mem_fitting {meanings : List (Meaning S)} {doc : DocId} {parts : List (Ranked σ)}
    {part : Ranked σ} : part ∈ fitting meanings doc parts ↔
      part ∈ parts ∧ doc ∈ (Meaning.ofRank meanings part.rank).docs := by
  simp [fitting]

namespace Pool

variable {meanings : List (Meaning S)} {low : DocId} {parts : List (Ranked σ)}

theorem perm {others : List (Ranked σ)} (pool : Pool meanings low parts) (same : parts.Perm others) :
    Pool meanings low others where
  inside part member := pool.inside part (same.mem_iff.mpr member)
  refines part member := pool.refines part (same.mem_iff.mpr member)
  covers part member := pool.covers part (same.mem_iff.mpr member)
  live part member := pool.live part (same.mem_iff.mpr member)
  distinct := (same.map _).nodup_iff.mp pool.distinct
  lost rank absent := pool.lost rank fun member => absent ((same.map _).mem_iff.mp member)

theorem mono {higher : DocId} (pool : Pool meanings low parts) (le : low ≤ higher) :
    Pool meanings higher parts where
  inside := pool.inside
  refines := pool.refines
  covers part member := (pool.covers part member).mono le
  live := pool.live
  distinct := pool.distinct
  lost rank absent doc member := (pool.lost rank absent doc member).trans_le le

theorem rescored {scored : List (Ranked σ)} (pool : Pool meanings low parts)
    (same : List.Forall₂ (fun part after : Ranked σ => after.rank = part.rank ∧ after.doc = part.doc ∧
      ∀ meaning : Meaning S, Refines part.scorer meaning → Refines after.scorer meaning)
      parts scored) : Pool meanings low scored := by
  have ranks : scored.map (·.rank) = parts.map (·.rank) := by
    refine List.forall₂_eq_eq_eq ▸ ?_
    rw [List.forall₂_map_left_iff, List.forall₂_map_right_iff]
    exact same.flip.imp fun _ _ holds => holds.1
  refine ⟨fun after member => ?_, fun after member => ?_, fun after member => ?_,
    fun after member => ?_, ranks ▸ pool.distinct, fun rank absent => pool.lost rank (ranks ▸ absent)⟩
  all_goals obtain ⟨part, partMember, sameRank, sameDoc, keeps⟩ := exists_partner same.flip member
  · rw [sameRank]
    exact pool.inside part partMember
  · rw [sameRank]
    exact keeps _ (pool.refines part partMember)
  · rw [sameRank, sameDoc]
    exact pool.covers part partMember
  · rw [sameDoc]
    exact pool.live part partMember

theorem moved {part : Ranked σ} {rest : List (Ranked σ)} (pool : Pool meanings low (part :: rest))
    {landing : DocId} {after : σ}
    (arrival : Arrival (Meaning.ofRank meanings part.rank).docs low landing after)
    (refines : Refines after (Meaning.ofRank meanings part.rank)) :
    Pool meanings low (if landing = noMoreDocs then rest else ⟨part.rank, after⟩ :: rest) := by
  have restMember : ∀ other ∈ rest, other ∈ part :: rest := fun _ => List.mem_cons_of_mem part
  obtain ⟨arrived, lands⟩ := arrival
  split
  next ended =>
    refine ⟨fun other member => pool.inside other (restMember other member),
      fun other member => pool.refines other (restMember other member),
      fun other member => pool.covers other (restMember other member),
      fun other member => pool.live other (restMember other member),
      (List.nodup_cons.mp pool.distinct).2, fun rank absent doc member => ?_⟩
    by_cases same : rank = part.rank
    · -- The part that left has no document from `low` on.
      subst same
      by_contra from_low
      have none := lands.first doc member (not_lt.mp from_low)
      have real := (Meaning.ofRank meanings part.rank).real doc member
      have below := real.2
      lia
    · refine pool.lost rank (fun found => ?_) doc member
      rcases List.mem_cons.mp found with same' | later
      · exact same same'
      · exact absent later
  next stays =>
    have everyOther : ∀ {holds : Ranked σ → Prop}, holds ⟨part.rank, after⟩ →
        (∀ other ∈ rest, holds other) → ∀ other ∈ (⟨part.rank, after⟩ : Ranked σ) :: rest, holds other := by
      intro holds first others other member
      rcases List.mem_cons.mp member with same | later
      · exact same ▸ first
      · exact others other later
    refine ⟨everyOther (pool.inside part List.mem_cons_self)
      fun other member => pool.inside other (restMember other member), everyOther refines
      fun other member => pool.refines other (restMember other member), everyOther ?_
      fun other member => pool.covers other (restMember other member), everyOther ?_
      fun other member => pool.live other (restMember other member), pool.distinct, pool.lost⟩
    · change Covers _ _ (Cursor.doc after)
      rw [arrived]
      exact lands.covers
    · change Cursor.doc after ≠ noMoreDocs
      rwa [arrived]

theorem ofList {scorers : List σ}
    (denote : List.Forall₂ (fun meaning scorer => Denotes scorer meaning) meanings scorers)
    (low : DocId) : Pool meanings low (Ranked.ofList scorers) := by
  have ranks := Ranked.map_rank_ofList scorers
  have tracked : ∀ part ∈ Ranked.ofList scorers, part.rank < meanings.length ∧
      Denotes part.scorer (Meaning.ofRank meanings part.rank) :=
    fun part member => Ranked.denotes_of_mem_ofList denote member
  refine ⟨fun part member => (tracked part member).1, fun part member => (tracked part member).2.refines,
    fun part member => (tracked part member).2.covers low, fun part member => ?_, ?_, fun rank absent => ?_⟩
  · change Cursor.doc part.scorer ≠ noMoreDocs
    rw [(tracked part member).2.fresh]
    decide
  · rw [ranks]
    exact List.nodup_range
  · rw [ranks, List.mem_range, ← denote.length_eq] at absent
    intro doc member
    rw [Meaning.ofRank, List.getD_eq_default _ _ (not_lt.mp absent)] at member
    simp [Meaning.nothing, Meaning.ofDocs] at member

theorem matching_perm {doc : DocId} (pool : Pool meanings doc parts) :
    ((fitting meanings doc parts).map fun part => Meaning.ofRank meanings part.rank).Perm
      (Meaning.matching meanings doc) := by
  set chosen := fitting meanings doc parts with chosenSame
  have chosenMember : ∀ part, part ∈ chosen ↔
      part ∈ parts ∧ doc ∈ (Meaning.ofRank meanings part.rank).docs := fun part => mem_fitting
  obtain ⟨indices, indicesSame⟩ : ∃ indices : List (Fin meanings.length),
      indices.map Fin.val = chosen.map (·.rank) := by
    refine exists_fin_places fun rank member => ?_
    obtain ⟨part, partMember, rfl⟩ := List.mem_map.mp member
    exact pool.inside part ((chosenMember part).mp partMember).1
  have sameMeanings : chosen.map (fun part => Meaning.ofRank meanings part.rank) =
      indices.map meanings.get := by
    have byRank := congrArg (List.map (Meaning.ofRank meanings)) indicesSame
    rw [List.map_map, List.map_map] at byRank
    rw [← Function.comp_def (Meaning.ofRank meanings), ← byRank]
    exact List.map_congr_left fun i _ => List.getD_eq_getElem meanings _ i.isLt
  rw [sameMeanings]
  refine map_get_perm_filter ?_ fun i => ?_
  · refine List.Nodup.of_map Fin.val (indicesSame ▸ ?_)
    exact pool.distinct.sublist (List.filter_sublist.map _)
  · have byValue : i ∈ indices ↔ i.val ∈ chosen.map (·.rank) := by
      rw [← indicesSame]
      exact (List.mem_map_of_injective Fin.val_injective).symm
    have sameMeaning : Meaning.ofRank meanings i.val = meanings.get i :=
      List.getD_eq_getElem meanings _ i.isLt
    rw [byValue, decide_eq_true_iff, ← sameMeaning, List.mem_map]
    constructor
    · rintro ⟨part, member, same⟩
      exact same ▸ ((chosenMember part).mp member).2
    · intro member
      by_contra absent
      -- A part that has left the pool has no document from `doc` on.
      have below := pool.lost i.val (fun found => ?_) doc member
      · exact absurd below (lt_irrefl doc)
      · obtain ⟨part, partMember, same⟩ := List.mem_map.mp found
        exact absent ⟨part, (chosenMember part).mpr ⟨partMember, same ▸ member⟩, same⟩

theorem on_iff {doc : DocId} (pool : Pool meanings doc parts) (real : IsReal doc) {part : Ranked σ}
    (member : part ∈ parts) (reached : doc ≤ part.doc) :
    part.doc = doc ↔ doc ∈ (Meaning.ofRank meanings part.rank).docs := by
  constructor
  · intro here
    have placed : IsReal (Cursor.doc part.scorer) := by
      change IsReal part.doc
      rwa [here]
    have has := (pool.refines part member).member_of_real placed
    change part.doc ∈ _ at has
    rwa [here] at has
  · intro has
    exact le_antisymm (pool.covers part member doc has le_rfl) reached

theorem exists_part {meaning : Meaning S} {doc : DocId} (pool : Pool meanings low parts)
    (listed : meaning ∈ meanings) (has : doc ∈ meaning.docs) (from_low : low ≤ doc) :
    ∃ part ∈ parts, doc ∈ (Meaning.ofRank meanings part.rank).docs ∧ part.doc ≤ doc := by
  have found : meaning ∈ Meaning.matching meanings doc := by
    simpa [Meaning.matching] using ⟨listed, has⟩
  obtain ⟨part, fits, -⟩ := List.mem_map.mp ((pool.mono from_low).matching_perm.mem_iff.mpr found)
  obtain ⟨member, partHas⟩ := mem_fitting.mp fits
  exact ⟨part, member, partHas, pool.covers part member doc partHas from_low⟩

theorem matching_length_le {doc : DocId} (pool : Pool meanings low parts) (from_low : low ≤ doc) :
    (Meaning.matching meanings doc).length ≤ parts.length := by
  have perm := (pool.mono from_low).matching_perm
  rw [← perm.length_eq, List.length_map]
  exact List.length_filter_le _ _

end Pool

def Brings (S : Type) {σ : Type} [Scorer S σ] (move : σ → Step σ DocId) (current low : DocId) : Prop :=
  ∀ (state : σ) (meaning : Meaning S), Refines state meaning → current ≤ Cursor.doc state →
    Cursor.doc state < low → (move state).Yields fun landing after =>
      Arrival meaning.docs low landing after ∧ Refines after meaning

theorem brings_next {current : DocId} (live : current < noMoreDocs) :
    Brings S (Cursor.next : σ → Step σ DocId) current (current + 1) := by
  intro state meaning refines reached behind
  have here : Cursor.doc state = current := by lia
  have yields := refines.next (by rw [here]; exact live.ne)
  rwa [here] at yields

theorem brings_advance {current target : DocId} (inside : target ≤ noMoreDocs) :
    Brings S (fun state : σ => Cursor.advance state target) current target :=
  fun _ _ refines _ behind => refines.advance behind inside

namespace CursorHeap

variable {meanings : List (Meaning S)}

def behind (heap : CursorHeap σ) (low : DocId) : Nat :=
  heap.entries.toList.countP fun entry => decide (entry.doc < low)

theorem behind_pos {heap : CursorHeap σ} {low : DocId} (nonempty : heap.entries.toList ≠ [])
    (lags : heap.topDoc < low) : 0 < heap.behind low := by
  obtain ⟨root, member, here⟩ := exists_topDoc nonempty
  exact List.countP_pos_iff.mpr ⟨root, member, by simpa [here] using lags⟩

theorem behind_lt_moveBound (heap : CursorHeap σ) (low : DocId) : heap.behind low < heap.moveBound := by
  have each : ∀ (entries : List (Ranked σ)) (moves : Nat),
      moves + entries.length ≤ entries.foldl (fun moves _ => moves + moveLimit) moves := by
    intro entries
    induction entries with
    | nil => intro moves; exact le_rfl
    | cons entry entries ih =>
      intro moves
      have rest := ih (moves + moveLimit)
      rw [List.length_cons, List.foldl_cons]
      have positive : 0 < moveLimit := by decide
      omega
  have total := each heap.entries.toList moveLimit
  have some := List.countP_le_length (p := fun entry => decide (entry.doc < low))
    (l := heap.entries.toList)
  have positive : 0 < moveLimit := by decide
  rw [moveBound, ← Array.foldl_toList, behind]
  omega

theorem moveTop_yields {heap : CursorHeap σ} (others : List (Ranked σ)) {current low : DocId}
    {move : σ → Step σ DocId} (brings : Brings S move current low) (ordered : Ordered heap.entries)
    (pool : Pool meanings low (heap.entries.toList ++ others))
    (reached : ∀ entry ∈ heap.entries.toList, current ≤ entry.doc) (le : current ≤ low)
    (nonempty : heap.entries.toList ≠ []) (lags : heap.topDoc < low) :
    (heap.moveTop move).Yields fun stays after => Ordered after.entries ∧
      Pool meanings low (after.entries.toList ++ others) ∧
      (∀ entry ∈ after.entries.toList, current ≤ entry.doc) ∧
      after.behind low + 1 = heap.behind low ∧
      after.entries.toList.length + (if stays then 0 else 1) = heap.entries.toList.length := by
  obtain ⟨root, rest, perm, rootDoc, moves⟩ := moveTop_spec ordered nonempty
  have rootMember : root ∈ heap.entries.toList := perm.mem_iff.mpr List.mem_cons_self
  have rootLags : root.doc < low := rootDoc ▸ lags
  have poolHere : Pool meanings low (root :: (rest ++ others)) := pool.perm (perm.append_right others)
  obtain ⟨landing, after, same, arrival, refines⟩ := brings root.scorer
    (Meaning.ofRank meanings root.rank) (poolHere.refines root List.mem_cons_self)
    (reached root rootMember) rootLags
  obtain ⟨moved, movedSame, movedOrdered, movedPerm⟩ := moves move landing after same
  have poolAfter := poolHere.moved arrival refines
  obtain ⟨arrived, lands⟩ := arrival
  have restReached : ∀ entry ∈ rest, current ≤ entry.doc := fun entry member =>
    reached entry (perm.mem_iff.mpr (List.mem_cons_of_mem root member))
  have heapBehind : heap.behind low = rest.countP (fun entry => decide (entry.doc < low)) + 1 := by
    rw [behind, perm.countP_eq, List.countP_cons_of_pos (by simpa using rootLags)]
  have heapLength := perm.length_eq
  refine ⟨_, moved, movedSame, movedOrdered, ?_⟩
  split at movedPerm
  next ended =>
    rw [if_pos ended] at poolAfter
    refine ⟨poolAfter.perm (movedPerm.symm.append_right others), fun entry member => ?_, ?_, ?_⟩
    · exact restReached entry (movedPerm.mem_iff.mp member)
    · rw [heapBehind, behind, movedPerm.countP_eq]
    · simp [ended, movedPerm.length_eq, heapLength]
  next stays =>
    rw [if_neg stays] at poolAfter
    have landed : low ≤ Cursor.doc after := arrived ▸ lands.reached
    refine ⟨poolAfter.perm (movedPerm.symm.append_right others), fun entry member => ?_, ?_, ?_⟩
    · rcases List.mem_cons.mp (movedPerm.mem_iff.mp member) with first | later
      · rw [first]
        exact le.trans landed
      · exact restReached entry later
    · rw [heapBehind, behind, movedPerm.countP_eq, List.countP_cons_of_neg]
      simpa using (show low ≤ (⟨root.rank, after⟩ : Ranked σ).doc from landed)
    · simp [stays, movedPerm.length_eq, heapLength]

theorem scoreMatches_pool {heap : CursorHeap σ} (others : List (Ranked σ))
    (ordered : Ordered heap.entries) (real : IsReal heap.topDoc)
    (pool : Pool meanings heap.topDoc (heap.entries.toList ++ others)) :
    (heap.scoreMatches heap.topDoc).Yields fun values after => Ordered after.entries ∧
      Pool meanings heap.topDoc (after.entries.toList ++ others) ∧ after.topDoc = heap.topDoc ∧
      after.entries.toList.length = heap.entries.toList.length ∧
      Gathers (fun (meaning : Meaning S) value => meaning.scores heap.topDoc value)
        ((fitting meanings heap.topDoc heap.entries.toList).map
          fun entry => Meaning.ofRank meanings entry.rank) values := by
  have inPool : ∀ entry ∈ heap.entries.toList, entry ∈ heap.entries.toList ++ others :=
    fun _ => List.mem_append_left others
  obtain ⟨values, after, same, rescored, gathers⟩ := scoreMatches_yields ordered real
    fun entry member => ⟨_, pool.refines entry (inPool entry member)⟩
  have unmoved : List.Forall₂ (fun part after : Ranked σ => after.rank = part.rank ∧
      after.doc = part.doc ∧
      ∀ meaning : Meaning S, Refines part.scorer meaning → Refines after.scorer meaning)
      others others := List.forall₂_same.mpr fun _ _ => ⟨rfl, rfl, fun _ refines => refines⟩
  have onTop : heap.entries.toList.filter (fun entry => decide (entry.doc = heap.topDoc)) =
      fitting meanings heap.topDoc heap.entries.toList := by
    refine List.filter_congr fun entry member => ?_
    exact decide_eq_decide.mpr (pool.on_iff real (inPool entry member) (topDoc_le ordered member))
  refine ⟨values, after, same, rescored.ordered ordered,
    pool.rescored (List.rel_append rescored.forall₂ unmoved), ?_, ?_, ?_⟩
  · have sizes := rescored.size
    rw [topDoc_eq_key, topDoc_eq_key, key, key]
    split
    next inside =>
      rw [dif_pos (by omega)]
      exact rescored.doc 0 (by omega) inside
    next outside => rw [dif_neg (by omega)]
  · simp [rescored.size]
  · rw [onTop] at gathers
    refine Gathers.map (gathers.mono fun entry member value holds => ?_)
    exact holds _ (pool.refines entry (inPool entry (mem_fitting.mp member).1))

end CursorHeap

end PostingQuery
