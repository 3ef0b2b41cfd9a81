import Mathlib
import PostingQuery.Proofs.Quorum

/-!
The reserve of a quorum. Parts leave a quorum once their documents are used up, from the heap or from the
middle of the reserve, and the costliest part of the heap fills a gap in the reserve. Whatever the parts
answer, the reserve ranks before the heap, and together they hold every part that has not left.
-/

namespace PostingQuery

open Relation

variable {S σ : Type}

section Parts

variable [Scorer S σ]

inductive IsMove : (σ → Step σ DocId) → Prop
  | next : IsMove Cursor.next
  | advance (target : DocId) : IsMove fun scorer => Cursor.advance scorer target

inductive Asked : σ → σ → Prop
  | move {move : σ → Step σ DocId} (isMove : IsMove move) (scorer : σ) : Asked scorer (move scorer).2
  | score (scorer : σ) : Asked scorer (Scorer.score scorer).2

def Continues (part after : Ranked σ) : Prop :=
  after.rank = part.rank ∧ ReflTransGen Asked part.scorer after.scorer

def FoundUsedUp (scorer : σ) : Prop :=
  ∃ state move, ReflTransGen Asked scorer state ∧ IsMove move ∧ (move state).1 = .ok noMoreDocs

def Stems (order : List σ) (part : Ranked σ) : Prop :=
  ∃ scorer, order[part.rank]? = some scorer ∧ ReflTransGen Asked scorer part.scorer

def Left (order : List σ) (rank : Nat) : Prop := ∃ scorer, order[rank]? = some scorer ∧ FoundUsedUp scorer

theorem Continues.refl (part : Ranked σ) : Continues part part := ⟨rfl, .refl⟩

theorem Continues.forall₂_refl (parts : List (Ranked σ)) : List.Forall₂ Continues parts parts :=
  List.forall₂_same.mpr fun part _ => .refl part

theorem Continues.forall₂_ranks {parts after : List (Ranked σ)} (each : List.Forall₂ Continues parts after) :
    after.map (·.rank) = parts.map (·.rank) := by
  refine List.forall₂_eq_eq_eq ▸ ?_
  rw [List.forall₂_map_left_iff, List.forall₂_map_right_iff]
  exact each.flip.imp fun _ _ continues => continues.1

theorem Stems.continues {order : List σ} {part after : Ranked σ} (stems : Stems order part)
    (continues : Continues part after) : Stems order after := by
  obtain ⟨scorer, found, calls⟩ := stems
  exact ⟨scorer, continues.1 ▸ found, calls.trans continues.2⟩

theorem Stems.left {order : List σ} {part : Ranked σ} (stems : Stems order part)
    {move : σ → Step σ DocId} (isMove : IsMove move) (ended : (move part.scorer).1 = .ok noMoreDocs) :
    Left order part.rank := by
  obtain ⟨scorer, found, calls⟩ := stems
  exact ⟨scorer, found, part.scorer, move, calls, isMove, ended⟩

theorem reach_calls (scorer : σ) (target : DocId) :
    ReflTransGen Asked scorer (Cursor.reach scorer target).2 := by
  unfold Cursor.reach
  split
  next => exact .single (.move (.advance target) scorer)
  next => exact .refl

theorem Continues.forall₂_set {entries : Array (Ranked σ)} {i : Nat} (inside : i < entries.size) {after : σ}
    (calls : ReflTransGen Asked entries[i].scorer after) :
    List.Forall₂ Continues entries.toList (entries.set i ⟨entries[i].rank, after⟩).toList := by
  rw [List.forall₂_iff_get]
  refine ⟨by simp, fun j h h' => ?_⟩
  simp only [List.get_eq_getElem, Array.getElem_toList, Array.getElem_set]
  split
  next same =>
    subst same
    exact ⟨rfl, calls⟩
  next => exact .refl _

theorem Continues.forall₂_trans {parts middle after : List (Ranked σ)}
    (one : List.Forall₂ Continues parts middle) (two : List.Forall₂ Continues middle after) :
    List.Forall₂ Continues parts after := by
  induction one generalizing after with
  | nil => exact two
  | cons first _ ih =>
    cases two with
    | cons second rest => exact .cons ⟨second.1.trans first.1, first.2.trans second.2⟩ (ih rest)

theorem CursorHeap.scoreAt_continues (places : List Nat) (entries : Array (Ranked σ)) :
    List.Forall₂ Continues entries.toList (CursorHeap.scoreAt places entries).2.toList := by
  induction places generalizing entries with
  | nil => exact Continues.forall₂_refl _
  | cons i rest ih =>
    rw [scoreAt]
    split
    next inside =>
      have asked := ReflTransGen.single (Asked.score entries[i].scorer)
      rcases answer : Scorer.score entries[i].scorer with ⟨failure | value, after⟩
      all_goals
        rw [answer] at asked
        have stepped := Continues.forall₂_set inside asked
      · exact stepped
      · have later := Continues.forall₂_trans stepped (ih _)
        rcases remaining : scoreAt rest (entries.set i ⟨entries[i].rank, after⟩) with ⟨failure | values, final⟩
        all_goals
          rw [remaining] at later
          simpa only [remaining] using later
    next => exact ih entries

end Parts

/-- Reserve and heap of a quorum over parts that are listed from the costliest to the cheapest one: the
reserve comes first, and each part is in one of them unless it has been found used up. -/
structure Split [Scorer S σ] (order : List σ) (reserve heap : List (Ranked σ)) : Prop where
  increasing : (reserve.map (·.rank)).Pairwise (· < ·)
  before : ∀ first ∈ reserve.map (·.rank), ∀ second ∈ heap.map (·.rank), first < second
  stems : ∀ part ∈ reserve ++ heap, Stems order part
  complete : ∃ gone : List Nat, (reserve.map (·.rank) ++ heap.map (·.rank) ++ gone).Perm
    (List.range order.length) ∧ ∀ rank ∈ gone, Left order rank

namespace Split

variable [Scorer S σ] {order : List σ} {reserve heap : List (Ranked σ)}

theorem ofList (order : List σ) (count : Nat) :
    Split order ((Ranked.ofList order).take count) ((Ranked.ofList order).drop count) := by
  have ranks := Ranked.map_rank_ofList order
  have together : ((Ranked.ofList order).take count).map (·.rank) ++
      ((Ranked.ofList order).drop count).map (·.rank) = List.range order.length := by
    rw [← List.map_append, List.take_append_drop, ranks]
  have increasing : (((Ranked.ofList order).take count).map (·.rank) ++
      ((Ranked.ofList order).drop count).map (·.rank)).Pairwise (· < ·) := together ▸ List.pairwise_lt_range
  obtain ⟨first, -, before⟩ := List.pairwise_append.mp increasing
  refine ⟨first, before, fun part member => ?_, [], .of_eq (by rw [List.append_nil, together]), by simp⟩
  rw [List.take_append_drop] at member
  obtain ⟨⟨scorer, rank⟩, listed, rfl⟩ := List.mem_map.mp member
  obtain ⟨inside, found⟩ := List.mem_zipIdx' listed
  exact ⟨scorer, by rw [List.getElem?_eq_getElem inside, found], .refl⟩

theorem distinct (split : Split order reserve heap) :
    (reserve.map (·.rank) ++ heap.map (·.rank)).Nodup := by
  obtain ⟨gone, complete, -⟩ := split.complete
  exact (List.nodup_append.mp (complete.nodup_iff.mpr List.nodup_range)).1

theorem perm {others : List (Ranked σ)} (split : Split order reserve heap) (same : heap.Perm others) :
    Split order reserve others := by
  obtain ⟨gone, complete, left⟩ := split.complete
  refine ⟨split.increasing, fun first member second after =>
    split.before first member second ((same.map _).mem_iff.mpr after), fun part member => ?_,
    gone, .trans (((same.symm.map _).append_left _).append_right gone) complete, left⟩
  exact split.stems part ((same.append_left reserve).mem_iff.mpr member)

theorem continues {reserveAfter heapAfter : List (Ranked σ)} (split : Split order reserve heap)
    (inReserve : List.Forall₂ Continues reserve reserveAfter)
    (inHeap : List.Forall₂ Continues heap heapAfter) : Split order reserveAfter heapAfter := by
  have reserveRanks := Continues.forall₂_ranks inReserve
  have heapRanks := Continues.forall₂_ranks inHeap
  refine ⟨reserveRanks ▸ split.increasing, reserveRanks ▸ heapRanks ▸ split.before,
    fun after member => ?_, reserveRanks ▸ heapRanks ▸ split.complete⟩
  obtain ⟨part, partMember, continues⟩ := exists_partner (List.rel_append inReserve inHeap).flip member
  exact (split.stems part partMember).continues continues

theorem leave_heap {part : Ranked σ} {rest : List (Ranked σ)} (split : Split order reserve (part :: rest))
    (left : Left order part.rank) : Split order reserve rest := by
  obtain ⟨gone, complete, allLeft⟩ := split.complete
  refine ⟨split.increasing, fun first member second after =>
    split.before first member second (List.mem_cons_of_mem _ after), fun other member => ?_,
    part.rank :: gone, .trans ?_ complete, List.forall_mem_cons.mpr ⟨left, allLeft⟩⟩
  · refine split.stems other ?_
    simp only [List.mem_append, List.mem_cons] at member ⊢
    tauto
  · simp only [List.map_cons, List.append_assoc, List.cons_append]
    exact List.perm_middle.append_left _

theorem leave_reserve {front back : List (Ranked σ)} {part : Ranked σ}
    (split : Split order (front ++ part :: back) heap) (left : Left order part.rank) :
    Split order (front ++ back) heap := by
  obtain ⟨gone, complete, allLeft⟩ := split.complete
  have fewer : (front ++ back).Sublist (front ++ part :: back) :=
    (List.sublist_cons_self part back).append_left front
  refine ⟨split.increasing.sublist (fewer.map _), fun first member =>
    split.before first ((fewer.map _).subset member), fun other member => ?_,
    part.rank :: gone, .trans ?_ complete, List.forall_mem_cons.mpr ⟨left, allLeft⟩⟩
  · exact split.stems other ((fewer.append_right heap).subset member)
  · have moved : (part.rank :: ((front ++ back).map (·.rank) ++ heap.map (·.rank) ++ gone)).Perm
        ((front ++ part :: back).map (·.rank) ++ heap.map (·.rank) ++ gone) := by
      simp only [List.map_append, List.map_cons, List.append_assoc, List.cons_append]
      exact List.perm_middle.symm
    exact List.perm_middle.trans moved

theorem promote {taken : Ranked σ} {rest : List (Ranked σ)} (split : Split order reserve heap)
    (same : heap.Perm (taken :: rest)) (least : ∀ other ∈ heap, taken.rank ≤ other.rank) :
    Split order (reserve ++ [taken]) rest := by
  have sorted := split.perm same
  have member : taken.rank ∈ (taken :: rest).map (·.rank) := List.mem_cons_self
  have fresh : taken.rank ∉ rest.map (·.rank) := by
    have nodup := (List.nodup_append.mp sorted.distinct).2.1
    exact (List.nodup_cons.mp nodup).1
  obtain ⟨gone, complete, allLeft⟩ := sorted.complete
  refine ⟨?_, fun first firstMember second after => ?_, fun part partMember => ?_, gone, ?_, allLeft⟩
  · rw [List.map_append, List.pairwise_append]
    refine ⟨sorted.increasing, List.pairwise_singleton _ _, fun first firstMember last lastMember => ?_⟩
    rw [List.mem_singleton.mp lastMember]
    exact sorted.before first firstMember taken.rank member
  · rw [List.map_append, List.mem_append] at firstMember
    rcases firstMember with inReserve | isTaken
    · exact sorted.before first inReserve second (List.mem_cons_of_mem _ after)
    · rw [List.mem_singleton.mp isTaken]
      obtain ⟨other, otherMember, rfl⟩ := List.mem_map.mp after
      have le := least other (same.mem_iff.mpr (List.mem_cons_of_mem _ otherMember))
      refine lt_of_le_of_ne le fun equal => fresh ?_
      exact List.mem_map.mpr ⟨other, otherMember, equal.symm⟩
  · exact sorted.stems part (by simpa using partMember)
  · simpa using complete

end Split

namespace CursorHeap

variable [Scorer S σ] {order : List σ} {reserve : List (Ranked σ)} {heap : CursorHeap σ}

theorem moveTop_split (split : Split order reserve heap.entries.toList) {move : σ → Step σ DocId}
    (isMove : IsMove move) : Split order reserve (heap.moveTop move).2.entries.toList := by
  by_cases nonempty : 0 < heap.entries.size
  · rw [toList_eq_root_cons nonempty] at split
    rcases moveTop_perm nonempty move with ⟨ended, others⟩ | ⟨-, others⟩
    · have stems := split.stems heap.entries[0] (List.mem_append_right _ List.mem_cons_self)
      exact (split.leave_heap (stems.left isMove ended)).perm others.symm
    · have moved : Continues heap.entries[0] ⟨heap.entries[0].rank, (move heap.entries[0].scorer).2⟩ :=
        ⟨rfl, .single (.move isMove _)⟩
      exact (split.continues (Continues.forall₂_refl _) (.cons moved (Continues.forall₂_refl _))).perm
        others.symm
  · rw [moveTop, dif_neg nonempty]
    exact split

theorem scoreMatches_split (split : Split order reserve heap.entries.toList) (doc : DocId) :
    Split order reserve (heap.scoreMatches doc).2.entries.toList :=
  split.continues (Continues.forall₂_refl _) (scoreAt_continues _ _)

end CursorHeap

namespace Quorum

variable [Score S] [Scorer S σ] {order : List σ}

def IsSplit (order : List σ) (quorum : Quorum S σ) : Prop :=
  Split order quorum.reserve quorum.heap.entries.toList

theorem passOver_split {quorum : Quorum S σ} {entry : Ranked σ} {unseen seen : List (Ranked σ)}
    {usedUp : Bool} (split : Split order (unseen.reverse ++ entry :: seen) quorum.heap.entries.toList)
    (left : usedUp = true → Left order entry.rank) :
    match quorum.passOver usedUp entry seen with
    | (after, none) => after.heap = quorum.heap
    | (after, some seen) => Split order (unseen.reverse ++ seen) after.heap.entries.toList := by
  cases usedUp with
  | false => exact split
  | true =>
    have others := split.leave_reserve (left rfl)
    simp only [passOver, ↓reduceIte]
    by_cases tooFew : quorum.loseOne.live < quorum.loseOne.minimum
    · rw [if_pos tooFew]
      rfl
    · rw [if_neg tooFew]
      cases takes : quorum.heap.takeLeastRank with
      | none => simpa only [loseOne, takes] using others
      | some answer =>
        obtain ⟨perm, least, -⟩ := CursorHeap.takeLeastRank_spec takes
        have promoted := others.promote perm least
        rw [List.append_assoc] at promoted
        simpa only [loseOne, takes] using promoted

theorem pollReserve_split (unseen : List (Ranked σ)) (quorum : Quorum S σ) (seen : List (Ranked σ))
    (split : Split order (unseen.reverse ++ seen) quorum.heap.entries.toList) :
    IsSplit order (quorum.pollReserve unseen seen).2 := by
  induction unseen generalizing quorum seen with
  | nil => exact split
  | cons entry unseen ih =>
    rw [List.reverse_cons, List.append_assoc, List.singleton_append] at split
    -- Whatever calls are made on the entry, it keeps its place.
    have called : ∀ after, ReflTransGen Asked entry.scorer after →
        Split order (unseen.reverse ++ ⟨entry.rank, after⟩ :: seen) quorum.heap.entries.toList := by
      intro after calls
      have entryContinues : Continues entry ⟨entry.rank, after⟩ := ⟨rfl, calls⟩
      refine split.continues (List.rel_append (Continues.forall₂_refl _) (.cons entryContinues ?_))
        (Continues.forall₂_refl _)
      exact Continues.forall₂_refl _
    have calls := reach_calls entry.scorer quorum.doc
    have stems := split.stems entry (by simp)
    rw [pollReserve]
    rcases reached : Cursor.reach entry.scorer quorum.doc with ⟨failure | landing, after⟩
    · rw [reached] at calls
      exact called after calls
    · rw [reached] at calls
      dsimp only
      split
      next here =>
        have asked := calls.tail (.score after)
        rcases answer : Scorer.score after with ⟨failure | value, scored⟩
        · rw [answer] at asked
          exact called scored asked
        · rw [answer] at asked
          exact ih _ _ (called scored asked)
      next apart =>
        have left : (decide (entry.doc < quorum.doc) && landing == noMoreDocs) = true →
            Left order entry.rank := by
          intro usedUp
          rw [Bool.and_eq_true, decide_eq_true_iff, beq_iff_eq] at usedUp
          have lags : Cursor.doc entry.scorer < quorum.doc := usedUp.1
          rw [Cursor.reach, if_pos lags] at reached
          exact stems.left (.advance quorum.doc) (by rw [reached, usedUp.2])
        have passed := passOver_split (called after calls) left
        split
        next stopped same =>
          rw [same] at passed
          have kept := called after calls
          rwa [← passed] at kept
        next later seenAfter same =>
          rw [same] at passed
          split
          next => exact passed
          next => exact ih later seenAfter passed

theorem evaluate_split {quorum : Quorum S σ} (split : IsSplit order quorum) :
    IsSplit order quorum.evaluate.2 := by
  have scored := CursorHeap.scoreMatches_split split quorum.heap.topDoc
  rw [evaluate]
  dsimp only
  split
  next => exact split
  next =>
    rcases answer : quorum.heap.scoreMatches quorum.heap.topDoc with ⟨failure | values, heap⟩
    · rw [answer] at scored
      exact scored
    · rw [answer] at scored
      refine pollReserve_split _ _ [] ?_
      rwa [List.reverse_reverse, List.append_nil]

theorem moveWhile_split {move : σ → Step σ DocId} (isMove : IsMove move) (behind : DocId → Bool)
    (moves : Nat) (quorum : Quorum S σ) (split : IsSplit order quorum) :
    IsSplit order (moveWhile move behind moves quorum).2 := by
  induction moves generalizing quorum with
  | zero => exact split
  | succ moves ih =>
    have moved := CursorHeap.moveTop_split split isMove
    rw [moveWhile]
    split
    next =>
      rcases answer : quorum.heap.moveTop move with ⟨failure | stays, heap⟩
      · rw [answer] at moved
        exact moved
      · rw [answer] at moved
        cases stays with
        | true => exact ih _ moved
        | false =>
          dsimp only
          split
          next => exact moved
          next => exact ih _ moved
    next => exact split

theorem search_split (candidates : Nat) (quorum : Quorum S σ) (split : IsSplit order quorum) :
    IsSplit order (search candidates quorum).2 := by
  induction candidates generalizing quorum with
  | zero => exact split
  | succ candidates ih =>
    have moved := moveWhile_split .next (· == quorum.doc) quorum.heap.moveBound quorum split
    rw [search]
    split
    next answer => rwa [answer] at moved
    next answer => rwa [answer] at moved
    next answer =>
      rw [answer] at moved
      have evaluated := evaluate_split moved
      split
      next answer => rwa [answer] at evaluated
      next answer =>
        rw [answer] at evaluated
        split
        next => exact evaluated
        next => exact ih _ evaluated

theorem advance_split {quorum : Quorum S σ} (split : IsSplit order quorum) (target : DocId) :
    IsSplit order (quorum.advance target).2 := by
  have moved := moveWhile_split (.advance target) (decide <| · < target) quorum.heap.moveBound quorum split
  rw [advance]
  split
  next => exact split
  next =>
    split
    next answer => rwa [answer] at moved
    next answer => rwa [answer] at moved
    next answer =>
      rw [answer] at moved
      have evaluated := evaluate_split moved
      split
      next answer => rwa [answer] at evaluated
      next answer =>
        rw [answer] at evaluated
        split
        next => exact evaluated
        next => exact search_split moveLimit _ evaluated

theorem reaches_split {start state : Quorum S σ} (split : IsSplit order start)
    (reached : Reaches start state) : IsSplit order state := by
  induction reached with
  | refl => exact split
  | tail _ step ih =>
    cases step with
    | next live => exact search_split moveLimit _ ih
    | advance target beyond inside => exact advance_split ih target
    | score placed => exact ih
    | tally placed => exact ih

omit [Score S] in
theorem pairwise_sort_cost (scorers : List σ) :
    (StableSort.sort (fun a b => decide (Cursor.cost b ≤ Cursor.cost a)) scorers).Pairwise
      fun costlier cheaper => Cursor.cost cheaper ≤ Cursor.cost costlier := by
  have sorted : (StableSort.sort (fun a b => decide (Cursor.cost b ≤ Cursor.cost a)) scorers).Pairwise
      fun a b => decide (Cursor.cost b ≤ Cursor.cost a) = true := by
    apply StableSort.pairwise_sort
    · intro a b
      rw [decide_eq_true_iff, decide_eq_true_iff]
      exact UInt64.le_total (Cursor.cost b) (Cursor.cost a)
    · intro a b c first second
      rw [decide_eq_true_iff] at *
      exact UInt64.le_trans second first
  exact sorted.imp fun holds => of_decide_eq_true holds

/-- Wherever a walk has led a quorum that is not used up, its reserve is one part short of the minimum and
its heap has the other parts, of which there are some. Together they hold each part once that has not been
found used up. The reserve holds the costliest of these, in order. -/
theorem reserve_holds_costliest_survivors {meanings : List (Meaning S)} {scorers : List σ}
    (denote : List.Forall₂ (fun meaning scorer => Denotes scorer meaning) meanings scorers) {minimum : Nat}
    (several : 2 ≤ scorers.length) (positive : 0 < minimum) (inside : minimum ≤ scorers.length) :
    ∃ (made : Quorum S σ) (order : List σ), (ofList scorers minimum).outcome = .ok made ∧ order.Perm scorers ∧
      order.Pairwise (fun costlier cheaper => Cursor.cost cheaper ≤ Cursor.cost costlier) ∧
      ∀ start ∈ [made, made.thorough, made.counted, made.thorough.counted], ∀ state, Reaches start state →
        Cursor.doc state ≠ noMoreDocs →
        state.reserve.length = minimum - 1 ∧
        state.heap.size = state.live - (minimum - 1) ∧ 1 ≤ state.heap.size ∧
        (state.reserve.map (·.rank)).Pairwise (· < ·) ∧
        (∀ reserved ∈ state.reserve, ∀ entry ∈ state.heap.entries.toList, reserved.rank < entry.rank) ∧
        (∀ part ∈ state.reserve ++ state.heap.entries.toList, part.doc ≠ noMoreDocs ∧ Stems order part) ∧
        ∃ gone : List Nat, gone.length + state.live = scorers.length ∧
          (state.reserve.map (·.rank) ++ state.heap.entries.toList.map (·.rank) ++ gone).Perm
            (List.range scorers.length) ∧
          ∀ rank ∈ gone, ∃ scorer meaning, order[rank]? = some scorer ∧ FoundUsedUp scorer ∧
            Denotes scorer meaning ∧ ∀ doc ∈ meaning.docs, doc < Cursor.doc state := by
  have sorted := StableSort.sort_perm (fun a b : σ => decide (Cursor.cost b ≤ Cursor.cost a)) scorers
  obtain ⟨labels, -, each⟩ := forall₂_sort (fun a b : σ => decide (Cursor.cost b ≤ Cursor.cost a)) denote
  obtain ⟨cost, same, -⟩ := exists_outcome (S := S) several positive inside
  refine ⟨_, _, same, sorted, pairwise_sort_cost scorers, ?_⟩
  generalize StableSort.sort (fun a b : σ => decide (Cursor.cost b ≤ Cursor.cost a)) scorers = order
    at sorted each ⊢
  intro start listed state reached live
  have begins : start.doc = unpositioned ∧ start.minimum = minimum ∧
      Ready labels unpositioned unpositioned start ∧ IsSplit order start := by
    have split := (Split.ofList order (minimum - 1)).perm (CursorHeap.ofList_perm _).symm
    simp only [List.mem_cons, List.not_mem_nil, or_false] at listed
    rcases listed with rfl | rfl | rfl | rfl
    all_goals
      refine ⟨rfl, rfl, ?_, split⟩
      exact ofList_ready each positive (inside.trans sorted.length_eq.ge) rfl rfl rfl rfl
  obtain ⟨fresh, minimumSame, ready, split⟩ := begins
  have sound := (sound_invariant labels start.minimum start.counting).holds_of_reaches
    (sound_of_ready fresh ready) reached
  have minimumHere : state.minimum = minimum := (congrArg Prod.fst sound.settings).trans minimumSame
  have readyHere : Ready labels state.doc state.doc state := sound.ready live
  have splitHere : Split order state.reserve state.heap.entries.toList := reaches_split split reached
  have reserved := readyHere.reserved
  have counted := readyHere.live
  have enough := readyHere.enough
  rw [Array.length_toList] at counted
  obtain ⟨gone, complete, allLeft⟩ := splitHere.complete
  have total := complete.length_eq
  simp only [List.length_append, List.length_map, List.length_range, Array.length_toList] at total
  refine ⟨by omega, by simp only [CursorHeap.size]; omega, by simp only [CursorHeap.size]; omega,
    splitHere.increasing, fun part member entry inHeap => ?_, fun part member => ⟨?_, splitHere.stems part member⟩,
    gone, by rw [← sorted.length_eq]; omega, sorted.length_eq ▸ complete, fun rank member => ?_⟩
  · exact splitHere.before part.rank (List.mem_map_of_mem member) entry.rank (List.mem_map_of_mem inHeap)
  · exact readyHere.pool.live part (List.perm_append_comm.mem_iff.mp member)
  · obtain ⟨scorer, found, usedUp⟩ := allLeft rank member
    obtain ⟨bound, here⟩ := List.getElem?_eq_some_iff.mp found
    have labelBound : rank < labels.length := each.length_eq ▸ bound
    have denotes : Denotes order[rank] labels[rank] := each.get labelBound bound
    -- A rank that has left is not among those that are still held.
    have absent : rank ∉ (state.heap.entries.toList ++ state.reserve).map (·.rank) := by
      have apart := (List.nodup_append.mp (complete.nodup_iff.mpr List.nodup_range)).2.2
      intro held
      rw [List.map_append] at held
      exact apart rank (List.perm_append_comm.mem_iff.mp held) rank member rfl
    refine ⟨scorer, labels[rank], found, usedUp, here ▸ denotes, fun doc has => ?_⟩
    refine readyHere.pool.lost rank absent doc ?_
    rwa [Meaning.ofRank, List.getD_eq_getElem _ _ labelBound]

/-- Three terms, of which two have to match. Once the quorum stands on 2, the term of the document 1 has
left the heap, and the one with most documents is still the reserve. -/
theorem three_terms_lose_the_cheapest :
    ∃ quorum : Quorum Float32 (TermScorer PostingList Float32),
      (ofList [⟨.fresh [.ofDoc 1], .constant Score.one Score.one⟩,
        ⟨.fresh [.ofDoc 2, .ofDoc 5, .ofDoc 9], .constant Score.one Score.one⟩,
        ⟨.fresh [.ofDoc 2, .ofDoc 5], .constant Score.one Score.one⟩] 2).outcome = .ok quorum ∧
      (Cursor.next quorum).2.doc = 2 ∧ (Cursor.next quorum).2.live = 2 ∧
      (Cursor.next quorum).2.reserve.length = 1 ∧ (Cursor.next quorum).2.heap.size = 1 := by
  have one : Posting.Accepted [.ofDoc 1] := ⟨rfl, by decide⟩
  have three : Posting.Accepted [.ofDoc 2, .ofDoc 5, .ofDoc 9] := ⟨rfl, by decide⟩
  have two : Posting.Accepted [.ofDoc 2, .ofDoc 5] := ⟨rfl, by decide⟩
  obtain ⟨quorum, order, same, -, -, walk⟩ := reserve_holds_costliest_survivors (S := Float32)
    (.cons (TermScorer.denotes_of_ofPostings rfl one (.constant Score.one Score.one))
      (.cons (TermScorer.denotes_of_ofPostings rfl three (.constant Score.one Score.one))
        (.cons (TermScorer.denotes_of_ofPostings rfl two (.constant Score.one Score.one)) .nil)))
    (by decide : 2 ≤ 3) two_pos (by decide : 2 ≤ 3)
  have landed : quorum.doc = unpositioned ∧ (Cursor.next quorum).2.doc = 2 ∧ (Cursor.next quorum).2.live = 2 := by
    cases same
    decide +kernel
  obtain ⟨fresh, here, live⟩ := landed
  have moved : Reaches quorum (Cursor.next quorum).2 := .single (.next quorum (by rw [cursor_doc, fresh]; decide))
  obtain ⟨reserved, others, -⟩ := walk quorum List.mem_cons_self _ moved (by rw [cursor_doc, here]; decide)
  exact ⟨quorum, same, here, live, reserved, by omega⟩

end Quorum

end PostingQuery
