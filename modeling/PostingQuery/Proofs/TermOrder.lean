import Mathlib
import PostingQuery.Proofs.Gather
import PostingQuery.Proofs.RepeatedTerms

/-!
The order of the terms of a sloppy phrase. Terms with different places are told apart by their places, so nothing
that is measured in a document depends on the order in which the terms are listed: a walk over terms that are
numbered in another way is the same walk with other numbers.
-/

namespace PostingQuery

variable {n m : Nat}

def renumber {α : Type} (number : Fin n ≃ Fin m) (elements : Vector α n) : Vector α m :=
  .ofFn fun j => elements.get (number.symm j)

section Renumber

variable {α : Type} (number : Fin n ≃ Fin m) (elements : Vector α n)

theorem finRange_perm : (List.finRange m).Perm ((List.finRange n).map number) :=
  (List.perm_ext_iff_of_nodup (List.nodup_finRange m) ((List.nodup_finRange n).map number.injective)).mpr
    fun j => by simpa using ⟨number.symm j, number.apply_symm_apply j⟩

@[simp]
theorem get_renumber (i : Fin n) : (renumber number elements).get (number i) = elements.get i := by
  simp [renumber]

theorem eq_renumber {others : Vector α m} (same : ∀ i, others.get (number i) = elements.get i) :
    others = renumber number elements := by
  refine Vector.ext fun j inside => ?_
  have here := same (number.symm ⟨j, inside⟩)
  rw [Equiv.apply_symm_apply] at here
  simpa [renumber, Vector.get_eq_getElem] using here

theorem renumber_set (i : Fin n) (element : α) :
    (renumber number elements).set (number i) element (number i).isLt =
      renumber number (elements.set i element i.isLt) := by
  refine eq_renumber number _ fun j => ?_
  rw [SloppyWalk.get_set, SloppyWalk.get_set, get_renumber]
  simp only [number.injective.eq_iff]

theorem toList_renumber_perm : (renumber number elements).toList.Perm elements.toList := by
  rw [SloppyWalk.toList_eq_map_get, SloppyWalk.toList_eq_map_get]
  refine ((finRange_perm number).map _).trans (.of_eq ?_)
  rw [List.map_map]
  exact List.map_congr_left fun i _ => get_renumber number elements i

end Renumber

namespace QueuedTerm

def renumber (number : Fin n ≃ Fin m) (queued : QueuedTerm n) : QueuedTerm m :=
  ⟨queued.shifted, queued.offset, number queued.index⟩

theorem before_iff {a b : QueuedTerm n} : a.before b = true ↔ a.shifted < b.shifted ∨
    (a.shifted = b.shifted ∧ (a.offset < b.offset ∨ (a.offset = b.offset ∧ a.index ≤ b.index))) := by
  simp [before]

theorem before_total (a b : QueuedTerm n) : a.before b = true ∨ b.before a = true := by
  simp only [before_iff]
  omega

theorem before_trans {a b c : QueuedTerm n} (first : a.before b = true) (second : b.before c = true) :
    a.before c = true := by
  simp only [before_iff] at *
  omega

theorem before_antisymm {a b : QueuedTerm n} (first : a.before b = true) (second : b.before a = true) : a = b := by
  simp only [before_iff] at first second
  obtain ⟨shifted, offset, index⟩ := a
  obtain ⟨otherShifted, otherOffset, otherIndex⟩ := b
  simp only [mk.injEq] at *
  omega

end QueuedTerm

namespace SloppyWalk

variable {P S : Type} {place : Fin n → Int} {terms : Vector (SloppyTerm P) n} {walk : SloppyWalk P S n}

structure Seated (place : Fin n → Int) (terms : Vector (SloppyTerm P) n) (queue : List (QueuedTerm n)) : Prop where
  terms : ∀ i : Fin n, (terms.get i).offset = place i
  queue : ∀ queued ∈ queue, queued.offset = place queued.index

def renumber (number : Fin n ≃ Fin m) (walk : SloppyWalk P S n) : SloppyWalk P S m :=
  ⟨PostingQuery.renumber number walk.terms, walk.largest, walk.queue.map (·.renumber number), walk.freq,
    walk.occurrences⟩

abbrev renumbered (number : Fin n ≃ Fin m) (groups : List (List (Fin n))) : List (List (Fin m)) :=
  groups.map (·.map number)

section Look

variable (number : Fin n ≃ Fin m)

theorem collision_renumber (groups : List (List (Fin n))) (terms : Vector (SloppyTerm P) n) (i : Fin n) :
    collision (renumbered number groups) (PostingQuery.renumber number terms) (number i) =
      (collision groups terms i).map number := by
  have holder : (renumbered number groups).find? (·.contains (number i)) =
      (groups.find? (·.contains i)).map (·.map number) := by
    rw [renumbered, List.find?_map]
    congr 2
    funext group
    simp
  unfold collision
  rw [holder]
  cases groups.find? (·.contains i) with
  | none => rfl
  | some group =>
    simp only [Option.map_some, getElem_eq_get, get_renumber, List.find?_map]
    congr 2
    funext other
    simp

theorem lesser_renumber (terms : Vector (SloppyTerm P) n) (a b : Fin n) :
    lesser (PostingQuery.renumber number terms) (number a) (number b) = number (lesser terms a b) := by
  simp only [lesser, getElem_eq_get, get_renumber]
  split
  · rfl
  · split
    · rfl
    · rfl

theorem nextShifted_renumber (queue : List (QueuedTerm n)) :
    nextShifted (queue.map (·.renumber number)) = nextShifted queue := by
  cases queue with
  | nil => rfl
  | cons first rest => rfl

end Look

section Queue

variable {queue : List (QueuedTerm n)} (number : Fin n ≃ Fin m)

theorem Seated.enqueue (seated : Seated place terms queue) (i : Fin n) :
    Seated place terms (enqueue terms queue i) := by
  refine ⟨seated.terms, fun queued member => ?_⟩
  rcases List.mem_cons.mp ((StableSort.insert_perm _ _ _).mem_iff.mp member) with rfl | listed
  · exact seated.terms i
  · exact seated.queue queued listed

theorem before_renumber (distinct : place.Injective) {a b : QueuedTerm n} (placeA : a.offset = place a.index)
    (placeB : b.offset = place b.index) : (a.renumber number).before (b.renumber number) = a.before b := by
  rw [Bool.eq_iff_iff, QueuedTerm.before_iff, QueuedTerm.before_iff]
  refine or_congr_right (and_congr_right fun _ => or_congr_right (and_congr_right fun level => ?_))
  have same : a.index = b.index := distinct (placeA.symm.trans (level.trans placeB))
  change number a.index ≤ number b.index ↔ _
  rw [same]
  simp

theorem enqueue_renumber (distinct : place.Injective) (seated : Seated place terms queue) (i : Fin n) :
    enqueue (PostingQuery.renumber number terms) (queue.map (·.renumber number)) (number i) =
      (enqueue terms queue i).map (·.renumber number) := by
  obtain ⟨entry, same⟩ : ∃ entry : QueuedTerm n, entry = ⟨(terms.get i).shifted, (terms.get i).offset, i⟩ := ⟨_, rfl⟩
  have offset : entry.offset = place entry.index := by
    rw [same]
    exact seated.terms i
  have renumberedEntry : entry.renumber number =
      ⟨((PostingQuery.renumber number terms).get (number i)).shifted,
        ((PostingQuery.renumber number terms).get (number i)).offset, number i⟩ := by
    rw [same, get_renumber]
    rfl
  unfold enqueue
  rw [getElem_eq_get, getElem_eq_get, ← same, ← renumberedEntry]
  have offsets := seated.queue
  -- The entry stays what it is while the queue is gone through, so what it was made of is forgotten.
  clear seated same renumberedEntry
  induction queue with
  | nil => rfl
  | cons first rest ih =>
    obtain ⟨head, tail⟩ := List.forall_mem_cons.mp offsets
    rw [List.map_cons, StableSort.insert, StableSort.insert, before_renumber number distinct offset head]
    split
    · rfl
    · rw [List.map_cons, ih tail]

theorem foldl_enqueue_renumber (distinct : place.Injective) (seated : Seated place terms queue)
    (places : List (Fin n)) :
    (places.map number).foldl (enqueue (PostingQuery.renumber number terms)) (queue.map (·.renumber number)) =
      (places.foldl (enqueue terms) queue).map (·.renumber number) := by
  induction places generalizing queue with
  | nil => rfl
  | cons i rest ih =>
    rw [List.map_cons, List.foldl_cons, List.foldl_cons, enqueue_renumber number distinct seated]
    exact ih (seated.enqueue i)

theorem Seated.foldl (seated : Seated place terms queue) (places : List (Fin n)) :
    Seated place terms (places.foldl (SloppyWalk.enqueue terms) queue) := by
  induction places generalizing queue with
  | nil => exact seated
  | cons i rest ih => exact ih (seated.enqueue i)

theorem requeue_renumber (distinct : place.Injective) (seated : Seated place walk.terms walk.queue) :
    (walk.renumber number).requeue = walk.requeue.renumber number := by
  have empty : Seated place walk.terms [] := ⟨seated.terms, fun _ member => absurd member List.not_mem_nil⟩
  have indexes : (walk.renumber number).queue.map (·.index) = (walk.queue.map (·.index)).map number := by
    change (walk.queue.map (·.renumber number)).map (·.index) = _
    rw [List.map_map, List.map_map]
    rfl
  have ordered := foldl_enqueue_renumber number distinct empty (walk.queue.map (·.index))
  rw [← indexes] at ordered
  unfold requeue
  change SloppyWalk.mk _ _ _ _ _ = _
  exact congrArg (fun queue => SloppyWalk.mk (PostingQuery.renumber number walk.terms) walk.largest queue walk.freq
    walk.occurrences) ordered

theorem Seated.requeue (seated : Seated place walk.terms walk.queue) :
    Seated place walk.requeue.terms walk.requeue.queue :=
  Seated.foldl ⟨seated.terms, fun _ member => absurd member List.not_mem_nil⟩ _

end Queue

section Read

variable [PostingSource P] (number : Fin n ≃ Fin m)

theorem readTerm_renumber (terms : Vector (SloppyTerm P) n) (i : Fin n) :
    readTerm (PostingQuery.renumber number terms) (number i) =
      (readTerm terms i).within (PostingQuery.renumber number) := by
  simp only [readTerm, getElem_eq_get, get_renumber, Step.within, renumber_set]

theorem skip_renumber (i : Fin n) (count : Nat) (terms : Vector (SloppyTerm P) n) :
    skip (number i) count (PostingQuery.renumber number terms) =
      (skip i count terms).within (PostingQuery.renumber number) := by
  induction count generalizing terms with
  | zero => rfl
  | succ count ih =>
    rw [skip, skip, readTerm_renumber]
    obtain ⟨outcome, after⟩ := readTerm terms i
    rcases outcome with failure | (_ | _)
    · rfl
    · rfl
    · exact ih after

theorem spread_renumber (counts : List (Fin n × Nat)) (terms : Vector (SloppyTerm P) n) :
    spread (counts.map (Prod.map number id)) (PostingQuery.renumber number terms) =
      (spread counts terms).within (PostingQuery.renumber number) := by
  induction counts generalizing terms with
  | nil => rfl
  | cons first rest ih =>
    obtain ⟨i, count⟩ := first
    rw [List.map_cons, Prod.map_apply, id_eq, spread, spread, skip_renumber]
    obtain ⟨outcome, after⟩ := skip i count terms
    rcases outcome with failure | (_ | _)
    · rfl
    · rfl
    · exact ih after

theorem read_offset (term : SloppyTerm P) : term.read.2.offset = term.offset := by
  unfold SloppyTerm.read
  split
  · rfl
  · split
    · rfl
    · split
      · rfl
      · rfl

theorem Seated.readTerm {queue : List (QueuedTerm n)} (seated : Seated place terms queue) (i : Fin n) :
    Seated place (readTerm terms i).2 queue := by
  refine ⟨fun j => ?_, seated.queue⟩
  change (Vector.get (terms.set i (terms.get i).read.2) j).offset = place j
  rw [get_set]
  split
  next same =>
    rw [read_offset, ← same]
    exact seated.terms i
  next => exact seated.terms j

theorem move_renumber (walk : SloppyWalk P S n) (i : Fin n) :
    (walk.renumber number).move (number i) = (walk.move i).within (renumber number) := by
  have reads : SloppyWalk.readTerm (walk.renumber number).terms (number i) = _ := readTerm_renumber number walk.terms i
  rw [move, move, reads]
  obtain ⟨outcome, after⟩ := SloppyWalk.readTerm walk.terms i
  rcases outcome with failure | (_ | _)
  · rfl
  · rfl
  · simp only [Step.within, getElem_eq_get, get_renumber]
    rfl

theorem Seated.move (seated : Seated place walk.terms walk.queue) (i : Fin n) :
    Seated place (walk.move i).2.terms (walk.move i).2.queue := by
  have after := seated.readTerm i
  rw [SloppyWalk.move]
  generalize SloppyWalk.readTerm walk.terms i = read at after ⊢
  obtain ⟨outcome, terms⟩ := read
  rcases outcome with failure | (_ | _)
  · exact after
  · exact after
  · exact after

theorem separate_renumber (distinct : place.Injective) (groups : List (List (Fin n))) (first : Fin n) (reads : Nat)
    (walk : SloppyWalk P S n) (seated : Seated place walk.terms walk.queue) (current : Fin n) (disturbed : Bool) :
    separate (renumbered number groups) (number first) reads (walk.renumber number) (number current) disturbed =
        (separate groups first reads walk current disturbed).within (renumber number) ∧
      Seated place (separate groups first reads walk current disturbed).2.terms
        (separate groups first reads walk current disturbed).2.queue := by
  -- The places go along with the walk: the queue is made anew behind the last collision, which needs them.
  induction reads generalizing walk current disturbed with
  | zero => exact ⟨rfl, seated⟩
  | succ reads ih =>
    have collides : collision (renumbered number groups) (walk.renumber number).terms (number current) =
        (collision groups walk.terms current).map number := collision_renumber number groups walk.terms current
    rw [separate, separate, collides]
    cases collision groups walk.terms current with
    | none =>
      cases disturbed with
      | false => exact ⟨rfl, seated⟩
      | true => exact ⟨congrArg (Prod.mk (Except.ok true)) (requeue_renumber number distinct seated), seated.requeue⟩
    | some other =>
      have chosen : lesser (walk.renumber number).terms (number current) (number other) =
          number (lesser walk.terms current other) := lesser_renumber number walk.terms current other
      simp only [Option.map_some, chosen, move_renumber]
      have moved := seated.move (lesser walk.terms current other)
      generalize lesser walk.terms current other = moving at moved
      generalize walk.move moving = move at moved
      obtain ⟨outcome, after⟩ := move
      rcases outcome with failure | (_ | _)
      · exact ⟨rfl, moved⟩
      · exact ⟨rfl, moved⟩
      · have calm : (number moving != number first) = (moving != first) := by
          rw [Bool.eq_iff_iff, bne_iff_ne, bne_iff_ne, number.injective.ne_iff]
        simp only [Step.within, calm]
        exact ih after moved moving (disturbed || moving != first)

omit [PostingSource P] in
theorem readBound_renumber (walk : SloppyWalk P S n) : (walk.renumber number).readBound = walk.readBound := by
  have commutes : LeftCommutative fun (term : SloppyTerm P) (readings : Nat) => term.unread + readings :=
    ⟨fun a b readings => Nat.add_left_comm a.unread b.unread readings⟩
  exact (toList_renumber_perm number walk.terms).foldr_eq 1

variable [Score S] (relevance : Relevance S) (slop : Int)

omit [PostingSource P] in
theorem judge_renumber (walk : SloppyWalk P S n) (span : Int) :
    (walk.renumber number).judge relevance slop span = (walk.judge relevance slop span).renumber number := by
  unfold judge
  split
  · rfl
  · rfl

omit [PostingSource P] in
theorem Seated.judge (seated : Seated place walk.terms walk.queue) (span : Int) :
    Seated place (walk.judge relevance slop span).terms (walk.judge relevance slop span).queue := by
  unfold SloppyWalk.judge
  split
  · exact seated
  · exact seated

theorem run_renumber (distinct : place.Injective) (groups : List (List (Fin n))) (reads : Nat)
    (walk : SloppyWalk P S n) (seated : Seated place walk.terms walk.queue) (current : Fin n) (span next : Int) :
    run (renumbered number groups) relevance slop reads (walk.renumber number) (number current) span next =
      (run groups relevance slop reads walk current span next).within (renumber number) := by
  induction reads generalizing walk current span next with
  | zero => rfl
  | succ reads ih =>
    rw [run, run, move_renumber]
    have moved := seated.move current
    generalize walk.move current = move at moved
    obtain ⟨outcome, after⟩ := move
    rcases outcome with failure | (_ | _)
    · rfl
    · simp only [Step.within, judge_renumber]
    · obtain ⟨parts, partedSeated⟩ := separate_renumber number distinct groups current after.readBound after moved
        current false
      simp only [Step.within, readBound_renumber] at parts ⊢
      rw [parts]
      generalize separate groups current after.readBound after current false = separation at partedSeated
      obtain ⟨outcome, parted⟩ := separation
      rcases outcome with failure | (_ | _)
      · rfl
      · simp only [judge_renumber]
      · have judged := partedSeated.judge relevance slop span
        have waiting : enqueue ((parted.judge relevance slop span).renumber number).terms
            ((parted.judge relevance slop span).renumber number).queue (number current) = _ :=
          enqueue_renumber number distinct judged current
        have shifted : ((parted.renumber number).terms.get (number current)).shifted =
            (parted.terms.get current).shifted := congrArg (·.shifted) (get_renumber number parted.terms current)
        simp only [judge_renumber, getElem_eq_get, shifted]
        -- Beyond the next waiting term it is that one's turn, otherwise the same term is moved once more.
        split
        · rw [waiting]
          have seatedAfter := judged.enqueue current
          cases entries : enqueue (parted.judge relevance slop span).terms (parted.judge relevance slop span).queue
              current with
          | nil => simp only [List.map_nil]
          | cons first queue =>
            rw [entries] at seatedAfter
            have popped : Seated place (parted.judge relevance slop span).terms queue :=
              ⟨seatedAfter.terms, fun queued member => seatedAfter.queue queued (List.mem_cons_of_mem first member)⟩
            have head : ((parted.judge relevance slop span).renumber number).terms.get (first.renumber number).index =
                (parted.judge relevance slop span).terms.get first.index := get_renumber number _ first.index
            simp only [List.map_cons, nextShifted_renumber, head]
            exact ih { parted.judge relevance slop span with queue } popped first.index _ _
        · exact ih parted partedSeated current _ _

theorem complete_renumber (distinct : place.Injective) (groups : List (List (Fin n))) (walk : SloppyWalk P S n)
    (seated : Seated place walk.terms walk.queue) :
    (walk.renumber number).complete (renumbered number groups) relevance slop =
      (walk.complete groups relevance slop).within (renumber number) := by
  obtain ⟨terms, largest, queue, freq, occurrences⟩ := walk
  cases queue with
  | nil => rfl
  | cons first queue =>
    have popped : Seated place terms queue :=
      ⟨seated.terms, fun queued member => seated.queue queued (List.mem_cons_of_mem first member)⟩
    have head : (PostingQuery.renumber number terms).get (first.renumber number).index = terms.get first.index :=
      get_renumber number terms first.index
    rw [complete, complete, readBound_renumber]
    change run _ _ _ _ (renumber number ⟨terms, largest, queue, freq, occurrences⟩) (number first.index)
      (largest - ((PostingQuery.renumber number terms).get (first.renumber number).index).shifted)
      (nextShifted (queue.map (·.renumber number))) = _
    rw [head, nextShifted_renumber]
    exact run_renumber number relevance slop distinct groups _ _ popped _ _ _

end Read

section Start

variable {streams : Vector (SloppyTerm PositionStream) n} {last other : Nat}

theorem Seated.begin (seats : ∀ i : Fin n, (streams.get i).offset = place i) (i : Fin n) :
    (streams.get i).begin.2.offset = place i := by
  rw [← seats i]
  unfold SloppyTerm.begin
  split
  · rfl
  · exact read_offset _

theorem Seated.skip (seated : Seated place streams []) (i : Fin n) (count : Nat) :
    Seated place (skip i count streams).2 [] := by
  induction count generalizing streams with
  | zero => exact seated
  | succ count ih =>
    have after := seated.readTerm i
    rw [SloppyWalk.skip]
    generalize SloppyWalk.readTerm streams i = read at after
    obtain ⟨outcome, terms⟩ := read
    rcases outcome with failure | (_ | _)
    · exact after
    · exact after
    · exact ih after

theorem Seated.spread (seated : Seated place streams []) (counts : List (Fin n × Nat)) :
    Seated place (spread counts streams).2 [] := by
  induction counts generalizing streams with
  | nil => exact seated
  | cons first rest ih =>
    have after := seated.skip first.1 first.2
    rw [SloppyWalk.spread]
    generalize SloppyWalk.skip first.1 first.2 streams = skipped at after
    obtain ⟨outcome, terms⟩ := skipped
    rcases outcome with failure | (_ | _)
    · exact after
    · exact after
    · exact ih after

theorem beginTerms_streams (begins : ∀ i : Fin n, (streams.get i).begin.1 = .ok ()) :
    ∃ placed, beginTerms (List.finRange n) streams = (.ok (), placed) ∧
      ∀ i : Fin n, placed.get i = (streams.get i).begin.2 := by
  let fresh (i : Fin n) (term mirror : SloppyTerm PositionStream) : Prop :=
    term = streams.get i ∧ mirror = streams.get i
  let alike (i : Fin n) (_ mirror : SloppyTerm PositionStream) : Prop := mirror = (streams.get i).begin.2
  have each : ∀ i term mirror, fresh i term mirror → True ∧ mirror.begin.1 = .ok () ∧
      term.begin.Agrees (alike i) (fun _ => False ∧ True) mirror.begin := by
    rintro i _ _ ⟨rfl, rfl⟩
    exact ⟨trivial, begins i, .same rfl⟩
  rcases beginTerms_agrees (fun _ _ _ _ => trivial) each (List.finRange n) (List.nodup_finRange _)
      (fun i _ => ⟨rfl, rfl⟩) (fun i unlisted => absurd (List.mem_finRange i) unlisted) with
    ⟨after, placed, began, same, all⟩ | ⟨failure, after, -, never, -⟩
  · exact ⟨placed, same, all⟩
  · exact never.elim

variable [Score S] {streams : Vector (SloppyTerm PositionStream) (last + 1)} {place : Fin (last + 1) → Int}

omit [Score S] in
theorem largest_renumber (number : Fin (last + 1) ≃ Fin (other + 1))
    (terms : Vector (SloppyTerm PositionStream) (last + 1)) :
    ((PostingQuery.renumber number terms).toList.map (·.shifted)).foldl max
        (((PostingQuery.renumber number terms).toList.map (·.shifted)).headD 0) =
      (terms.toList.map (·.shifted)).foldl max ((terms.toList.map (·.shifted)).headD 0) := by
  have same : (Set.range fun j : Fin (other + 1) => ((PostingQuery.renumber number terms).get j).shifted) =
      Set.range fun i : Fin (last + 1) => (terms.get i).shifted := by
    rw [← number.surjective.range_comp]
    congr 1
    funext i
    exact congrArg (·.shifted) (get_renumber number terms i)
  have greatest := SloppyShape.isGreatest_shifted (PostingQuery.renumber number terms)
  rw [same] at greatest
  exact greatest.unique (SloppyShape.isGreatest_shifted terms)

omit [Score S] in
theorem queue_renumber (number : Fin n ≃ Fin m) {place : Fin n → Int} (distinct : place.Injective)
    {terms : Vector (SloppyTerm PositionStream) n} (seated : Seated place terms []) :
    (List.finRange m).foldl (enqueue (PostingQuery.renumber number terms)) [] =
      ((List.finRange n).foldl (enqueue terms) []).map (·.renumber number) := by
  have sorts : ∀ (others : Vector (SloppyTerm PositionStream) m) (places : List (Fin m)),
      places.foldl (enqueue others) [] =
        StableSort.sort QueuedTerm.before (places.reverse.map fun i => ⟨(others.get i).shifted, (others.get i).offset, i⟩) := by
    intro others places
    rw [StableSort.sort, List.foldr_map, List.foldr_reverse]
    rfl
  rw [← foldl_enqueue_renumber number distinct seated, List.map_nil, sorts, sorts]
  refine StableSort.sort_congr ?_ QueuedTerm.before_total (fun _ _ _ => QueuedTerm.before_trans)
    fun _ _ => QueuedTerm.before_antisymm
  exact ((List.reverse_perm _).trans ((finRange_perm number).trans (List.reverse_perm _).symm)).map _

theorem start_renumber (number : Fin (last + 1) ≃ Fin (other + 1)) (distinct : place.Injective)
    (seats : ∀ i, (streams.get i).offset = place i) (begins : ∀ i, (streams.get i).begin.1 = .ok ())
    (groups : List (List (Fin (last + 1)))) :
    (∃ after, start (S := S) groups streams = (.ok none, after) ∧
      start (S := S) (renumbered number groups) (PostingQuery.renumber number streams) =
        (.ok none, PostingQuery.renumber number after)) ∨
    (∃ (walk : SloppyWalk PositionStream S (last + 1)) (after : Vector (SloppyTerm PositionStream) (last + 1)),
      start groups streams = (.ok (some walk), after) ∧
      start (renumbered number groups) (PostingQuery.renumber number streams) =
        (.ok (some (walk.renumber number)), PostingQuery.renumber number after) ∧
      Seated place walk.terms walk.queue) ∨
    ∃ failure after, start (S := S) groups streams = (.error failure, after) ∧
      start (S := S) (renumbered number groups) (PostingQuery.renumber number streams) =
        (.error failure, PostingQuery.renumber number after) := by
  obtain ⟨placed, began, each⟩ := beginTerms_streams begins
  have beginsAfter : ∀ j, ((PostingQuery.renumber number streams).get j).begin.1 = .ok () := by
    intro j
    have here := begins (number.symm j)
    rwa [← get_renumber number streams, Equiv.apply_symm_apply] at here
  obtain ⟨placedAfter, beganAfter, eachAfter⟩ := beginTerms_streams beginsAfter
  have same : placedAfter = PostingQuery.renumber number placed :=
    eq_renumber number placed fun i => by rw [eachAfter, get_renumber, each]
  subst same
  have seated : Seated place placed [] :=
    ⟨fun i => (each i).symm ▸ Seated.begin seats i, fun _ member => absurd member List.not_mem_nil⟩
  have counts : (renumbered number groups).flatMap List.zipIdx =
      (groups.flatMap List.zipIdx).map (Prod.map number id) := by
    rw [renumbered, List.flatMap_map, List.map_flatMap]
    congr 1
    funext group
    exact List.zipIdx_map ..
  have spreads := spread_renumber number (groups.flatMap List.zipIdx) placed
  rw [← counts] at spreads
  have seatedAfter := seated.spread (groups.flatMap List.zipIdx)
  simp only [start, began, beganAfter, spreads]
  generalize spread (groups.flatMap List.zipIdx) placed = spreading at seatedAfter
  obtain ⟨outcome, terms⟩ := spreading
  rcases outcome with failure | (_ | _)
  · exact .inr (.inr ⟨failure, terms, rfl, rfl⟩)
  · exact .inl ⟨terms, rfl, rfl⟩
  · refine .inr (.inl ⟨_, terms, rfl, ?_, seatedAfter.foldl (List.finRange (last + 1))⟩)
    simp only [Step.within, renumber, largest_renumber, queue_renumber number distinct seatedAfter]

end Start

end SloppyWalk

/-- What is measured in a document does not depend on how the terms are numbered, if their places differ. -/
theorem SloppyPhrase.measure_renumber {S : Type} [Score S] {last other : Nat}
    {streams : Vector (SloppyTerm PositionStream) (last + 1)} {place : Fin (last + 1) → Int}
    (number : Fin (last + 1) ≃ Fin (other + 1)) (distinct : place.Injective)
    (seats : ∀ i, (streams.get i).offset = place i) (begins : ∀ i, (streams.get i).begin.1 = .ok ())
    (groups : List (List (Fin (last + 1)))) (relevance : Relevance S) (slop : Int) (doc : DocId) (freq : S)
    (occurrences : Nat) :
    let before : SloppyPhrase PositionStream S := ⟨last, streams, groups, relevance, slop, doc, freq, occurrences⟩
    let after : SloppyPhrase PositionStream S := ⟨other, renumber number streams, SloppyWalk.renumbered number groups,
      relevance, slop, doc, freq, occurrences⟩
    after.measure.1 = before.measure.1 ∧ after.measure.2.occurrences = before.measure.2.occurrences := by
  intro before after
  rcases SloppyWalk.start_renumber (S := S) number distinct seats begins groups with ⟨terms, same, sameAfter⟩ |
    ⟨walk, terms, same, sameAfter, seated⟩ | ⟨failure, terms, same, sameAfter⟩
  · simp only [measure, before, after, same, sameAfter, and_self]
  · have completed := SloppyWalk.complete_renumber number relevance slop distinct groups walk seated
    simp only [measure, before, after, same, sameAfter, completed]
    exact ⟨rfl, rfl⟩
  · simp only [measure, before, after, same, sameAfter, and_self]

namespace SloppyPhrase

variable {P Q : Type} {terms : Vector (PhraseTerm P) n} {others : Vector (PhraseTerm Q) m}

theorem groupOf_of_distinct (distinct : Function.Injective fun i => (terms.get i).position) (text : String) :
    groupOf terms text =
      if ((List.finRange n).filter fun i => (terms.get i).text == some text).length < 2 then none
      else some (StableSort.sort (fun a b => decide ((terms.get a).position ≤ (terms.get b).position))
        ((List.finRange n).filter fun i => (terms.get i).text == some text)) := by
  have nodup := (List.nodup_finRange n).filter fun i => (terms.get i).text == some text
  unfold groupOf
  simp only [SloppyWalk.getElem_eq_get]
  generalize (List.finRange n).filter (fun i => (terms.get i).text == some text) = members at nodup
  cases members with
  | nil => rfl
  | cons first rest =>
    rw [List.nodup_cons] at nodup
    have all : (rest.filter fun i => (terms.get i).position != (terms.get first).position) = rest := by
      refine List.filter_eq_self.mpr fun i member => bne_iff_ne.mpr (distinct.ne fun same => ?_)
      exact nodup.1 (same ▸ member)
    simp only [all]
    cases rest with
    | nil => rfl
    | cons second more =>
      rw [if_neg (by simp)]

theorem repeatGroups_congr {others : Vector (PhraseTerm Q) n} (texts : ∀ i, (others.get i).text = (terms.get i).text)
    (positions : ∀ i, (others.get i).position = (terms.get i).position) : repeatGroups others = repeatGroups terms := by
  have group : groupOf others = groupOf terms := by
    funext text
    simp only [groupOf, SloppyWalk.getElem_eq_get, texts, positions]
  have listed : others.toList.filterMap (·.text) = terms.toList.filterMap (·.text) := by
    rw [SloppyWalk.toList_eq_map_get, SloppyWalk.toList_eq_map_get, List.filterMap_map, List.filterMap_map]
    exact congrArg (List.filterMap · _) (funext texts)
  rw [repeatGroups, repeatGroups, group, listed]

section Renumber

variable {number : Fin n ≃ Fin m} (texts : ∀ i, (others.get (number i)).text = (terms.get i).text)
include texts

theorem sort_texts_renumber :
    StableSort.sort (fun a b => decide (a ≤ b)) (others.toList.filterMap (·.text)).eraseDups =
      StableSort.sort (fun a b => decide (a ≤ b)) (terms.toList.filterMap (·.text)).eraseDups := by
  have listed : (others.toList.filterMap (·.text)).Perm (terms.toList.filterMap (·.text)) := by
    rw [SloppyWalk.toList_eq_map_get, SloppyWalk.toList_eq_map_get, List.filterMap_map, List.filterMap_map]
    refine ((finRange_perm number).filterMap _).trans (.of_eq ?_)
    rw [List.filterMap_map]
    exact congrArg (List.filterMap · _) (funext texts)
  refine StableSort.sort_key_congr Function.injective_id ?_
  refine (List.perm_ext_iff_of_nodup (nodup_eraseDups _) (nodup_eraseDups _)).mpr fun text => ?_
  rw [List.mem_eraseDups, List.mem_eraseDups, listed.mem_iff]

variable (distinct : Function.Injective fun i => (terms.get i).position)
  (positions : ∀ i, (others.get (number i)).position = (terms.get i).position)
include distinct positions

omit texts in
theorem injective_renumber : Function.Injective fun j => (others.get j).position := by
  intro j k same
  obtain ⟨i, rfl⟩ := number.surjective j
  obtain ⟨l, rfl⟩ := number.surjective k
  change (others.get (number i)).position = (others.get (number l)).position at same
  rw [positions, positions] at same
  exact congrArg number (distinct same)

theorem groupOf_renumber (text : String) : groupOf others text = (groupOf terms text).map (List.map number) := by
  have distinctAfter := injective_renumber distinct positions
  have members : ((List.finRange m).filter fun j => (others.get j).text == some text).Perm
      (((List.finRange n).filter fun i => (terms.get i).text == some text).map number) := by
    refine ((finRange_perm number).filter _).trans (.of_eq ?_)
    rw [List.filter_map]
    congr 2
    funext i
    exact congrArg (· == some text) (texts i)
  have sorted : StableSort.sort (fun a b => decide ((others.get a).position ≤ (others.get b).position))
      ((List.finRange m).filter fun j => (others.get j).text == some text) =
      (StableSort.sort (fun a b => decide ((terms.get a).position ≤ (terms.get b).position))
        ((List.finRange n).filter fun i => (terms.get i).text == some text)).map number := by
    have moved : (StableSort.sort (fun a b => decide ((terms.get a).position ≤ (terms.get b).position))
        ((List.finRange n).filter fun i => (terms.get i).text == some text)).map number =
        StableSort.sort (fun a b => decide ((others.get a).position ≤ (others.get b).position)) _ :=
      StableSort.map_sort fun a _ b _ => by rw [positions, positions]
    rw [moved]
    exact StableSort.sort_key_congr distinctAfter members
  rw [groupOf_of_distinct distinctAfter, groupOf_of_distinct distinct, members.length_eq, List.length_map, sorted]
  split
  · rfl
  · rfl

theorem repeatGroups_renumber : repeatGroups others = SloppyWalk.renumbered number (repeatGroups terms) := by
  have same := sort_texts_renumber texts
  simp only [repeatGroups, same, SloppyWalk.renumbered, List.map_filterMap]
  exact congrArg (List.filterMap · _) (funext (groupOf_renumber texts distinct positions))

end Renumber

end SloppyPhrase

end PostingQuery
