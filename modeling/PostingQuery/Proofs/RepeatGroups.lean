import Mathlib
import PostingQuery.Proofs.SloppyWalk

/-!
Repeat groups, whose members must not share a position of the document. Before the walk the members of a group
are spread over positions of their own, and each time a term moves on, those that it collides with are parted
again before a span is taken. So every span that is judged is one of a choice without collisions, even if the
terms that were parted waited in the queue.
-/

namespace PostingQuery

variable {n : Nat}

namespace SloppyWalk

open SloppyTerm

def Paired (groups : List (List (Fin n))) (i j : Fin n) : Prop :=
  i ≠ j ∧ ∃ group ∈ groups, i ∈ group ∧ j ∈ group

theorem Paired.symm {groups : List (List (Fin n))} {i j : Fin n} (paired : Paired groups i j) : Paired groups j i := by
  obtain ⟨other, group, listed, first, second⟩ := paired
  exact ⟨other.symm, group, listed, second, first⟩

theorem group_unique {groups : List (List (Fin n))} (distinct : groups.flatten.Nodup) {group other : List (Fin n)}
    (listed : group ∈ groups) (alsoListed : other ∈ groups) {i : Fin n} (member : i ∈ group) (also : i ∈ other) :
    group = other := by
  have symmetric : Std.Symm (List.Disjoint : List (Fin n) → List (Fin n) → Prop) :=
    ⟨fun _ _ disjoint => disjoint.symm⟩
  by_contra differ
  exact (List.nodup_flatten.mp distinct).2.forall listed alsoListed differ member also

theorem Paired.trans {groups : List (List (Fin n))} (distinct : groups.flatten.Nodup) {i j k : Fin n}
    (first : Paired groups i j) (second : Paired groups i k) (other : j ≠ k) : Paired groups j k := by
  obtain ⟨-, group, listed, here, member⟩ := first
  obtain ⟨-, another, alsoListed, alsoHere, alsoMember⟩ := second
  have same := group_unique distinct alsoListed listed alsoHere here
  exact ⟨other, group, listed, member, same ▸ alsoMember⟩

/-- One can choose a position of each term such that no two of them are further apart than the slop, and those
of a repeat group differ in the document. -/
def CloseApart (groups : List (List (Fin n))) (terms : Vector (SloppyTerm PositionStream) n) (slop : Int) : Prop :=
  ∃ choice : Fin n → Int, (∀ i, choice i ∈ (terms.get i).choices) ∧ (∀ i j, choice i - choice j ≤ slop) ∧
    ∀ i j, Paired groups i j → choice i + (terms.get i).offset ≠ choice j + (terms.get j).offset

def Apart (groups : List (List (Fin n))) (terms : Vector (SloppyTerm PositionStream) n) : Prop :=
  ∀ i j, Paired groups i j → (terms.get i).position ≠ (terms.get j).position

def ApartBut (groups : List (List (Fin n))) (current : Fin n) (terms : Vector (SloppyTerm PositionStream) n) : Prop :=
  ∀ i j, Paired groups i j → i ≠ current → j ≠ current → (terms.get i).position ≠ (terms.get j).position

variable {S : Type} {groups : List (List (Fin n))} {start terms others : Vector (SloppyTerm PositionStream) n}
  {walk : SloppyWalk PositionStream S n} {current first i : Fin n} {position slop span : Int} {unread : List Int}

theorem CloseApart.mono {more : Int} (close : CloseApart groups terms slop) (le : slop ≤ more) :
    CloseApart groups terms more := by
  obtain ⟨choice, listed, near, apart⟩ := close
  exact ⟨choice, listed, fun i j => (near i j).trans le, apart⟩

theorem ApartBut.congr (apart : ApartBut groups i terms) (elsewhere : ∀ j, i ≠ j → others.get j = terms.get j) :
    ApartBut groups i others := by
  intro j k paired first second
  rw [elsewhere j first.symm, elsewhere k second.symm]
  exact apart j k paired first second

theorem Apart.but (apart : Apart groups terms) (i : Fin n) : ApartBut groups i terms :=
  fun j k paired _ _ => apart j k paired

section Collisions

theorem apart_of_collision_none (distinct : groups.flatten.Nodup) (none : collision groups terms current = none)
    (apart : ApartBut groups current terms) : Apart groups terms := by
  have partners : ∀ j, Paired groups current j → (terms.get j).position ≠ (terms.get current).position := by
    rintro j ⟨other, group, listed, here, member⟩
    unfold collision at none
    cases found : groups.find? (·.contains current) with
    | none => simpa [here] using List.find?_eq_none.mp found group listed
    | some holder =>
      have holds : current ∈ holder := by simpa using List.find?_some found
      have same := group_unique distinct listed (List.mem_of_find?_eq_some found) here holds
      rw [found] at none
      have unequal := List.find?_eq_none.mp none j (same ▸ member)
      simp only [getElem_eq_get] at unequal
      simpa [other.symm] using unequal
  intro i j paired
  by_cases left : i = current
  · subst left
    exact (partners j paired).symm
  · by_cases right : j = current
    · subst right
      exact partners i paired.symm
    · exact apart i j paired left right

theorem collision_eq_some {other : Fin n} (found : collision groups terms current = some other) :
    Paired groups current other ∧ (terms.get other).position = (terms.get current).position := by
  unfold collision at found
  cases holder : groups.find? (·.contains current) with
  | none =>
    rw [holder] at found
    cases found
  | some group =>
    rw [holder] at found
    have meets := List.find?_some found
    have here : current ∈ group := by simpa using List.find?_some holder
    rw [Bool.and_eq_true, decide_eq_true_eq, beq_iff_eq] at meets
    exact ⟨⟨meets.1.symm, group, List.mem_of_find?_eq_some holder, here, List.mem_of_find?_eq_some found⟩, meets.2⟩

theorem lesser_eq_or (terms : Vector (SloppyTerm PositionStream) n) (a b : Fin n) :
    lesser terms a b = a ∨ lesser terms a b = b := by
  unfold lesser
  split
  · exact .inl rfl
  · split
    · exact .inl rfl
    · exact .inr rfl

/-- Of two terms that collide it does not matter which one is left aside, since they are on one position. -/
theorem ApartBut.of_collision (distinct : groups.flatten.Nodup) {other : Fin n}
    (apart : ApartBut groups current terms) (found : collision groups terms current = some other) :
    ApartBut groups (lesser terms current other) terms := by
  obtain ⟨paired, level⟩ := collision_eq_some found
  have partner : ∀ j, Paired groups current j → j ≠ other → (terms.get current).position ≠ (terms.get j).position := by
    intro j also differ
    rw [← level]
    exact apart other j (paired.trans distinct also differ.symm) paired.1.symm also.1.symm
  rcases lesser_eq_or terms current other with same | same
  · rwa [same]
  · rw [same]
    intro i j pair left right
    by_cases first : i = current
    · subst first
      exact partner j pair right
    · by_cases second : j = current
      · subst second
        exact (partner i pair.symm left).symm
      · exact apart i j pair first second

structure Continues (walk after : SloppyWalk PositionStream S n) : Prop where
  steady : Steady after.terms after.largest
  onward : Onward walk.terms after.terms
  waits : Waits after.terms after.queue (after.queue.map (·.index))
  places : (after.queue.map (·.index)).Perm (walk.queue.map (·.index))
  fewer : left after.terms ≤ left walk.terms

theorem continues_requeue (steady : Steady walk.terms walk.largest) : Continues walk walk.requeue := by
  have waits : Waits walk.terms walk.requeue.queue _ :=
    Waits.foldl ⟨.refl _, fun _ member => absurd member List.not_mem_nil, .nil⟩ (walk.queue.map (·.index))
  have places := waits.perm
  rw [List.map_nil, List.append_nil] at places
  exact ⟨steady, .refl _, ⟨.refl _, waits.shifted, waits.inOrder⟩, places.trans (List.reverse_perm _), le_rfl⟩

theorem separate_continues (groups : List (List (Fin n))) (reads : Nat) (walk : SloppyWalk PositionStream S n)
    (current : Fin n) (disturbed : Bool) (steady : Steady walk.terms walk.largest)
    (absent : first ∉ walk.queue.map (·.index))
    (waits : disturbed = false → Waits walk.terms walk.queue (walk.queue.map (·.index)))
    (enough : left walk.terms < reads) :
    (separate groups first reads walk current disturbed).Yields fun more after =>
      after.freq = walk.freq ∧ (more = true → Continues walk after) := by
  induction reads generalizing walk current disturbed with
  | zero => omega
  | succ reads ih =>
    rw [separate]
    cases collision groups walk.terms current with
    | none =>
      cases disturbed with
      | false => exact ⟨true, walk, rfl, rfl, fun _ => ⟨steady, .refl _, waits rfl, .refl _, le_rfl⟩⟩
      | true => exact ⟨true, walk.requeue, rfl, rfl, fun _ => continues_requeue steady⟩
    | some other =>
      obtain ⟨moving, chosen⟩ : ∃ moving, lesser walk.terms current other = moving := ⟨_, rfl⟩
      simp only [chosen]
      rcases move_yields walk steady.readable moving with
        ⟨-, same⟩ | ⟨position, unread, stream, same, readable, fewer⟩
      · exact ⟨false, walk, by simp only [same], rfl, fun more => absurd more Bool.false_ne_true⟩
      · have elsewhere : ∀ j, moving ≠ j →
            (walk.terms.set moving ((walk.terms.get moving).onto position unread) moving.isLt).get j =
              walk.terms.get j := fun j other => by rw [get_set, if_neg other]
        have onward := Onward.set stream
        have steadyAfter := steady.moved stream readable (by rw [get_set, if_pos rfl]) elsewhere
        have waitsAfter : (disturbed || moving != first) = false →
            Waits (walk.terms.set moving ((walk.terms.get moving).onto position unread) moving.isLt) walk.queue
              (walk.queue.map (·.index)) := by
          intro calm
          rw [Bool.or_eq_false_iff, bne_eq_false_iff_eq] at calm
          obtain ⟨calm, rfl⟩ := calm
          refine (waits calm).congr fun i member => ?_
          rw [elsewhere i fun same => absent (same ▸ member)]
        simp only [same]
        generalize walk.terms.set moving ((walk.terms.get moving).onto position unread) = terms
          at fewer onward steadyAfter waitsAfter
        obtain ⟨more, after, separated, freq, goesOn⟩ :=
          ih { walk with terms, largest := max walk.largest (position - (walk.terms.get moving).offset) }
            moving (disturbed || moving != first) steadyAfter absent waitsAfter (by
              change left terms < reads
              omega)
        refine ⟨more, after, separated, freq, fun enough => ?_⟩
        obtain ⟨steadyFinal, further, waitsFinal, places, fewerFinal⟩ := goesOn enough
        refine ⟨steadyFinal, onward.trans further, waitsFinal, places, ?_⟩
        change left after.terms ≤ left terms at fewerFinal
        omega

theorem separate_apart (distinct : groups.flatten.Nodup) (reads : Nat) (walk : SloppyWalk PositionStream S n)
    (current : Fin n) (disturbed : Bool) (readable : Readable walk.terms) (apart : ApartBut groups current walk.terms)
    {after : SloppyWalk PositionStream S n}
    (separated : separate groups first reads walk current disturbed = (.ok true, after)) :
    Apart groups after.terms := by
  induction reads generalizing walk current disturbed with
  | zero => cases separated
  | succ reads ih =>
    rw [separate] at separated
    cases found : collision groups walk.terms current with
    | none =>
      have parted := apart_of_collision_none distinct found apart
      rw [found] at separated
      cases disturbed with
      | false =>
        cases separated
        exact parted
      | true =>
        cases separated
        exact parted
    | some other =>
      have apartBut := apart.of_collision distinct found
      simp only [found] at separated
      rcases move_yields walk readable (lesser walk.terms current other) with
        ⟨-, same⟩ | ⟨position, unread, -, same, readableAfter, -⟩
      · simp only [same] at separated
        cases separated
      · simp only [same] at separated
        exact ih _ _ _ readableAfter (apartBut.congr fun j other => by rw [get_set, if_neg other]) separated

end Collisions

section Turn

variable {after : SloppyWalk PositionStream S n}

theorem OnTurn.goes_on (turn : OnTurn walk current span) (groups : List (List (Fin n))) :
    walk.move current = (.ok false, walk) ∨
    ∃ moved, walk.move current = (.ok true, moved) ∧ Readable moved.terms ∧
      (∀ i : Fin n, current ≠ i → moved.terms.get i = walk.terms.get i) ∧
      ∃ more after, separate groups current moved.readBound moved current false = (.ok more, after) ∧
        after.freq = walk.freq ∧ (more = true → Continues walk after ∧ left after.terms < left walk.terms) := by
  rcases move_yields walk turn.readable current with ⟨-, same⟩ | ⟨position, unread, stream, same, readable, fewer⟩
  · exact .inl same
  · have alone := turn.everyone.nodup_iff.mpr (List.nodup_finRange n)
    rw [List.nodup_cons] at alone
    have elsewhere : ∀ i : Fin n, current ≠ i →
        (walk.terms.set current ((walk.terms.get current).onto position unread) current.isLt).get i =
          walk.terms.get i := fun i other => by rw [get_set, if_neg other]
    have moved := turn.moved stream readable (by rw [get_set, if_pos rfl]) elsewhere
    have steady := turn.steady.moved stream readable (by rw [get_set, if_pos rfl]) elsewhere
    have onward := Onward.set stream
    refine .inr ⟨_, same, readable, elsewhere, ?_⟩
    generalize walk.terms.set current ((walk.terms.get current).onto position unread) = terms
      at moved steady onward fewer
    generalize max walk.largest (position - (walk.terms.get current).offset) = largest at moved steady
    obtain ⟨more, after, separated, freq, goesOn⟩ := separate_continues groups
      (SloppyWalk.readBound { walk with terms, largest }) { walk with terms, largest } current false steady
      alone.1 (fun _ => moved.waits) (by rw [readBound_eq]; exact Nat.lt_succ_self _)
    refine ⟨more, after, separated, freq, fun enough => ?_⟩
    obtain ⟨steadyAfter, parted, waits, places, fewerAfter⟩ := goesOn enough
    change left after.terms ≤ left terms at fewerAfter
    exact ⟨⟨steadyAfter, onward.trans parted, waits, places, by omega⟩, by omega⟩

theorem Continues.next_turn (continues : Continues walk after) (turn : OnTurn walk current span) :
    ∃ first queue, enqueue after.terms after.queue current = first :: queue ∧
      ∀ freq occurrences, OnTurn (S := S) ⟨after.terms, after.largest, queue, freq, occurrences⟩ first.index
        (after.largest - (after.terms.get first.index).shifted) := by
  have everyone := (continues.places.cons current).trans turn.everyone
  have waits := continues.waits.enqueue current
  cases queued : enqueue after.terms after.queue current with
  | nil =>
    rw [queued] at waits
    cases waits.perm.length_eq
  | cons first queue =>
    rw [queued] at waits
    exact ⟨first, queue, rfl, fun _ _ =>
      .of_waits continues.steady.readable continues.steady.sorted continues.steady.greatest waits everyone⟩

theorem Continues.stays (continues : Continues walk after) (turn : OnTurn walk current span) {next : Int}
    (behind : ∀ i ∈ walk.queue.map (·.index), next ≤ (walk.terms.get i).shifted)
    (level : (after.terms.get current).shifted ≤ next) :
    OnTurn after current (min span (after.largest - (after.terms.get current).shifted)) ∧
      ∀ i ∈ after.queue.map (·.index), next ≤ (after.terms.get i).shifted := by
  have behindAfter : ∀ i ∈ after.queue.map (·.index), next ≤ (after.terms.get i).shifted := fun i member =>
    (behind i (continues.places.mem_iff.mp member)).trans (continues.onward.shifted_le (turn.sorted i))
  have everyone := (continues.places.cons current).trans turn.everyone
  exact ⟨.of_le continues.steady continues.waits everyone behindAfter level turn.nonneg, behindAfter⟩

end Turn

section Run

variable [Score S] (relevance : Relevance S)

omit [Score S] in
theorem OnTurn.closeApart (turn : OnTurn walk current span) (apart : Apart groups walk.terms)
    (onward : Onward start walk.terms) :
    CloseApart groups start (walk.largest - (walk.terms.get current).shifted) := by
  refine ⟨fun i => (walk.terms.get i).shifted, fun i => (onward.choices i).subset List.mem_cons_self,
    fun i j => ?_, fun i j paired => ?_⟩
  · have upper : (walk.terms.get i).shifted ≤ walk.largest := turn.greatest.2 (Set.mem_range_self i)
    have lower := turn.least j
    change (walk.terms.get i).shifted - (walk.terms.get j).shifted ≤ _
    omega
  · have differ := apart i j paired
    rw [SloppyTerm.position, SloppyTerm.position, onward.offset i, onward.offset j] at differ
    exact differ

theorem judge_closeApart (close : CloseApart groups start span)
    (counted : Score.isPositive walk.freq = true → CloseApart groups start slop) :
    Score.isPositive (walk.judge relevance slop span).freq = true → CloseApart groups start slop := by
  unfold SloppyWalk.judge
  split
  next within => exact fun _ => close.mono within
  next => exact counted

/-- From a turn on, a frequency gets positive only if there is a close choice without collisions. `next` is what
the first of the queue was before some of its terms were parted, so all of them lie at or behind it. -/
theorem run_closeApart (distinct : groups.flatten.Nodup) (reads : Nat) (walk : SloppyWalk PositionStream S n)
    (current : Fin n) (span next : Int) (turn : OnTurn walk current span)
    (behind : ∀ i ∈ walk.queue.map (·.index), next ≤ (walk.terms.get i).shifted)
    (apart : Apart groups walk.terms) (onward : Onward start walk.terms) (close : CloseApart groups start span)
    (counted : Score.isPositive walk.freq = true → CloseApart groups start slop)
    (enough : left walk.terms < reads) :
    (run groups relevance slop reads walk current span next).Yields fun _ after =>
      Score.isPositive after.freq = true → CloseApart groups start slop := by
  induction reads generalizing walk current span next with
  | zero => omega
  | succ reads ih =>
    rcases turn.goes_on groups with same | ⟨moved, same, readable, elsewhere, more, after, separated, freq, goesOn⟩
    · exact ⟨(), _, by rw [run, same], judge_closeApart relevance close counted⟩
    · have countedAfter : Score.isPositive after.freq = true → CloseApart groups start slop := by rwa [freq]
      rw [run, same]
      simp only [separated]
      cases more with
      | false => exact ⟨(), _, rfl, judge_closeApart relevance close countedAfter⟩
      | true =>
        obtain ⟨continues, fewer⟩ := goesOn rfl
        have apartAfter : Apart groups after.terms :=
          separate_apart distinct _ moved current false readable ((apart.but current).congr elsewhere) separated
        have onwardAfter := onward.trans continues.onward
        have remaining : left after.terms < reads := by omega
        simp only
        split
        next passed =>
          have countedJudged := judge_closeApart relevance close countedAfter
          obtain ⟨first, queue, queued, next⟩ := continues.next_turn turn
          simp only [judge_terms, judge_queue, judge_largest, queued]
          exact ih _ first.index _ (nextShifted queue) (next _ _)
            (fun _ => (next after.freq after.occurrences).waits.nextShifted_le) apartAfter onwardAfter
            ((next after.freq after.occurrences).closeApart apartAfter onwardAfter) countedJudged remaining
        next level =>
          obtain ⟨stays, behindAfter⟩ := continues.stays turn behind (not_lt.mp level)
          have closeAfter : CloseApart groups start
              (min span (after.largest - (after.terms.get current).shifted)) := by
            rcases min_choice span (after.largest - (after.terms.get current).shifted) with same | same
            · rw [same]
              exact close
            · rw [same]
              exact stays.closeApart apartAfter onwardAfter
          exact ih after current _ next stays behindAfter apartAfter onwardAfter closeAfter countedAfter remaining

end Run

section Spread

def inDocument (term : SloppyTerm PositionStream) : List Int := term.choices.map (· + term.offset)

theorem inDocument_getElem? {after : SloppyTerm PositionStream} {term : SloppyTerm PositionStream} {count : Nat}
    (offset : after.offset = term.offset) (skipped : after.choices = term.choices.drop count) :
    (inDocument term)[count]? = some after.position := by
  have head : (term.choices.drop count).head? = some after.shifted := by
    rw [← skipped]
    rfl
  rw [List.head?_drop] at head
  rw [inDocument, List.getElem?_map, head, ← offset]
  rfl

theorem apart_of_spread (distinct : groups.flatten.Nodup) (readable : Readable terms)
    (same : ∀ i j, Paired groups i j → inDocument (terms.get i) = inDocument (terms.get j))
    (once : ∀ i j, Paired groups i j → (inDocument (terms.get i)).Nodup)
    (enough : spread (groups.flatMap List.zipIdx) terms = (.ok true, others)) : Apart groups others := by
  have places : ((groups.flatMap List.zipIdx).map Prod.fst).Nodup := by
    rw [List.map_flatMap]
    simp only [List.zipIdx_map_fst]
    exact (congrArg List.Nodup List.flatten_eq_flatMap).mp distinct
  obtain ⟨more, after, spreads, -, onward, -, skipped⟩ := spread_yields (groups.flatMap List.zipIdx) readable
  rw [enough] at spreads
  obtain ⟨succeeds, rfl⟩ := Prod.mk.inj spreads
  obtain rfl : true = more := Except.ok.inj succeeds
  rintro i j paired level
  have members := paired
  obtain ⟨differ, group, listed, first, second⟩ := members
  have ranked : ∀ k ∈ group, ∃ rank : Nat, group[rank]? = some k ∧
      (inDocument (terms.get k))[rank]? = some (others.get k).position := by
    intro k member
    obtain ⟨rank, here⟩ := List.mem_iff_getElem?.mp member
    have counted : (k, rank) ∈ groups.flatMap List.zipIdx :=
      List.mem_flatMap.mpr ⟨group, listed, List.mem_zipIdx_iff_getElem?.mpr here⟩
    exact ⟨rank, here, inDocument_getElem? (onward.offset k) (skipped rfl places k rank counted)⟩
  obtain ⟨a, atA, positionA⟩ := ranked i first
  obtain ⟨b, atB, positionB⟩ := ranked j second
  rw [← same i j paired, ← level] at positionB
  obtain ⟨inside, -⟩ := List.getElem?_eq_some_iff.mp positionA
  have equal : a = b := (List.getElem?_inj inside (once i j paired)).mp (positionA.trans positionB.symm)
  rw [equal, atB] at atA
  exact differ (Option.some.inj atA).symm

end Spread

end SloppyWalk

end PostingQuery
