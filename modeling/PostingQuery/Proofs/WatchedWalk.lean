import Mathlib
import PostingQuery.Proofs.RepeatGroups

/-!
A walk over the positions of one document that is watched. It does what the walk itself does, and notes each time
a span is taken, a term is put into the queue, or the slop factor of a distance is asked for. The frequency that the
walk arrives at is made of nothing but what was asked for. What is noted holds of every walk that begins with all
terms in order: a span reaches from the smallest shifted position to the largest one, the keys of the queue are the
present positions, and no distance that is asked for exceeds the slop.
-/

namespace PostingQuery

inductive Sighting where
  /-- A span is taken: from the shifted position of a term to the largest one. -/
  | span (n : Nat) (shifted : Fin n → Int) (largest : Int) (current : Fin n) (taken : Int)
  | queued (n : Nat) (shifted : Fin n → Int) (queue : List (QueuedTerm n))
  | asked (distance : Int)

/-- What has to hold whenever something is seen. A span is the one of all terms at that moment: it reaches from the
smallest of their shifted positions to the largest one, and is never negative. A term waits in the queue at the
position where it is. A distance lies within the slop. -/
def Sighting.Sound (slop : Int) : Sighting → Prop
  | .span _ shifted largest current taken => IsGreatest (Set.range shifted) largest ∧
      IsLeast (Set.range shifted) (shifted current) ∧ taken = largest - shifted current ∧ 0 ≤ taken
  | .queued _ shifted queue => ∀ waiting ∈ queue, waiting.shifted = shifted waiting.index
  | .asked distance => 0 ≤ distance ∧ distance ≤ slop

/-- What has been counted after a sighting, a frequency and its matches: the slop factor of a distance is asked for in
order to be added. -/
def Sighting.tally {S : Type} [Score S] (relevance : Relevance S) (counted : S × Nat) : Sighting → S × Nat
  | .asked distance => (counted.1 + relevance.slopFactor distance, counted.2 + 1)
  | .span .. => counted
  | .queued .. => counted

structure Observed (ε σ α : Type) where
  step : Step σ α
  seen : List ε

def Observed.behind {ε σ α : Type} (observed : Observed ε σ α) (earlier : List ε) : Observed ε σ α :=
  ⟨observed.step, earlier ++ observed.seen⟩

/-- Frequencies that keep the distances they are made of. -/
structure Distances where
  asked : List Int

instance : Add Distances := ⟨fun earlier later => ⟨earlier.asked ++ later.asked⟩⟩

def Relevance.distances : Relevance Distances where
  name := "Distances"
  boost := ⟨[]⟩
  score _ freq := freq
  slopFactor distance := ⟨[distance]⟩

namespace SloppyWalk

variable {P S : Type} {n : Nat}

def shiftedOf (terms : Vector (SloppyTerm P) n) (i : Fin n) : Int := (terms.get i).shifted

def fillings (terms : Vector (SloppyTerm P) n) (places : List (Fin n)) : List Sighting :=
  places.inits.map fun filled => .queued n (shiftedOf terms) (filled.foldl (enqueue terms) [])

/-- What judging a span asks for. The walk itself judges it, with frequencies that keep their distances. -/
def judging (walk : SloppyWalk P S n) (slop span : Int) : List Sighting :=
  let judged := SloppyWalk.judge { walk with freq := (⟨[]⟩ : Distances) } .distances slop span
  judged.freq.asked.map .asked

theorem judging_eq (walk : SloppyWalk P S n) (slop span : Int) :
    walk.judging slop span = if span ≤ slop then [.asked span] else [] := by
  unfold judging judge
  split
  · rfl
  · rfl

section Watch

variable [PostingSource P]

def watchSeparate (groups : List (List (Fin n))) (first : Fin n) :
    Nat → SloppyWalk P S n → Fin n → Bool → Observed Sighting (SloppyWalk P S n) Bool
  | 0, walk, _, _ => ⟨(.error (.other .stalled), walk), []⟩
  | reads + 1, walk, current, disturbed =>
    match collision groups walk.terms current with
    | none =>
      if disturbed then ⟨(.ok true, walk.requeue), fillings walk.terms (walk.queue.map (·.index))⟩
      else ⟨(.ok true, walk), []⟩
    | some other =>
      let current := lesser walk.terms current other
      match walk.move current with
      | (.ok true, walk) => watchSeparate groups first reads walk current (disturbed || current != first)
      | stopped => ⟨stopped, []⟩

theorem watchSeparate_step (groups : List (List (Fin n))) (first : Fin n) (reads : Nat) (walk : SloppyWalk P S n)
    (current : Fin n) (disturbed : Bool) :
    (watchSeparate groups first reads walk current disturbed).step =
      separate groups first reads walk current disturbed := by
  induction reads generalizing walk current disturbed with
  | zero => rfl
  | succ reads ih =>
    rw [watchSeparate, separate]
    cases collision groups walk.terms current with
    | none =>
      cases disturbed with
      | false => rfl
      | true => rfl
    | some other =>
      dsimp only
      rcases walk.move (lesser walk.terms current other) with ⟨failure | more, after⟩
      · rfl
      · cases more with
        | false => rfl
        | true => exact ih _ _ _

variable [Score S]

def watchRun (groups : List (List (Fin n))) (relevance : Relevance S) (slop : Int) :
    Nat → SloppyWalk P S n → Fin n → Int → Int → Observed Sighting (SloppyWalk P S n) Unit
  | 0, walk, _, _, _ => ⟨(.error (.other .stalled), walk), []⟩
  | reads + 1, walk, current, span, next =>
    match walk.move current with
    | (.error failure, walk) => ⟨(.error failure, walk), []⟩
    | (.ok false, walk) => ⟨(.ok (), walk.judge relevance slop span), walk.judging slop span⟩
    | (.ok true, walk) =>
      let parting := watchSeparate groups current walk.readBound walk current false
      match parting.step with
      | (.error failure, walk) => ⟨(.error failure, walk), parting.seen⟩
      | (.ok false, walk) => ⟨(.ok (), walk.judge relevance slop span), parting.seen ++ walk.judging slop span⟩
      | (.ok true, walk) =>
        let shifted := (walk.terms.get current).shifted
        if next < shifted then
          let asked := walk.judging slop span
          let walk := walk.judge relevance slop span
          let waiting := enqueue walk.terms walk.queue current
          let seen := parting.seen ++ asked ++ [.queued n (shiftedOf walk.terms) waiting]
          match waiting with
          | [] => ⟨(.ok (), walk.judge relevance slop span), seen ++ walk.judging slop span⟩
          | first :: queue =>
            let span := walk.largest - (walk.terms.get first.index).shifted
            (watchRun groups relevance slop reads { walk with queue } first.index span (nextShifted queue)).behind
              (seen ++ [.span n (shiftedOf walk.terms) walk.largest first.index span])
        else
          let taken := walk.largest - shifted
          (watchRun groups relevance slop reads walk current (min span taken) next).behind
            (parting.seen ++ [.span n (shiftedOf walk.terms) walk.largest current taken])

theorem watchRun_step (groups : List (List (Fin n))) (relevance : Relevance S) (slop : Int) (reads : Nat)
    (walk : SloppyWalk P S n) (current : Fin n) (span next : Int) :
    (watchRun groups relevance slop reads walk current span next).step =
      run groups relevance slop reads walk current span next := by
  induction reads generalizing walk current span next with
  | zero => rfl
  | succ reads ih =>
    rw [watchRun, run]
    rcases walk.move current with ⟨failure | more, moved⟩
    · rfl
    · cases more with
      | false => rfl
      | true =>
        simp only [watchSeparate_step]
        rcases separate groups current moved.readBound moved current false with ⟨failure | enough, parted⟩
        · rfl
        · cases enough with
          | false => rfl
          | true =>
            simp only [getElem_eq_get]
            split
            · cases enqueue (parted.judge relevance slop span).terms (parted.judge relevance slop span).queue
                current with
              | nil => rfl
              | cons first queue => exact ih _ _ _ _
            · exact ih _ _ _ _

def watchComplete (walk : SloppyWalk P S n) (groups : List (List (Fin n))) (relevance : Relevance S) (slop : Int) :
    Observed Sighting (SloppyWalk P S n) Unit :=
  match walk.queue with
  | [] => ⟨(.ok (), walk), []⟩
  | first :: queue =>
    let span := walk.largest - (walk.terms.get first.index).shifted
    (watchRun groups relevance slop walk.readBound { walk with queue } first.index span (nextShifted queue)).behind
      [.span n (shiftedOf walk.terms) walk.largest first.index span]

theorem watchComplete_step (walk : SloppyWalk P S n) (groups : List (List (Fin n))) (relevance : Relevance S)
    (slop : Int) : (walk.watchComplete groups relevance slop).step = walk.complete groups relevance slop := by
  rw [watchComplete, complete]
  cases walk.queue with
  | nil => rfl
  | cons first queue => exact watchRun_step _ _ _ _ _ _ _ _

section Tally

def counted (walk : SloppyWalk P S n) : S × Nat := (walk.freq, walk.occurrences)

omit [Score S] in
theorem move_counted (walk : SloppyWalk P S n) (i : Fin n) : (walk.move i).2.counted = walk.counted := by
  unfold move
  split
  · rfl
  · rfl

theorem start_counted {groups : List (List (Fin n))} {terms after : Vector (SloppyTerm P) n} {walk : SloppyWalk P S n}
    (started : start groups terms = (.ok (some walk), after)) : walk.counted = (Score.zero, 0) := by
  unfold start at started
  split at started
  · cases started
  · split at started
    · cases started
    · cases started
    · cases started
      rfl

variable (groups : List (List (Fin n))) (relevance : Relevance S) (slop : Int)

omit [PostingSource P] in
theorem fillings_tally (terms : Vector (SloppyTerm P) n) (places : List (Fin n)) (counted : S × Nat) :
    (fillings terms places).foldl (Sighting.tally relevance) counted = counted := by
  rw [fillings, List.foldl_map]
  exact List.foldl_fixed _

omit [PostingSource P] in
theorem judging_tally (walk : SloppyWalk P S n) (span : Int) :
    (walk.judging slop span).foldl (Sighting.tally relevance) walk.counted =
      (walk.judge relevance slop span).counted := by
  rw [judging_eq]
  unfold judge
  split
  · rfl
  · rfl

theorem watchSeparate_tally (first : Fin n) (reads : Nat) (walk : SloppyWalk P S n) (current : Fin n)
    (disturbed : Bool) :
    (watchSeparate groups first reads walk current disturbed).seen.foldl (Sighting.tally relevance) walk.counted =
      (watchSeparate groups first reads walk current disturbed).step.2.counted := by
  induction reads generalizing walk current disturbed with
  | zero => rfl
  | succ reads ih =>
    rw [watchSeparate]
    cases collision groups walk.terms current with
    | none =>
      cases disturbed with
      | false => rfl
      | true => exact fillings_tally relevance _ _ _
    | some other =>
      have kept := move_counted walk (lesser walk.terms current other)
      dsimp only
      generalize walk.move (lesser walk.terms current other) = moved at kept
      rcases moved with ⟨failure | _ | _, after⟩
      · exact kept.symm
      · exact kept.symm
      · rw [← kept]
        exact ih _ _ _

theorem watchRun_tally (reads : Nat) (walk : SloppyWalk P S n) (current : Fin n) (span next : Int) :
    (watchRun groups relevance slop reads walk current span next).seen.foldl (Sighting.tally relevance) walk.counted =
      (watchRun groups relevance slop reads walk current span next).step.2.counted := by
  induction reads generalizing walk current span next with
  | zero => rfl
  | succ reads ih =>
    have kept := move_counted walk current
    rw [watchRun]
    generalize walk.move current = move at kept
    rcases move with ⟨failure | _ | _, moved⟩
    · exact kept.symm
    · rw [← kept]
      exact judging_tally relevance slop _ _
    · have parting := watchSeparate_tally groups relevance current moved.readBound moved current false
      rw [← kept]
      dsimp only at parting ⊢
      generalize watchSeparate groups current moved.readBound moved current false = parted at parting
      rcases parted with ⟨⟨failure | _ | _, after⟩, seen⟩
      · exact parting
      · rw [List.foldl_append, parting]
        exact judging_tally relevance slop _ _
      · dsimp only at parting ⊢
        split
        · have judged := judging_tally relevance slop after span
          cases enqueue (after.judge relevance slop span).terms (after.judge relevance slop span).queue current with
          | nil =>
            simp only [List.foldl_append, parting, judged]
            exact judging_tally relevance slop _ _
          | cons waiting queue =>
            simp only [Observed.behind, List.foldl_append, parting, judged]
            exact ih { after.judge relevance slop span with queue } _ _ _
        · simp only [Observed.behind, List.foldl_append, parting]
          exact ih _ _ _ _

theorem watchComplete_tally (walk : SloppyWalk P S n) :
    (walk.watchComplete groups relevance slop).seen.foldl (Sighting.tally relevance) walk.counted =
      (walk.watchComplete groups relevance slop).step.2.counted := by
  rw [watchComplete]
  cases walk.queue with
  | nil => rfl
  | cons first queue => exact watchRun_tally groups relevance slop _ { walk with queue } _ _ _

end Tally

end Watch

section Alike

variable {Q : Type} [PostingSource P] [PostingSource Q] {alike : Fin n → SloppyTerm P → SloppyTerm Q → Prop}
  {held : Fin n → SloppyTerm P → Prop} {walk : SloppyWalk P S n} {mirror : SloppyWalk Q S n}

theorem shiftedOf_eq (mirroring : Mirroring alike held False) {terms : Vector (SloppyTerm P) n}
    {mirrors : Vector (SloppyTerm Q) n} (all : AllAlike alike terms mirrors) : shiftedOf terms = shiftedOf mirrors :=
  funext fun i => mirroring.shifted _ _ _ (all i)

theorem fillings_eq (mirroring : Mirroring alike held False) {terms : Vector (SloppyTerm P) n}
    {mirrors : Vector (SloppyTerm Q) n} (all : AllAlike alike terms mirrors) (places : List (Fin n)) :
    fillings terms places = fillings mirrors places := by
  have each : enqueue terms = enqueue mirrors :=
    funext fun queue => funext fun i => enqueue_eq mirroring all queue i
  rw [fillings, fillings, each, shiftedOf_eq mirroring all]

theorem Alike.watchSeparate_seen (mirroring : Mirroring alike held False) (groups : List (List (Fin n)))
    (first : Fin n) (reads : Nat) (same : Alike alike walk mirror) (current : Fin n) (disturbed : Bool) :
    (watchSeparate groups first reads walk current disturbed).seen =
      (watchSeparate groups first reads mirror current disturbed).seen := by
  induction reads generalizing walk mirror current disturbed with
  | zero => rfl
  | succ reads ih =>
    rw [watchSeparate, watchSeparate, collision_eq mirroring same.terms]
    cases collision groups mirror.terms current with
    | none =>
      cases disturbed with
      | false => rfl
      | true =>
        change fillings walk.terms (walk.queue.map (·.index)) = fillings mirror.terms (mirror.queue.map (·.index))
        rw [fillings_eq mirroring same.terms, same.queue]
    | some other =>
      simp only [lesser_eq mirroring same.terms]
      rcases same.move_agrees mirroring (lesser mirror.terms current other) with
        ⟨outcome, after, mirrorAfter, walkMove, mirrorMove, sameAfter⟩ | ⟨-, -, -, never, -⟩
      · simp only [walkMove, mirrorMove]
        rcases outcome with failure | (_ | _)
        · rfl
        · rfl
        · exact ih sameAfter _ _
      · exact never.elim

variable [Score S]

theorem Alike.watchRun_seen (mirroring : Mirroring alike held False) (groups : List (List (Fin n)))
    (relevance : Relevance S) (slop : Int) (reads : Nat) (same : Alike alike walk mirror) (current : Fin n)
    (span next : Int) :
    (watchRun groups relevance slop reads walk current span next).seen =
      (watchRun groups relevance slop reads mirror current span next).seen := by
  induction reads generalizing walk mirror current span next with
  | zero => rfl
  | succ reads ih =>
    rw [watchRun, watchRun]
    rcases same.move_agrees mirroring current with
      ⟨outcome, moved, mirrorMoved, walkMove, mirrorMove, sameMoved⟩ | ⟨-, -, -, never, -⟩
    · simp only [walkMove, mirrorMove, judging_eq]
      rcases outcome with failure | (_ | _)
      · rfl
      · rfl
      · have seen := sameMoved.watchSeparate_seen mirroring groups current mirrorMoved.readBound current false
        simp only [sameMoved.readBound_eq mirroring, watchSeparate_step, seen]
        rcases sameMoved.separate_agrees mirroring groups current mirrorMoved.readBound current false with
          ⟨outcome, parted, mirrorParted, walkPart, mirrorPart, sameParted⟩ | ⟨-, -, -, never, -⟩
        · simp only [walkPart, mirrorPart]
          rcases outcome with failure | (_ | _)
          · rfl
          · rfl
          · have judged : Alike alike (parted.judge relevance slop span) (mirrorParted.judge relevance slop span) :=
              sameParted.judge
            have queueSame := enqueue_eq mirroring judged.terms (mirrorParted.judge relevance slop span).queue current
            have shifted := mirroring.shifted _ _ _ (sameParted.terms current)
            have places := shiftedOf_eq mirroring judged.terms
            simp only [shifted, judged.queue, queueSame, places]
            split
            · cases enqueue (mirrorParted.judge relevance slop span).terms
                (mirrorParted.judge relevance slop span).queue current with
              | nil => rfl
              | cons first queue =>
                have popped : Alike alike
                    { parted.judge relevance slop span with
                      queue, largest := (mirrorParted.judge relevance slop span).largest }
                    { mirrorParted.judge relevance slop span with queue } :=
                  ⟨judged.terms, rfl, rfl, judged.freq, judged.occurrences⟩
                have head := mirroring.shifted _ _ _ (judged.terms first.index)
                simp only [Observed.behind, head, judged.largest]
                exact congrArg (_ ++ ·) (ih popped _ _ _)
            · simp only [Observed.behind, sameParted.largest, shiftedOf_eq mirroring sameParted.terms]
              exact congrArg (_ ++ ·) (ih sameParted _ _ _)
        · exact never.elim
    · exact never.elim

theorem Alike.watchComplete_seen (mirroring : Mirroring alike held False) (groups : List (List (Fin n)))
    (relevance : Relevance S) (slop : Int) (same : Alike alike walk mirror) :
    (walk.watchComplete groups relevance slop).seen = (mirror.watchComplete groups relevance slop).seen := by
  rw [watchComplete, watchComplete, same.queue]
  cases mirror.queue with
  | nil => rfl
  | cons first queue =>
    have popped : Alike alike { walk with queue, largest := mirror.largest } { mirror with queue } :=
      ⟨same.terms, rfl, rfl, same.freq, same.occurrences⟩
    have head := mirroring.shifted _ _ _ (same.terms first.index)
    simp only [Observed.behind, same.readBound_eq mirroring, head, same.largest, shiftedOf_eq mirroring same.terms]
    exact congrArg (_ ++ ·) (popped.watchRun_seen mirroring groups relevance slop _ _ _ _)

end Alike

section Sound

variable {slop : Int}

theorem fillings_sound (terms : Vector (SloppyTerm P) n) (places : List (Fin n)) :
    ∀ sighting ∈ fillings terms places, sighting.Sound slop := by
  have keyed : ∀ (filled : List (Fin n)) (queue : List (QueuedTerm n)),
      (∀ waiting ∈ queue, waiting.shifted = shiftedOf terms waiting.index) →
      ∀ waiting ∈ filled.foldl (enqueue terms) queue, waiting.shifted = shiftedOf terms waiting.index := by
    intro filled
    induction filled with
    | nil => exact fun _ here => here
    | cons i filled ih =>
      refine fun queue here => ih _ fun waiting member => ?_
      rcases List.mem_cons.mp ((StableSort.insert_perm _ _ _).mem_iff.mp member) with rfl | listed
      · rfl
      · exact here waiting listed
  intro sighting member
  obtain ⟨filled, -, rfl⟩ := List.mem_map.mp member
  exact keyed filled [] (List.forall_mem_nil _)

theorem judging_sound (walk : SloppyWalk P S n) {span : Int} (nonneg : 0 ≤ span) :
    ∀ sighting ∈ walk.judging slop span, sighting.Sound slop := by
  rw [judging_eq]
  split
  next within => exact List.forall_mem_singleton.mpr ⟨nonneg, within⟩
  next => exact List.forall_mem_nil _

theorem watchSeparate_sound [PostingSource P] (slop : Int) (groups : List (List (Fin n))) (first : Fin n) (reads : Nat)
    (walk : SloppyWalk P S n) (current : Fin n) (disturbed : Bool) :
    ∀ sighting ∈ (watchSeparate groups first reads walk current disturbed).seen, sighting.Sound slop := by
  induction reads generalizing walk current disturbed with
  | zero => exact List.forall_mem_nil _
  | succ reads ih =>
    rw [watchSeparate]
    cases collision groups walk.terms current with
    | none =>
      cases disturbed with
      | false => exact List.forall_mem_nil _
      | true => exact fillings_sound _ _
    | some other =>
      dsimp only
      rcases walk.move (lesser walk.terms current other) with ⟨failure | more, after⟩
      · exact List.forall_mem_nil _
      · cases more with
        | false => exact List.forall_mem_nil _
        | true => exact ih _ _ _

variable {walk : SloppyWalk PositionStream S n} {current : Fin n} {span : Int}

theorem OnTurn.span_sound (turn : OnTurn walk current span) (slop : Int) :
    (Sighting.span n (shiftedOf walk.terms) walk.largest current
      (walk.largest - (walk.terms.get current).shifted)).Sound slop := by
  refine ⟨turn.greatest, ⟨Set.mem_range_self current, ?_⟩, rfl, ?_⟩
  · rintro _ ⟨i, rfl⟩
    exact turn.least i
  · exact sub_nonneg.mpr (turn.greatest.2 (Set.mem_range_self current))

theorem Waits.queued_sound {terms : Vector (SloppyTerm PositionStream) n} {queue : List (QueuedTerm n)}
    {places : List (Fin n)} (waits : Waits terms queue places) (slop : Int) :
    (Sighting.queued n (shiftedOf terms) queue).Sound slop :=
  waits.shifted

variable [Score S]

/-- From a turn on, all that is seen is sound. `next` is what the first of the queue was before some of its terms were
parted, so all of them lie at or behind it. -/
theorem watchRun_sound (groups : List (List (Fin n))) (relevance : Relevance S) (reads : Nat)
    (walk : SloppyWalk PositionStream S n) (current : Fin n) (span next : Int) (turn : OnTurn walk current span)
    (behind : ∀ i ∈ walk.queue.map (·.index), next ≤ (walk.terms.get i).shifted) :
    ∀ sighting ∈ (watchRun groups relevance slop reads walk current span next).seen, sighting.Sound slop := by
  induction reads generalizing walk current span next with
  | zero => exact List.forall_mem_nil _
  | succ reads ih =>
    have judged : ∀ walk : SloppyWalk PositionStream S n, ∀ sighting ∈ walk.judging slop span, sighting.Sound slop :=
      fun walk => judging_sound walk turn.nonneg
    rw [watchRun]
    rcases turn.goes_on groups with same | ⟨moved, same, -, -, more, after, separated, -, goesOn⟩
    · rw [same]
      exact judged _
    · have parting := watchSeparate_sound slop groups current moved.readBound moved current false
      rw [same]
      simp only [watchSeparate_step, separated]
      cases more with
      | false => exact List.forall_mem_append.mpr ⟨parting, judged _⟩
      | true =>
        obtain ⟨continues, -⟩ := goesOn rfl
        simp only
        split
        next passed =>
          have put := (continues.waits.enqueue current).queued_sound slop
          have seen := List.forall_mem_append.mpr
            ⟨List.forall_mem_append.mpr ⟨parting, judged after⟩, List.forall_mem_singleton.mpr put⟩
          obtain ⟨first, queue, queued, next⟩ := continues.next_turn turn
          have spans := (next after.freq after.occurrences).span_sound slop
          rw [queued] at seen
          simp only [judge_terms, judge_queue, judge_largest, queued]
          exact List.forall_mem_append.mpr ⟨List.forall_mem_append.mpr ⟨seen, List.forall_mem_singleton.mpr spans⟩,
            ih _ first.index _ (nextShifted queue) (next _ _)
              fun _ => (next after.freq after.occurrences).waits.nextShifted_le⟩
        next level =>
          obtain ⟨stays, behindAfter⟩ := continues.stays turn behind (not_lt.mp level)
          exact List.forall_mem_append.mpr ⟨List.forall_mem_append.mpr
            ⟨parting, List.forall_mem_singleton.mpr (stays.span_sound slop)⟩, ih after current _ next stays behindAfter⟩

end Sound

end SloppyWalk

end PostingQuery
