import Mathlib
import PostingQuery.Proofs.PositionStream
import PostingQuery.Proofs.PositiveSums

/-!
The walk over the positions of one document. The term with the smallest shifted position always moves on, so
the walk sees few of the choices of one position for each term. Still it meets a close choice if there is one:
when a term leaves its place in a close choice, all others lie at or before theirs, and the span at that
moment is as short.
-/

namespace PostingQuery

variable {n : Nat}

/-- One can choose a position for each place such that no two of them are further apart than the slop. -/
def Close (positions : Fin n → List Int) (slop : Int) : Prop :=
  ∃ choice : Fin n → Int, (∀ i, choice i ∈ positions i) ∧ ∀ i j, choice i - choice j ≤ slop

theorem Close.mono {positions more : Fin n → List Int} {slop : Int} (close : Close positions slop)
    (within : ∀ i, positions i ⊆ more i) : Close more slop := by
  obtain ⟨choice, listed, near⟩ := close
  exact ⟨choice, fun i => within i (listed i), near⟩

namespace SloppyTerm

structure Readable (term : SloppyTerm PositionStream) : Prop where
  counted : term.unread = term.postings.unread.length
  nonneg : ∀ position ∈ term.postings.unread, 0 ≤ position

def choices (term : SloppyTerm PositionStream) : List Int :=
  term.shifted :: term.postings.unread.map (· - term.offset)

def onto (term : SloppyTerm PositionStream) (position : Int) (unread : List Int) : SloppyTerm PositionStream :=
  ⟨⟨unread⟩, term.offset, unread.length, position - term.offset⟩

variable {term : SloppyTerm PositionStream} {position : Int} {unread : List Int}

theorem Readable.onto (readable : Readable term) (stream : term.postings.unread = position :: unread) :
    Readable (term.onto position unread) :=
  ⟨rfl, fun other member => readable.nonneg other (stream ▸ List.mem_cons_of_mem position member)⟩

theorem Readable.read (readable : Readable term) (stream : term.postings.unread = position :: unread) :
    term.read = (.ok true, term.onto position unread) := by
  have counted := readable.counted
  rw [stream, List.length_cons] at counted
  exact read_stream stream (readable.nonneg position (stream ▸ List.mem_cons_self)) counted

theorem choices_onto (stream : term.postings.unread = position :: unread) :
    term.choices = term.shifted :: (term.onto position unread).choices := by
  rw [choices, stream]
  rfl

end SloppyTerm

namespace SloppyWalk

open SloppyTerm

def left (terms : Vector (SloppyTerm PositionStream) n) : Nat := ∑ i : Fin n, (terms.get i).unread

variable {S : Type} {terms : Vector (SloppyTerm PositionStream) n} {walk : SloppyWalk PositionStream S n}
  {i : Fin n} {position : Int} {unread : List Int}

theorem left_set (terms : Vector (SloppyTerm PositionStream) n) (i : Fin n)
    (term : SloppyTerm PositionStream) :
    left (terms.set i term i.isLt) + (terms.get i).unread = left terms + term.unread := by
  have updated : (fun j : Fin n => ((terms.set i term i.isLt).get j).unread) =
      Function.update (fun j : Fin n => (terms.get j).unread) i term.unread := by
    funext j
    rw [get_set, Function.update_apply]
    by_cases same : i = j
    · rw [if_pos same, if_pos same.symm]
    · rw [if_neg same, if_neg (Ne.symm same)]
  have rest := Finset.sum_eq_sum_sdiff_singleton_add (Finset.mem_univ i) fun j : Fin n => (terms.get j).unread
  have whole := Finset.sum_update_of_mem (Finset.mem_univ i) (fun j : Fin n => (terms.get j).unread) term.unread
  unfold left
  rw [updated, whole, rest]
  omega

theorem readBound_eq (walk : SloppyWalk PositionStream S n) : walk.readBound = left walk.terms + 1 := by
  have sums : ∀ terms : List (SloppyTerm PositionStream),
      terms.foldr (fun term readings => term.unread + readings) 1 = (terms.map (·.unread)).sum + 1 := by
    intro terms
    induction terms with
    | nil => rfl
    | cons term terms ih => rw [List.foldr_cons, ih, List.map_cons, List.sum_cons, Nat.add_assoc]
  rw [readBound, sums, toList_eq_map_get, List.map_map, left, Fin.sum_univ_def]
  rfl

def Readable (terms : Vector (SloppyTerm PositionStream) n) : Prop :=
  ∀ i : Fin n, SloppyTerm.Readable (terms.get i)

theorem Readable.set (readable : Readable terms) {term : SloppyTerm PositionStream}
    (here : SloppyTerm.Readable term) : Readable (terms.set i term i.isLt) := by
  intro j
  rw [get_set]
  split
  · exact here
  · exact readable j

theorem readTerm_yields (readable : Readable terms) (i : Fin n) :
    ((terms.get i).postings.unread = [] ∧ readTerm terms i = (.ok false, terms)) ∨
    ∃ position unread, (terms.get i).postings.unread = position :: unread ∧
      readTerm terms i = (.ok true, terms.set i ((terms.get i).onto position unread) i.isLt) ∧
      Readable (terms.set i ((terms.get i).onto position unread) i.isLt) ∧
      left (terms.set i ((terms.get i).onto position unread) i.isLt) + 1 = left terms := by
  cases stream : (terms.get i).postings.unread with
  | nil =>
    have none := (readable i).counted
    rw [stream] at none
    refine .inl ⟨rfl, ?_⟩
    rw [readTerm, getElem_eq_get, read_of_unread_eq_zero none]
    simp [Step.within, Vector.get_eq_getElem]
  | cons position unread =>
    have counted := (readable i).counted
    rw [stream, List.length_cons] at counted
    refine .inr ⟨position, unread, rfl, ?_, readable.set ((readable i).onto stream), ?_⟩
    · rw [readTerm, getElem_eq_get, (readable i).read stream]
      rfl
    · have sums := left_set terms i ((terms.get i).onto position unread)
      change _ = left terms + unread.length at sums
      omega

theorem move_yields (walk : SloppyWalk PositionStream S n) (readable : Readable walk.terms) (i : Fin n) :
    ((walk.terms.get i).postings.unread = [] ∧ walk.move i = (.ok false, walk)) ∨
    ∃ position unread, (walk.terms.get i).postings.unread = position :: unread ∧
      walk.move i = (.ok true, { walk with
        terms := walk.terms.set i ((walk.terms.get i).onto position unread) i.isLt
        largest := max walk.largest (position - (walk.terms.get i).offset) }) ∧
      Readable (walk.terms.set i ((walk.terms.get i).onto position unread) i.isLt) ∧
      left (walk.terms.set i ((walk.terms.get i).onto position unread) i.isLt) + 1 = left walk.terms := by
  rcases readTerm_yields readable i with ⟨ended, same⟩ | ⟨position, unread, stream, same, after, fewer⟩
  · refine .inl ⟨ended, ?_⟩
    rw [move, same]
  · refine .inr ⟨position, unread, stream, ?_, after, fewer⟩
    rw [move, same]
    simp [onto]

structure Onward (terms others : Vector (SloppyTerm PositionStream) n) : Prop where
  offset : ∀ i : Fin n, (others.get i).offset = (terms.get i).offset
  choices : ∀ i : Fin n, (others.get i).choices <:+ (terms.get i).choices

section Onward

variable {start others : Vector (SloppyTerm PositionStream) n}

theorem Onward.refl (terms : Vector (SloppyTerm PositionStream) n) : Onward terms terms :=
  ⟨fun _ => rfl, fun _ => List.suffix_refl _⟩

theorem Onward.trans (onward : Onward start terms) (further : Onward terms others) : Onward start others :=
  ⟨fun i => (further.offset i).trans (onward.offset i), fun i => (further.choices i).trans (onward.choices i)⟩

theorem Onward.set (stream : (terms.get i).postings.unread = position :: unread) :
    Onward terms (terms.set i ((terms.get i).onto position unread) i.isLt) := by
  refine ⟨fun j => ?_, fun j => ?_⟩
  · rw [get_set]
    split
    next same =>
      subst same
      rfl
    next => rfl
  · rw [get_set]
    split
    next same =>
      subst same
      rw [choices_onto stream]
      exact List.suffix_cons _ _
    next => exact List.suffix_refl _

theorem Onward.sorted (onward : Onward terms others) (sorted : (terms.get i).choices.Pairwise (· ≤ ·)) :
    (others.get i).choices.Pairwise (· ≤ ·) :=
  sorted.sublist (onward.choices i).sublist

theorem Onward.shifted_le (onward : Onward terms others) (sorted : (terms.get i).choices.Pairwise (· ≤ ·)) :
    (terms.get i).shifted ≤ (others.get i).shifted := by
  have member : (others.get i).shifted ∈ (terms.get i).choices := (onward.choices i).subset List.mem_cons_self
  rcases List.mem_cons.mp member with same | later
  · exact same.ge
  · exact (List.pairwise_cons.mp sorted).1 _ later

end Onward

theorem skip_yields (i : Fin n) (count : Nat) (readable : Readable terms) :
    (skip i count terms).Yields fun enough after => Readable after ∧ Onward terms after ∧
      (∀ j, i ≠ j → after.get j = terms.get j) ∧
      (enough = true → (after.get i).choices = (terms.get i).choices.drop count) := by
  induction count generalizing terms with
  | zero => exact ⟨true, terms, rfl, readable, .refl _, fun _ _ => rfl, fun _ => rfl⟩
  | succ count ih =>
    rcases readTerm_yields readable i with ⟨-, same⟩ | ⟨position, unread, stream, same, after, -⟩
    · exact ⟨false, terms, by rw [skip, same], readable, .refl _, fun _ _ => rfl, fun enough => by cases enough⟩
    · rw [skip, same]
      refine (ih after).mono fun enough final all => ?_
      obtain ⟨readableFinal, further, elsewhere, skipped⟩ := all
      refine ⟨readableFinal, (Onward.set stream).trans further, fun j other => ?_, fun more => ?_⟩
      · rw [elsewhere j other, get_set, if_neg other]
      · rw [skipped more, get_set, if_pos rfl, choices_onto stream, List.drop_succ_cons]

theorem spread_yields (counts : List (Fin n × Nat)) (readable : Readable terms) :
    (spread counts terms).Yields fun enough after => Readable after ∧ Onward terms after ∧
      (∀ j, j ∉ counts.map Prod.fst → after.get j = terms.get j) ∧
      (enough = true → (counts.map Prod.fst).Nodup → ∀ i count, (i, count) ∈ counts →
        (after.get i).choices = (terms.get i).choices.drop count) := by
  induction counts generalizing terms with
  | nil => exact ⟨true, terms, rfl, readable, .refl _, fun _ _ => rfl, fun _ _ _ _ member => by cases member⟩
  | cons first rest ih =>
    obtain ⟨i, count⟩ := first
    obtain ⟨enough, middle, same, readableMiddle, onward, elsewhere, skipped⟩ := skip_yields i count readable
    have unlisted : ∀ j, j ∉ ((i, count) :: rest).map Prod.fst → i ≠ j ∧ j ∉ rest.map Prod.fst := by
      intro j absent
      rw [List.map_cons, List.mem_cons, not_or] at absent
      exact ⟨Ne.symm absent.1, absent.2⟩
    rw [spread, same]
    cases enough with
    | false =>
      exact ⟨false, middle, rfl, readableMiddle, onward, fun j absent => elsewhere j (unlisted j absent).1,
        fun more => by cases more⟩
    | true =>
      refine (ih readableMiddle).mono fun enough after all => ?_
      obtain ⟨readableAfter, further, kept, restSkipped⟩ := all
      refine ⟨readableAfter, onward.trans further, fun j absent => ?_, fun more distinct j skips member => ?_⟩
      · rw [kept j (unlisted j absent).2, elsewhere j (unlisted j absent).1]
      · rw [List.map_cons, List.nodup_cons] at distinct
        rcases List.mem_cons.mp member with head | later
        · obtain ⟨rfl, rfl⟩ := Prod.mk.inj head
          rw [kept j distinct.1, skipped rfl]
        · have listed : j ∈ rest.map Prod.fst := List.mem_map_of_mem later
          have other : i ≠ j := fun same => distinct.1 (same ▸ listed)
          rw [restSkipped more distinct.2 j skips later, elsewhere j other]

theorem separate_yields (groups : List (List (Fin n))) (first : Fin n) (reads : Nat)
    (walk : SloppyWalk PositionStream S n) (readable : Readable walk.terms) (current : Fin n) (disturbed : Bool)
    (enough : left walk.terms < reads) :
    (separate groups first reads walk current disturbed).Yields fun _ after =>
      Readable after.terms ∧ left after.terms ≤ left walk.terms := by
  -- Each reading leaves one position less, so there are enough of them to part colliding terms.
  induction reads generalizing walk current disturbed with
  | zero => omega
  | succ reads ih =>
    rw [separate]
    cases collision groups walk.terms current with
    | none =>
      refine ⟨true, if disturbed then walk.requeue else walk, rfl, ?_⟩
      split
      · exact ⟨readable, le_rfl⟩
      · exact ⟨readable, le_rfl⟩
    | some other =>
      rcases move_yields walk readable (lesser walk.terms current other) with
        ⟨-, same⟩ | ⟨position, unread, -, same, after, fewer⟩
      · exact ⟨false, walk, by simp only [same], readable, le_rfl⟩
      · simp only [same]
        refine (ih _ after _ _ (show left (walk.terms.set _ _) < reads by omega)).mono
          fun answer final both => ⟨both.1, both.2.trans ?_⟩
        change left (walk.terms.set _ _) ≤ left walk.terms
        omega

section Judge

variable [Score S] (walk : SloppyWalk PositionStream S n) (relevance : Relevance S) (slop span : Int)

theorem judge_terms : (walk.judge relevance slop span).terms = walk.terms := by
  unfold judge
  split
  · rfl
  · rfl

theorem judge_queue : (walk.judge relevance slop span).queue = walk.queue := by
  unfold judge
  split
  · rfl
  · rfl

theorem judge_largest : (walk.judge relevance slop span).largest = walk.largest := by
  unfold judge
  split
  · rfl
  · rfl

theorem judge_occurrences : (walk.judge relevance slop span).occurrences =
    walk.occurrences + if span ≤ slop then 1 else 0 := by
  unfold judge
  split
  · rfl
  · rfl

end Judge

theorem run_yields [Score S] (groups : List (List (Fin n))) (relevance : Relevance S) (slop : Int)
    (reads : Nat) (walk : SloppyWalk PositionStream S n) (readable : Readable walk.terms) (current : Fin n)
    (span next : Int) (enough : left walk.terms < reads) :
    (run groups relevance slop reads walk current span next).Yields fun _ _ => True := by
  -- Each turn leaves one position less, so there are enough of them for a whole walk.
  induction reads generalizing walk current span next with
  | zero => omega
  | succ reads ih =>
    rcases move_yields walk readable current with ⟨-, same⟩ | ⟨position, unread, -, same, after, fewer⟩
    · exact ⟨(), _, by rw [run, same], trivial⟩
    · rw [run, same]
      generalize walk.terms.set current ((walk.terms.get current).onto position unread) = terms at after fewer
      generalize max walk.largest (position - (walk.terms.get current).offset) = largest
      obtain ⟨more, parted, separated, readableParted, fewerParted⟩ := separate_yields groups current
        (SloppyWalk.readBound { walk with terms, largest }) { walk with terms, largest } after current false
        (by rw [readBound_eq]; exact Nat.lt_succ_self _)
      simp only [separated]
      have remaining : left parted.terms < reads := by
        change _ ≤ left terms at fewerParted
        omega
      cases more with
      | false => exact ⟨(), _, rfl, trivial⟩
      | true =>
        simp only
        split
        · cases enqueue (parted.judge relevance slop span).terms (parted.judge relevance slop span).queue
            current with
          | nil => exact ⟨(), _, rfl, trivial⟩
          | cons first queue =>
            refine ih { parted.judge relevance slop span with queue } ?_ _ _ _ ?_
            · change Readable (parted.judge relevance slop span).terms
              rwa [judge_terms]
            · change left (parted.judge relevance slop span).terms < reads
              rwa [judge_terms]
        · exact ih parted readableParted _ _ _ remaining

theorem complete_yields [Score S] (groups : List (List (Fin n))) (relevance : Relevance S) (slop : Int)
    (readable : Readable walk.terms) : (walk.complete groups relevance slop).Yields fun _ _ => True := by
  rw [complete]
  cases walk.queue with
  | nil => exact ⟨(), walk, rfl, trivial⟩
  | cons first queue =>
    refine run_yields groups relevance slop _ { walk with queue } readable _ _ _ ?_
    rw [readBound_eq]
    exact Nat.lt_succ_self _

section Queue

variable {queue : List (QueuedTerm n)} {places : List (Fin n)}

structure Waits (terms : Vector (SloppyTerm PositionStream) n) (queue : List (QueuedTerm n))
    (places : List (Fin n)) : Prop where
  perm : (queue.map (·.index)).Perm places
  shifted : ∀ queued ∈ queue, queued.shifted = (terms.get queued.index).shifted
  inOrder : queue.Pairwise fun a b => a.shifted ≤ b.shifted

theorem shifted_le_of_before {a b : QueuedTerm n} (ordered : a.before b = true) : a.shifted ≤ b.shifted := by
  simp only [QueuedTerm.before, Bool.or_eq_true, Bool.and_eq_true, decide_eq_true_eq, beq_iff_eq] at ordered
  omega

theorem shifted_le_of_not_before {a b : QueuedTerm n} (unordered : a.before b = false) :
    b.shifted ≤ a.shifted := by
  have differs := Bool.eq_false_iff.mp unordered
  simp only [QueuedTerm.before, ne_eq, Bool.or_eq_true, decide_eq_true_eq, not_or] at differs
  omega

theorem insert_inOrder (queued : QueuedTerm n) (inOrder : queue.Pairwise fun a b => a.shifted ≤ b.shifted) :
    (StableSort.insert QueuedTerm.before queued queue).Pairwise fun a b => a.shifted ≤ b.shifted := by
  induction queue with
  | nil => exact List.pairwise_singleton _ _
  | cons first rest ih =>
    have later := inOrder
    rw [List.pairwise_cons] at later
    unfold StableSort.insert
    split
    next ordered =>
      have le := shifted_le_of_before ordered
      refine List.pairwise_cons.mpr ⟨fun other member => ?_, inOrder⟩
      rcases List.mem_cons.mp member with rfl | listed
      · exact le
      · exact le.trans (later.1 other listed)
    next unordered =>
      refine List.pairwise_cons.mpr ⟨fun other member => ?_, ih later.2⟩
      rcases List.mem_cons.mp ((StableSort.insert_perm _ _ _).mem_iff.mp member) with rfl | listed
      · exact shifted_le_of_not_before (Bool.eq_false_iff.mpr unordered)
      · exact later.1 other listed

theorem Waits.enqueue (waits : Waits terms queue places) (i : Fin n) :
    Waits terms (enqueue terms queue i) (i :: places) where
  perm := ((StableSort.insert_perm _ _ _).map _).trans (waits.perm.cons i)
  shifted queued member := by
    rcases List.mem_cons.mp ((StableSort.insert_perm _ _ _).mem_iff.mp member) with rfl | listed
    · rfl
    · exact waits.shifted queued listed
  inOrder := insert_inOrder _ waits.inOrder

theorem Waits.foldl (waits : Waits terms queue places) (more : List (Fin n)) :
    Waits terms (more.foldl (SloppyWalk.enqueue terms) queue) (more.reverse ++ places) := by
  induction more generalizing queue places with
  | nil => exact waits
  | cons i more ih =>
    rw [List.foldl_cons, List.reverse_cons, List.append_assoc]
    exact ih (waits.enqueue i)

theorem Waits.tail {first : QueuedTerm n} {rest : List (QueuedTerm n)} (waits : Waits terms (first :: rest) places) :
    Waits terms rest (rest.map (·.index)) ∧ (first.index :: rest.map (·.index)).Perm places ∧
      ∀ queued ∈ rest, (terms.get first.index).shifted ≤ (terms.get queued.index).shifted := by
  have inOrder := List.pairwise_cons.mp waits.inOrder
  have shifted := fun queued member => waits.shifted queued (List.mem_cons_of_mem first member)
  refine ⟨⟨.refl _, shifted, inOrder.2⟩, waits.perm, fun queued member => ?_⟩
  have le := inOrder.1 queued member
  rwa [waits.shifted first List.mem_cons_self, shifted queued member] at le

theorem Waits.congr {others : Vector (SloppyTerm PositionStream) n} (waits : Waits terms queue places)
    (same : ∀ i ∈ places, (others.get i).shifted = (terms.get i).shifted) : Waits others queue places :=
  ⟨waits.perm, fun queued member => (waits.shifted queued member).trans
    (same _ (waits.perm.mem_iff.mp (List.mem_map_of_mem member))).symm, waits.inOrder⟩

theorem Waits.nextShifted_le (waits : Waits terms queue places) (inside : i ∈ places) :
    nextShifted queue ≤ (terms.get i).shifted := by
  obtain ⟨queued, member, rfl⟩ := List.mem_map.mp (waits.perm.mem_iff.mpr inside)
  rw [← waits.shifted queued member]
  cases queue with
  | nil => cases member
  | cons first rest =>
    rcases List.mem_cons.mp member with rfl | later
    · exact le_rfl
    · exact (List.pairwise_cons.mp waits.inOrder).1 queued later

end Queue

section Counts

variable [Score S] {relevance : Relevance S} {slop span : Int}

/-- A frequency that is zero as long as nothing has been counted and positive from then on. -/
def Counts (freq : S) : Prop := freq = Score.zero ∨ Score.isPositive freq = true

def Rewards (relevance : Relevance S) (slop : Int) : Prop :=
  ∀ distance, 0 ≤ distance → distance ≤ slop → Score.isPositive (relevance.slopFactor distance) = true

theorem judge_counts [Score.SumsUp S] (walk : SloppyWalk PositionStream S n) (rewards : Rewards relevance slop)
    (nonneg : 0 ≤ span) (counts : Counts walk.freq) :
    Counts (walk.judge relevance slop span).freq ∧
      (Score.isPositive (walk.judge relevance slop span).freq = true ↔
        Score.isPositive walk.freq = true ∨ span ≤ slop) := by
  unfold SloppyWalk.judge
  split
  next within =>
    have positive : Score.isPositive (walk.freq + relevance.slopFactor span) = true := by
      rcases counts with zero | positive
      · rw [zero]
        exact Score.SumsUp.first (rewards span nonneg within)
      · exact Score.SumsUp.more positive (rewards span nonneg within)
    exact ⟨.inr positive, by simp [positive, within]⟩
  next beyond => exact ⟨counts, by simp [beyond]⟩

end Counts

structure Steady (terms : Vector (SloppyTerm PositionStream) n) (largest : Int) : Prop where
  readable : Readable terms
  sorted : ∀ i : Fin n, (terms.get i).choices.Pairwise (· ≤ ·)
  greatest : IsGreatest (Set.range fun i : Fin n => (terms.get i).shifted) largest

section Steady

variable {others : Vector (SloppyTerm PositionStream) n} {largest number : Int}

theorem greatest_raised (greatest : IsGreatest (Set.range fun i : Fin n => (terms.get i).shifted) largest)
    (rises : (terms.get i).shifted ≤ number) (here : (others.get i).shifted = number)
    (elsewhere : ∀ j : Fin n, i ≠ j → others.get j = terms.get j) :
    IsGreatest (Set.range fun j : Fin n => (others.get j).shifted) (max largest number) := by
  constructor
  · obtain ⟨j, top⟩ := greatest.1
    change (terms.get j).shifted = largest at top
    by_cases reached : largest ≤ number
    · exact ⟨i, here.trans (max_eq_right reached).symm⟩
    · have other : i ≠ j := by
        rintro rfl
        exact reached (top ▸ rises)
      have kept : (others.get j).shifted = largest := by rw [elsewhere j other, top]
      exact ⟨j, kept.trans (max_eq_left (not_le.mp reached).le).symm⟩
  · rintro _ ⟨j, rfl⟩
    change (others.get j).shifted ≤ _
    by_cases same : i = j
    · subst same
      exact here.trans_le (le_max_right _ _)
    · rw [elsewhere j same]
      exact (greatest.2 (Set.mem_range_self j)).trans (le_max_left _ _)

theorem Steady.rises (steady : Steady terms largest) (stream : (terms.get i).postings.unread = position :: unread) :
    (terms.get i).shifted ≤ position - (terms.get i).offset := by
  have sorted := steady.sorted i
  rw [choices_onto stream, List.pairwise_cons] at sorted
  exact sorted.1 _ List.mem_cons_self

theorem Steady.moved (steady : Steady terms largest) (stream : (terms.get i).postings.unread = position :: unread)
    (readable : Readable others) (here : others.get i = (terms.get i).onto position unread)
    (elsewhere : ∀ j : Fin n, i ≠ j → others.get j = terms.get j) :
    Steady others (max largest (position - (terms.get i).offset)) := by
  refine ⟨readable, fun j => ?_, greatest_raised steady.greatest (steady.rises stream) (by rw [here]; rfl) elsewhere⟩
  by_cases same : i = j
  · subst same
    have sorted := steady.sorted i
    rw [choices_onto stream, List.pairwise_cons] at sorted
    rw [here]
    exact sorted.2
  · rw [elsewhere j same]
    exact steady.sorted j

end Steady

/-- A walk in which it is the turn of one term: it has the smallest shifted position, and all others wait.
`span` is the shortest span that has not been judged yet. -/
structure OnTurn (walk : SloppyWalk PositionStream S n) (current : Fin n) (span : Int) : Prop where
  readable : Readable walk.terms
  sorted : ∀ i : Fin n, (walk.terms.get i).choices.Pairwise (· ≤ ·)
  waits : Waits walk.terms walk.queue (walk.queue.map (·.index))
  everyone : (current :: walk.queue.map (·.index)).Perm (List.finRange n)
  least : ∀ i : Fin n, (walk.terms.get current).shifted ≤ (walk.terms.get i).shifted
  greatest : IsGreatest (Set.range fun i : Fin n => (walk.terms.get i).shifted) walk.largest
  nonneg : 0 ≤ span
  span_le : span ≤ walk.largest - (walk.terms.get current).shifted

namespace OnTurn

variable {current : Fin n} {span slop : Int}

theorem steady (turn : OnTurn walk current span) : Steady walk.terms walk.largest :=
  ⟨turn.readable, turn.sorted, turn.greatest⟩

theorem close_of_present (turn : OnTurn walk current span)
    (within : walk.largest - (walk.terms.get current).shifted ≤ slop) :
    Close (fun i => (walk.terms.get i).choices) slop := by
  refine ⟨fun i => (walk.terms.get i).shifted, fun i => List.mem_cons_self, fun i j => ?_⟩
  have upper : (walk.terms.get i).shifted ≤ walk.largest := turn.greatest.2 (Set.mem_range_self i)
  have lower := turn.least j
  change (walk.terms.get i).shifted - (walk.terms.get j).shifted ≤ slop
  omega

/-- In a close choice that takes the present position of the current term, all others lie at or before
theirs. -/
theorem span_le_of_close (turn : OnTurn walk current span) {choice : Fin n → Int}
    (listed : ∀ i, choice i ∈ (walk.terms.get i).choices) (near : ∀ i j, choice i - choice j ≤ slop)
    (present : choice current = (walk.terms.get current).shifted) : span ≤ slop := by
  obtain ⟨i, top⟩ := turn.greatest.1
  change (walk.terms.get i).shifted = walk.largest at top
  have before : (walk.terms.get i).shifted ≤ choice i := by
    rcases List.mem_cons.mp (listed i) with same | later
    · exact same.ge
    · exact (List.pairwise_cons.mp (turn.sorted i)).1 _ later
  have together := near i current
  have within := turn.span_le
  omega

structure Moved (walk : SloppyWalk PositionStream S n) (current : Fin n) (span : Int)
    (terms : Vector (SloppyTerm PositionStream) n) (largest : Int) : Prop where
  readable : Readable terms
  sorted : ∀ i : Fin n, (terms.get i).choices.Pairwise (· ≤ ·)
  waits : Waits terms walk.queue (walk.queue.map (·.index))
  greatest : IsGreatest (Set.range fun i : Fin n => (terms.get i).shifted) largest
  narrower : ∀ slop, Close (fun i => (terms.get i).choices) slop → Close (fun i => (walk.terms.get i).choices) slop
  /-- A close choice is still ahead, unless the current term has just left its place in it. -/
  ahead : ∀ slop, Close (fun i => (walk.terms.get i).choices) slop →
    span ≤ slop ∨ Close (fun i => (terms.get i).choices) slop

theorem moved {terms : Vector (SloppyTerm PositionStream) n} (turn : OnTurn walk current span)
    (stream : (walk.terms.get current).postings.unread = position :: unread) (readable : Readable terms)
    (here : terms.get current = (walk.terms.get current).onto position unread)
    (elsewhere : ∀ i : Fin n, current ≠ i → terms.get i = walk.terms.get i) :
    Moved walk current span terms (max walk.largest (position - (walk.terms.get current).offset)) := by
  have split := choices_onto stream
  have steady := turn.steady.moved stream readable here elsewhere
  have distinct := turn.everyone.nodup_iff.mpr (List.nodup_finRange n)
  rw [List.nodup_cons] at distinct
  have within : ∀ i : Fin n, (terms.get i).choices ⊆ (walk.terms.get i).choices := by
    intro i
    by_cases same : current = i
    · subst same
      rw [here, split]
      exact List.subset_cons_self _ _
    · rw [elsewhere i same]
      exact List.Subset.refl _
  refine ⟨readable, steady.sorted, turn.waits.congr fun i member => ?_, steady.greatest,
    fun slop close => close.mono within, fun slop ⟨choice, listed, near⟩ => ?_⟩
  · rw [elsewhere i fun same => distinct.1 (same ▸ member)]
  · have chosen : choice current ∈ (walk.terms.get current).choices := listed current
    rw [split] at chosen
    rcases List.mem_cons.mp chosen with present | later
    · exact .inl (turn.span_le_of_close listed near present)
    · refine .inr ⟨choice, fun i => ?_, near⟩
      change choice i ∈ (terms.get i).choices
      by_cases same : current = i
      · subst same
        rw [here]
        exact later
      · rw [elsewhere i same]
        exact listed i

theorem Moved.close_iff {terms : Vector (SloppyTerm PositionStream) n} {largest after slop : Int}
    (moved : Moved walk current span terms largest)
    (present : after ≤ slop → Close (fun i => (terms.get i).choices) slop) :
    span ≤ slop ∨ after ≤ slop ∨ Close (fun i => (terms.get i).choices) slop ↔
      span ≤ slop ∨ Close (fun i => (walk.terms.get i).choices) slop := by
  constructor
  · rintro (within | seen | close)
    · exact .inl within
    · exact .inr (moved.narrower slop (present seen))
    · exact .inr (moved.narrower slop close)
  · rintro (within | close)
    · exact .inl within
    · exact (moved.ahead slop close).imp_right .inr

theorem of_le {next : Int} (steady : Steady walk.terms walk.largest)
    (waits : Waits walk.terms walk.queue (walk.queue.map (·.index)))
    (everyone : (current :: walk.queue.map (·.index)).Perm (List.finRange n))
    (behind : ∀ i ∈ walk.queue.map (·.index), next ≤ (walk.terms.get i).shifted)
    (first : (walk.terms.get current).shifted ≤ next) (nonneg : 0 ≤ span) :
    OnTurn walk current (min span (walk.largest - (walk.terms.get current).shifted)) where
  readable := steady.readable
  sorted := steady.sorted
  waits := waits
  everyone := everyone
  least i := by
    have listed := everyone.mem_iff.mpr (List.mem_finRange i)
    rcases List.mem_cons.mp listed with rfl | waiting
    · exact le_rfl
    · exact first.trans (behind i waiting)
  greatest := steady.greatest
  nonneg := le_min nonneg (sub_nonneg.mpr (steady.greatest.2 (Set.mem_range_self current)))
  span_le := min_le_right _ _

theorem Moved.stays {terms : Vector (SloppyTerm PositionStream) n} {largest : Int}
    (turn : OnTurn walk current span) (moved : Moved walk current span terms largest)
    (first : (terms.get current).shifted ≤ nextShifted walk.queue) :
    OnTurn { walk with terms, largest } current (min span (largest - (terms.get current).shifted)) :=
  .of_le ⟨moved.readable, moved.sorted, moved.greatest⟩ moved.waits
    turn.everyone (fun _ => moved.waits.nextShifted_le) first turn.nonneg

theorem of_waits {terms : Vector (SloppyTerm PositionStream) n} {largest : Int} {first : QueuedTerm n}
    {queue : List (QueuedTerm n)} {freq : S} {occurrences : Nat} {places : List (Fin n)}
    (readable : Readable terms) (sorted : ∀ i : Fin n, (terms.get i).choices.Pairwise (· ≤ ·))
    (greatest : IsGreatest (Set.range fun i : Fin n => (terms.get i).shifted) largest)
    (waits : Waits terms (first :: queue) places) (everyone : places.Perm (List.finRange n)) :
    OnTurn ⟨terms, largest, queue, freq, occurrences⟩ first.index (largest - (terms.get first.index).shifted) := by
  obtain ⟨rest, perm, le⟩ := waits.tail
  refine ⟨readable, sorted, rest, perm.trans everyone, fun i => ?_, greatest,
    sub_nonneg.mpr (greatest.2 (Set.mem_range_self first.index)), le_rfl⟩
  have listed := (perm.trans everyone).mem_iff.mpr (List.mem_finRange i)
  rcases List.mem_cons.mp listed with same | waiting
  · rw [same]
  · obtain ⟨queued, member, same⟩ := List.mem_map.mp waiting
    exact same ▸ le queued member

end OnTurn

variable [Score S] [Score.SumsUp S] {relevance : Relevance S} {slop : Int}

omit [Score S] [Score.SumsUp S] in
theorem separate_nil (first current : Fin n) (reads : Nat) (walk : SloppyWalk PositionStream S n) :
    separate [] first (reads + 1) walk current false = (.ok true, walk) := rfl

/-- From a turn on, something is counted if and only if it has been before, the span is within the slop, or
a close choice is still ahead. -/
theorem run_counts (rewards : Rewards relevance slop) (reads : Nat) (walk : SloppyWalk PositionStream S n)
    (current : Fin n) (span : Int) (turn : OnTurn walk current span) (counts : Counts walk.freq)
    (enough : left walk.terms < reads) :
    (run [] relevance slop reads walk current span (nextShifted walk.queue)).Yields fun _ after =>
      Counts after.freq ∧ (Score.isPositive after.freq = true ↔ Score.isPositive walk.freq = true ∨
        span ≤ slop ∨ Close (fun i => (walk.terms.get i).choices) slop) := by
  induction reads generalizing walk current span with
  | zero => omega
  | succ reads ih =>
    rcases move_yields walk turn.readable current with
      ⟨ended, same⟩ | ⟨position, unread, stream, same, readable, fewer⟩
    · obtain ⟨countsAfter, positive⟩ := judge_counts walk rewards turn.nonneg counts
      rw [run, same]
      refine ⟨(), _, rfl, countsAfter, positive.trans (or_congr_right ⟨.inl, ?_⟩)⟩
      rintro (within | ⟨choice, listed, near⟩)
      · exact within
      · refine turn.span_le_of_close listed near ?_
        have chosen : choice current ∈ (walk.terms.get current).choices := listed current
        rw [SloppyTerm.choices, ended, List.map_nil, List.mem_singleton] at chosen
        exact chosen
    · have moved := turn.moved stream readable (by rw [get_set, if_pos rfl])
        fun i other => by rw [get_set, if_neg other]
      rw [run, same]
      generalize walk.terms.set current ((walk.terms.get current).onto position unread) = terms at moved fewer
      generalize max walk.largest (position - (walk.terms.get current).offset) = largest at moved
      have alone : separate [] current (readBound { walk with terms, largest })
          { walk with terms, largest } current false = (.ok true, { walk with terms, largest }) := by
        rw [readBound_eq, separate_nil]
      have remaining : left terms < reads := by omega
      simp only [alone]
      split
      next passed =>
        obtain ⟨countsJudged, judged⟩ := judge_counts { walk with terms, largest } rewards turn.nonneg counts
        simp only [judge_terms, judge_queue, judge_largest]
        have waits := moved.waits.enqueue current
        cases queued : enqueue terms walk.queue current with
        | nil =>
          rw [queued] at waits
          cases waits.perm.length_eq
        | cons first queue =>
          rw [queued] at waits
          have next : ∀ freq occurrences, OnTurn (S := S) ⟨terms, largest, queue, freq, occurrences⟩ first.index
              (largest - (terms.get first.index).shifted) :=
            fun _ _ => .of_waits moved.readable moved.sorted moved.greatest waits turn.everyone
          obtain ⟨answer, after, ran, countsAfter, positive⟩ := ih _ _ _ (next _ _) countsJudged remaining
          refine ⟨answer, after, ran, countsAfter, positive.trans ?_⟩
          rw [judged, or_assoc]
          exact or_congr_right (moved.close_iff (next walk.freq walk.occurrences).close_of_present)
      next level =>
        have stays := moved.stays turn (not_lt.mp level)
        obtain ⟨answer, after, ran, countsAfter, positive⟩ := ih _ current _ stays counts remaining
        refine ⟨answer, after, ran, countsAfter, positive.trans (or_congr_right ?_)⟩
        rw [min_le_iff, or_assoc]
        exact moved.close_iff stays.close_of_present

end SloppyWalk

end PostingQuery
