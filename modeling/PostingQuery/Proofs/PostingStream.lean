import Mathlib
import PostingQuery.Posting.List

/-!
Posting lists as streams. Where a list stands and which postings lie ahead of it decide all its answers, so that no
index is needed to say what they are: a move drops some of the postings ahead and goes to the front of the others.
-/

namespace PostingQuery

inductive PostingPlace where
  | unplaced
  | reading (posting : Posting) (unread : List Int)
  | usedUp

def PostingPlace.doc : PostingPlace → DocId
  | unplaced => unpositioned
  | reading posting _ => posting.doc
  | usedUp => noMoreDocs

structure PostingStream where
  place : PostingPlace
  ahead : List Posting

namespace PostingStream

def moveTo : List Posting → Step PostingStream DocId
  | [] => (.ok noMoreDocs, ⟨.usedUp, []⟩)
  | posting :: rest => (.ok posting.doc, ⟨.reading posting posting.positions, rest⟩)

def next (stream : PostingStream) : Step PostingStream DocId := moveTo stream.ahead

def advance (stream : PostingStream) (target : DocId) : Step PostingStream DocId :=
  moveTo (stream.ahead.dropWhile fun posting => posting.doc < target)

def freq (stream : PostingStream) : Except Failure Int :=
  match stream.place with
  | .reading posting _ => .ok posting.freq
  | _ => .error (.posting .notOnDocument)

def nextPosition (stream : PostingStream) : Step PostingStream Int :=
  match stream.place with
  | .reading posting (position :: unread) => (.ok position, { stream with place := .reading posting unread })
  | .reading posting [] => (.error (.posting (.positionsUsedUp posting.doc)), stream)
  | _ => (.error (.posting .notOnDocument), stream)

end PostingStream

namespace Posting

variable {postings : Array Posting}

theorem lowerBound_separates (target : DocId) (sorted : postings.toList.Pairwise fun a b => a.doc < b.doc) {low high : Nat}
    (inside : high ≤ postings.size) (le : low ≤ high) :
    low ≤ lowerBound postings target low high inside ∧ lowerBound postings target low high inside ≤ high ∧
      (∀ (i : Nat) (bound : i < postings.size), low ≤ i → i < lowerBound postings target low high inside →
        postings[i].doc < target) ∧
      ∀ (i : Nat) (bound : i < postings.size), lowerBound postings target low high inside ≤ i → i < high →
        target ≤ postings[i].doc := by
  have increasing : ∀ (i j : Nat) (first : i < postings.size) (second : j < postings.size), i ≤ j →
      postings[i].doc ≤ postings[j].doc := by
    intro i j first second before
    rcases before.eq_or_lt with same | less
    · subst same
      exact le_rfl
    · exact (List.pairwise_iff_getElem.mp sorted i j first second less).le
  fun_induction lowerBound postings target low high inside with
  | case1 low high inside undecided middle early ih =>
    obtain ⟨above, below, before, from_there⟩ := ih (by omega)
    refine ⟨by omega, below, fun i bound reached less => ?_, from_there⟩
    by_cases passed : i ≤ middle
    · exact (increasing i middle bound (by omega) passed).trans_lt early
    · exact before i bound (by omega) less
  | case2 low high inside undecided middle late ih =>
    obtain ⟨above, below, before, from_there⟩ := ih (by omega)
    refine ⟨above, by omega, before, fun i bound reached less => ?_⟩
    by_cases passed : i < middle
    · exact from_there i bound reached passed
    · exact (not_lt.mp late).trans (increasing middle i (by omega) bound (not_lt.mp passed))
  | case3 low high inside decided =>
    exact ⟨le_rfl, le, fun i _ reached less => absurd reached (not_le.mpr less), fun i _ reached less => by omega⟩

/-- What lies ahead of the index that halving finds are the postings that are left once those before the target are
dropped. -/
theorem drop_lowerBound (target : DocId) (sorted : postings.toList.Pairwise fun a b => a.doc < b.doc) {start : Nat}
    (inside : start ≤ postings.size) :
    postings.toList.drop (lowerBound postings target start postings.size le_rfl) =
      (postings.toList.drop start).dropWhile fun posting => posting.doc < target := by
  obtain ⟨above, below, before, from_there⟩ := lowerBound_separates target sorted le_rfl inside
  generalize lowerBound postings target start postings.size le_rfl = found at *
  have split : postings.toList.drop start =
      (postings.toList.drop start).take (found - start) ++ postings.toList.drop found := by
    have left : postings.toList.drop found = (postings.toList.drop start).drop (found - start) := by
      rw [List.drop_drop, Nat.add_sub_cancel' above]
    rw [left, List.take_append_drop]
  have early : ∀ posting ∈ (postings.toList.drop start).take (found - start), posting.doc < target := by
    intro posting member
    obtain ⟨i, bound, rfl⟩ := List.mem_iff_getElem.mp member
    rw [List.length_take, List.length_drop, Array.length_toList] at bound
    rw [List.getElem_take, List.getElem_drop, Array.getElem_toList]
    exact before (start + i) (by omega) (Nat.le_add_right _ _) (by omega)
  rw [split, List.dropWhile_append_of_pos fun posting member => decide_eq_true (early posting member)]
  symm
  rw [List.dropWhile_eq_self_iff]
  intro nonempty
  rw [List.length_drop, Array.length_toList] at nonempty
  rw [decide_eq_true_iff, not_lt, List.getElem_drop, Array.getElem_toList]
  exact from_there found (by omega) le_rfl (by omega)

end Posting

namespace PostingList

def place (list : PostingList) : PostingPlace :=
  match list.cursor with
  | none => .unplaced
  | some index =>
    match list.postings[index]? with
    | some posting => .reading posting (posting.positions.drop list.read)
    | none => .usedUp

/-- A posting list shows a stream: the postings behind its index lie ahead, and it has noted the document where it
stands. -/
structure Shows (list : PostingList) (stream : PostingStream) : Prop where
  sorted : list.postings.toList.Pairwise fun a b => a.doc < b.doc
  doc : list.doc = stream.place.doc
  place : list.place = stream.place
  ahead : list.postings.toList.drop list.nextIndex = stream.ahead

variable {list : PostingList} {stream : PostingStream}

theorem shows_fresh {postings : List Posting} (sorted : postings.Pairwise fun a b => a.doc < b.doc) :
    Shows (fresh postings) ⟨.unplaced, postings⟩ :=
  ⟨sorted, rfl, rfl, rfl⟩

theorem Shows.moveTo (shows : list.Shows stream) (index : Nat) :
    (list.moveTo index).1 = (PostingStream.moveTo (list.postings.toList.drop index)).1 ∧
      (list.moveTo index).2.Shows (PostingStream.moveTo (list.postings.toList.drop index)).2 := by
  cases found : list.postings[index]? with
  | none =>
    have beyond : list.postings.toList.length ≤ index := Array.getElem?_eq_none_iff.mp found
    rw [List.drop_eq_nil_of_le beyond]
    have doc : (list.moveTo index).2.doc = noMoreDocs := by simp only [PostingList.moveTo, found]
    refine ⟨congrArg Except.ok doc, shows.sorted, doc, ?_, ?_⟩
    · simp only [PostingList.place, PostingList.moveTo, found, PostingStream.moveTo]
    · exact List.drop_eq_nil_of_le (beyond.trans (Nat.le_succ index))
  | some posting =>
    obtain ⟨bound, here⟩ := Array.getElem?_eq_some_iff.mp found
    have first : list.postings.toList.drop index = posting :: list.postings.toList.drop (index + 1) := by
      rw [List.drop_eq_getElem_cons (by rwa [Array.length_toList]), Array.getElem_toList, here]
    rw [first]
    have doc : (list.moveTo index).2.doc = posting.doc := by simp only [PostingList.moveTo, found]
    refine ⟨congrArg Except.ok doc, shows.sorted, doc, ?_, rfl⟩
    simp only [PostingList.place, PostingList.moveTo, found, PostingStream.moveTo, List.drop_zero]

theorem Shows.next (shows : list.Shows stream) :
    (Cursor.next list).1 = stream.next.1 ∧ (Cursor.next list).2.Shows stream.next.2 := by
  rw [PostingStream.next, ← shows.ahead]
  exact shows.moveTo list.nextIndex

theorem Shows.advance (shows : list.Shows stream) (target : DocId) :
    (Cursor.advance list target).1 = (stream.advance target).1 ∧
      (Cursor.advance list target).2.Shows (stream.advance target).2 := by
  have start : list.postings.toList.drop (min list.nextIndex list.postings.size) = stream.ahead := by
    rw [← shows.ahead]
    rcases le_total list.nextIndex list.postings.size with inside | beyond
    · rw [min_eq_left inside]
    · rw [min_eq_right beyond, List.drop_eq_nil_of_le (Array.length_toList).le, List.drop_eq_nil_of_le beyond]
  rw [PostingStream.advance, ← start, ← Posting.drop_lowerBound target shows.sorted (min_le_right _ _)]
  exact shows.moveTo _

theorem current_eq (list : PostingList) :
    list.current = match list.place with
      | .reading posting _ => .ok posting
      | _ => .error (.posting .notOnDocument) := by
  unfold current place
  cases list.cursor with
  | none => rfl
  | some index =>
    simp only [Option.bind_some]
    cases list.postings[index]? with
    | none => rfl
    | some posting => rfl

theorem Shows.freq (shows : list.Shows stream) : list.freq = stream.freq := by
  rw [PostingList.freq, current_eq, shows.place, PostingStream.freq]
  cases stream.place with
  | unplaced => rfl
  | reading posting unread => rfl
  | usedUp => rfl

theorem exists_index_of_reading {posting : Posting} {unread : List Int} (here : list.place = .reading posting unread) :
    ∃ index, list.cursor = some index ∧ list.postings[index]? = some posting ∧
      unread = posting.positions.drop list.read := by
  unfold place at here
  split at here
  next => cases here
  next index same =>
    split at here
    next other found =>
      obtain ⟨rfl, rfl⟩ := PostingPlace.reading.inj here
      exact ⟨index, same, found, rfl⟩
    next => cases here

theorem Shows.nextPosition (shows : list.Shows stream) :
    list.nextPosition.1 = stream.nextPosition.1 ∧ list.nextPosition.2.Shows stream.nextPosition.2 := by
  have current := current_eq list
  obtain ⟨place, ahead⟩ := stream
  have here : list.place = place := shows.place
  rw [here] at current
  unfold PostingList.nextPosition PostingStream.nextPosition
  rw [current]
  cases place with
  | unplaced => exact ⟨rfl, shows⟩
  | usedUp => exact ⟨rfl, shows⟩
  | reading posting unread =>
    obtain ⟨index, placed, found, rfl⟩ := exists_index_of_reading here
    cases read : posting.positions[list.read]? with
    | none =>
      have doc : list.doc = posting.doc := shows.doc
      rw [List.drop_eq_nil_of_le (List.getElem?_eq_none_iff.mp read)] at shows ⊢
      simp only [read, doc]
      exact ⟨trivial, shows⟩
    | some position =>
      obtain ⟨bound, same⟩ := List.getElem?_eq_some_iff.mp read
      rw [List.drop_eq_getElem_cons bound, same]
      simp only [read]
      refine ⟨trivial, shows.sorted, shows.doc, ?_, shows.ahead⟩
      simp only [PostingList.place, placed, found]

end PostingList

end PostingQuery
