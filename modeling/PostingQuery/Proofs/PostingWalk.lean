import Mathlib
import PostingQuery.Proofs.AcceptedPostings

/-!
What a posting list answers along a legal walk, with readings of its frequencies and positions in between. Moves land
where the postings say, and each reading since the last move gives the next position of the document. Off its documents
a list refuses to be read, and a refused reading leaves it as it was.
-/

namespace PostingQuery

/-- The states of a source along a legal walk with readings in between, and how often a position has been asked for
since the last move, with or without success. Asking for a frequency leaves no new state. -/
inductive ReadingWalk {P : Type} [PostingSource P] (start : P) : Nat → P → Prop where
  | start : ReadingWalk start 0 start
  | next {asked : Nat} {source : P} (walk : ReadingWalk start asked source) (live : Cursor.doc source ≠ noMoreDocs) :
    ReadingWalk start 0 (Cursor.next source).2
  | advance {asked : Nat} {source : P} (walk : ReadingWalk start asked source) (target : DocId)
    (beyond : Cursor.doc source < target) (inside : target ≤ noMoreDocs) :
    ReadingWalk start 0 (Cursor.advance source target).2
  | nextPosition {asked : Nat} {source : P} (walk : ReadingWalk start asked source) :
    ReadingWalk start (asked + 1) (PostingSource.nextPosition source).2

/-- A source answers every call as some postings say, once a number of positions have been asked for since the last
move. -/
structure Recites {P : Type} [PostingSource P] (postings : List Posting) (asked : Nat) (source : P) : Prop where
  place : Cursor.doc source = unpositioned ∨ Cursor.doc source ∈ Posting.docs postings ∨
    Cursor.doc source = noMoreDocs
  next : Cursor.doc source ≠ noMoreDocs → (Cursor.next source).Yields fun landing after =>
    Lands (Posting.docs postings) (Cursor.doc source + 1) landing ∧ Cursor.doc after = landing
  advance : ∀ target, Cursor.doc source < target → target ≤ noMoreDocs →
    (Cursor.advance source target).Yields fun landing after =>
      Lands (Posting.docs postings) target landing ∧ Cursor.doc after = landing
  freq : ∀ posting ∈ postings, posting.doc = Cursor.doc source → PostingSource.freq source = .ok posting.freq
  position : ∀ posting ∈ postings, posting.doc = Cursor.doc source → ∀ position, posting.positions[asked]? = some position →
    (PostingSource.nextPosition source).Yields fun answer after =>
      answer = position ∧ Cursor.doc after = Cursor.doc source
  usedUp : ∀ posting ∈ postings, posting.doc = Cursor.doc source → posting.positions.length ≤ asked →
    PostingSource.nextPosition source = (.error (.posting (.positionsUsedUp posting.doc)), source)
  unread : Cursor.doc source ∉ Posting.docs postings →
    PostingSource.freq source = .error (.posting .notOnDocument) ∧
      PostingSource.nextPosition source = (.error (.posting .notOnDocument), source)

theorem Ahead.suffix {postings : List Posting} {place : PostingPlace} {ahead : List Posting}
    (holds : Ahead postings place ahead) : ahead <:+ postings := by
  cases holds with
  | unplaced => exact List.suffix_rfl
  | reading passed posting unread _ split =>
    rw [split]
    exact (List.suffix_cons posting ahead).trans (List.suffix_append passed _)
  | usedUp => exact List.nil_suffix

theorem Posting.Accepted.eq_of_doc {postings : List Posting} (accepted : Accepted postings) {posting other : Posting}
    (member : posting ∈ postings) (otherMember : other ∈ postings) (same : posting.doc = other.doc) :
    posting = other := by
  have found := accepted.find?_doc member
  rw [same, accepted.find?_doc otherMember] at found
  exact (Option.some.inj found).symm

namespace PostingStream

variable {postings : List Posting} {asked : Nat} {stream : PostingStream}

structure HasRead (postings : List Posting) (asked : Nat) (stream : PostingStream) : Prop where
  ahead : Ahead postings stream.place stream.ahead
  unread : ∀ posting unread, stream.place = .reading posting unread → unread = posting.positions.drop asked

theorem hasRead_moveTo {rest : List Posting} (suffix : rest <:+ postings) : HasRead postings 0 (moveTo rest).2 := by
  obtain ⟨passed, split⟩ := suffix
  cases rest with
  | nil => exact ⟨.usedUp, nofun⟩
  | cons posting rest =>
    refine ⟨.reading passed posting _ rest split.symm, fun other unread same => ?_⟩
    obtain ⟨rfl, rfl⟩ := PostingPlace.reading.inj same
    rfl

theorem HasRead.next (hasRead : HasRead postings asked stream) : HasRead postings 0 stream.next.2 :=
  hasRead_moveTo hasRead.ahead.suffix

theorem HasRead.advance (hasRead : HasRead postings asked stream) (target : DocId) :
    HasRead postings 0 (stream.advance target).2 :=
  hasRead_moveTo ((List.dropWhile_suffix _).trans hasRead.ahead.suffix)

theorem nextPosition_of_unread {posting : Posting} {position : Int} {unread : List Int}
    (here : stream.place = .reading posting (position :: unread)) :
    stream.nextPosition = (.ok position, { stream with place := .reading posting unread }) := by
  rw [nextPosition, here]

theorem nextPosition_of_usedUp {posting : Posting} (here : stream.place = .reading posting []) :
    stream.nextPosition = (.error (.posting (.positionsUsedUp posting.doc)), stream) := by
  rw [nextPosition, here]

theorem nextPosition_of_not_reading (off : ∀ posting unread, stream.place ≠ .reading posting unread) :
    stream.nextPosition = (.error (.posting .notOnDocument), stream) := by
  unfold nextPosition
  split
  next here => exact absurd here (off _ _)
  next here => exact absurd here (off _ _)
  next => rfl

theorem freq_of_not_reading (off : ∀ posting unread, stream.place ≠ .reading posting unread) :
    stream.freq = .error (.posting .notOnDocument) := by
  unfold freq
  split
  next here => exact absurd here (off _ _)
  next => rfl

theorem HasRead.nextPosition (hasRead : HasRead postings asked stream) :
    HasRead postings (asked + 1) stream.nextPosition.2 := by
  obtain ⟨ahead, left⟩ := hasRead
  by_cases reads : ∃ posting unread, stream.place = .reading posting unread
  · obtain ⟨posting, unread, here⟩ := reads
    have same := left posting unread here
    rw [here] at ahead
    cases unread with
    | nil =>
      rw [nextPosition_of_usedUp here]
      refine ⟨here ▸ ahead, fun other unread reading => ?_⟩
      obtain ⟨rfl, rfl⟩ := PostingPlace.reading.inj (here.symm.trans reading)
      exact (List.drop_eq_nil_of_le ((List.drop_eq_nil_iff.mp same.symm).trans (Nat.le_succ asked))).symm
    | cons position unread =>
      rw [nextPosition_of_unread here]
      refine ⟨?_, fun other later reading => ?_⟩
      · cases ahead with
        | reading passed _ _ _ split => exact .reading passed posting unread _ split
      · obtain ⟨rfl, rfl⟩ := PostingPlace.reading.inj reading
        rw [← List.tail_drop, ← same, List.tail_cons]
  · have off : ∀ posting unread, stream.place ≠ .reading posting unread := fun posting unread here =>
      reads ⟨posting, unread, here⟩
    rw [nextPosition_of_not_reading off]
    exact ⟨ahead, fun posting unread here => absurd here (off posting unread)⟩

theorem HasRead.reading (hasRead : HasRead postings asked stream) (accepted : Posting.Accepted postings)
    {posting : Posting} (member : posting ∈ postings) (here : posting.doc = stream.place.doc) :
    stream.place = .reading posting (posting.positions.drop asked) := by
  have real : IsReal stream.place.doc := here ▸ accepted.real member
  obtain ⟨other, otherMember, unread, place⟩ := hasRead.ahead.reading_of_real real
  obtain rfl : other = posting := by
    refine accepted.eq_of_doc otherMember member ?_
    rw [here, place, PostingPlace.doc]
  rw [place, hasRead.unread other unread place]

theorem HasRead.not_reading (hasRead : HasRead postings asked stream)
    (off : stream.place.doc ∉ Posting.docs postings) (posting : Posting) (unread : List Int) :
    stream.place ≠ .reading posting unread := by
  intro reading
  refine off (Posting.mem_docs.mpr ⟨posting, ?_, ?_⟩)
  · have ahead := hasRead.ahead
    rw [reading] at ahead
    cases ahead with
    | reading passed _ _ _ split => exact split ▸ List.mem_append_right _ List.mem_cons_self
  · rw [reading, PostingPlace.doc]

end PostingStream

namespace PostingList

variable {postings : List Posting} {asked : Nat} {list : PostingList}

def HasRead (postings : List Posting) (asked : Nat) (list : PostingList) : Prop :=
  ∃ stream, list.Shows stream ∧ stream.HasRead postings asked

theorem hasRead_of_ofPostings (made : ofPostings postings = .ok list) : HasRead postings 0 list := by
  obtain ⟨unrefused, rfl⟩ := ofPostings_eq_ok_iff.mp made
  exact ⟨_, shows_fresh (Posting.pairwise_of_firstRefusal unrefused).2, .unplaced, nofun⟩

theorem HasRead.standsAt (hasRead : HasRead postings asked list) : StandsAt postings list list.place := by
  obtain ⟨stream, shows, fits⟩ := hasRead
  exact ⟨stream, ⟨_, simulation, shows⟩, shows.place.symm, shows.place ▸ fits.ahead⟩

theorem HasRead.next (hasRead : HasRead postings asked list) : HasRead postings 0 (Cursor.next list).2 := by
  obtain ⟨stream, shows, fits⟩ := hasRead
  exact ⟨_, shows.next.2, fits.next⟩

theorem HasRead.advance (hasRead : HasRead postings asked list) (target : DocId) :
    HasRead postings 0 (Cursor.advance list target).2 := by
  obtain ⟨stream, shows, fits⟩ := hasRead
  exact ⟨_, (shows.advance target).2, fits.advance target⟩

theorem HasRead.nextPosition (hasRead : HasRead postings asked list) :
    HasRead postings (asked + 1) list.nextPosition.2 := by
  obtain ⟨stream, shows, fits⟩ := hasRead
  exact ⟨_, shows.nextPosition.2, fits.nextPosition⟩

theorem HasRead.of_walk (fresh : HasRead postings 0 list) {state : PostingList}
    (walk : ReadingWalk list asked state) : HasRead postings asked state := by
  induction walk with
  | start => exact fresh
  | next _ _ ih => exact ih.next
  | advance _ target _ _ ih => exact ih.advance target
  | nextPosition _ ih => exact ih.nextPosition

theorem nextPosition_of_error {failure : Failure} (failed : list.nextPosition.1 = .error failure) :
    list.nextPosition = (.error failure, list) := by
  refine Prod.ext failed ?_
  unfold PostingList.nextPosition at failed ⊢
  cases current : list.current with
  | error refused => rfl
  | ok posting =>
    cases found : posting.positions[list.read]? with
    | some position => simp [current, found] at failed
    | none => simp only [found]

theorem HasRead.recites (hasRead : HasRead postings asked list) (accepted : Posting.Accepted postings) :
    Recites postings asked list := by
  have stands := hasRead.standsAt
  obtain ⟨stream, shows, fits⟩ := hasRead
  have doc : Cursor.doc list = stream.place.doc := shows.doc
  exact {
    place := by
      rw [stands.doc]
      exact stands.place_cases
    next := by
      intro live
      rw [stands.doc] at live ⊢
      exact (stands.next accepted (stands.lt_noMoreDocs accepted live)).mono fun _ _ moved => ⟨moved.1, moved.2.doc⟩
    advance := by
      intro target beyond inside
      rw [stands.doc] at beyond
      exact (stands.advance accepted beyond inside).mono fun _ _ moved => ⟨moved.1, moved.2.doc⟩
    freq := by
      intro posting member here
      change list.freq = _
      rw [shows.freq, PostingStream.freq, fits.reading accepted member (here.trans doc)]
    position := by
      intro posting member here position found
      have place := fits.reading accepted member (here.trans doc)
      obtain ⟨inside, same⟩ := List.getElem?_eq_some_iff.mp found
      rw [List.drop_eq_getElem_cons inside, same] at place
      obtain ⟨answer, later⟩ := shows.nextPosition
      rw [PostingStream.nextPosition_of_unread place] at answer later
      exact ⟨position, _, Prod.ext answer rfl, rfl, later.doc.trans here⟩
    usedUp := by
      intro posting member here few
      have place := fits.reading accepted member (here.trans doc)
      rw [List.drop_eq_nil_of_le few] at place
      refine nextPosition_of_error ?_
      rw [shows.nextPosition.1, PostingStream.nextPosition_of_usedUp place]
    unread := by
      intro off
      have none := fits.not_reading (doc ▸ off)
      refine ⟨?_, nextPosition_of_error ?_⟩
      · change list.freq = _
        rw [shows.freq, PostingStream.freq_of_not_reading none]
      · rw [shows.nextPosition.1, PostingStream.nextPosition_of_not_reading none] }

/-- Wherever a legal walk with readings leads a list of accepted postings, every call answers as the postings say. -/
theorem walk_recites_postings (fits : ∀ posting ∈ postings, posting.Fits) (made : ofPostings postings = .ok list) :
    Cursor.doc list = unpositioned ∧
      ∀ (asked : Nat) (state : PostingList), ReadingWalk list asked state → Recites postings asked state := by
  have accepted : Posting.Accepted postings := ⟨(ofPostings_eq_ok_iff.mp made).1, fits⟩
  have fresh := hasRead_of_ofPostings made
  exact ⟨(standsAt made).doc, fun asked state walk => (fresh.of_walk walk).recites accepted⟩

/-- In document 2 a term occurs at 0 and 7, in document 6 at 3. Once both positions of document 2 have been read, a
third reading is refused, and a jump behind document 2 begins with the position 3. -/
theorem second_document_begins_anew :
    ∃ list read moved : PostingList, ofPostings [⟨2, 2, [0, 7]⟩, ⟨6, 1, [3]⟩] = .ok list ∧
      ReadingWalk list 2 read ∧ PostingSource.nextPosition read = (.error (.posting (.positionsUsedUp 2)), read) ∧
      Cursor.advance read 3 = (.ok 6, moved) ∧ PostingSource.freq moved = .ok 1 ∧
      (PostingSource.nextPosition moved).Yields fun position _ => position = 3 := by
  obtain ⟨list, made⟩ : ∃ list, ofPostings [⟨2, 2, [0, 7]⟩, ⟨6, 1, [3]⟩] = .ok list := ⟨_, rfl⟩
  obtain ⟨fresh, recites⟩ := walk_recites_postings (by decide) made
  have opened : ReadingWalk list 0 (Cursor.next list).2 := .next .start (by rw [fresh]; decide)
  have read := opened.nextPosition.nextPosition
  have jumped := read.advance 3
  obtain ⟨-, rfl⟩ := ofPostings_eq_ok_iff.mp made
  have second : (⟨6, 1, [3]⟩ : Posting) ∈ [⟨2, 2, [0, 7]⟩, ⟨6, 1, [3]⟩] := by simp
  have landed : (Cursor.advance (PostingSource.nextPosition (PostingSource.nextPosition
      (Cursor.next (PostingList.fresh [⟨2, 2, [0, 7]⟩, ⟨6, 1, [3]⟩])).2).2).2 3).1 = .ok 6 := by decide +kernel
  have there := recites _ _ (jumped (by decide) (by decide))
  have here := (Except.ok.inj landed).symm
  refine ⟨_, _, _, made, read, (recites _ _ read).usedUp ⟨2, 2, [0, 7]⟩ (by simp) rfl (by decide),
    Prod.ext landed rfl, there.freq _ second here, ?_⟩
  exact (there.position _ second here 3 rfl).mono fun _ _ answered => answered.1

end PostingList

end PostingQuery
