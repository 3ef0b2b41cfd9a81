import Mathlib
import PostingQuery.Proofs.PostingStream
import PostingQuery.Proofs.Walk

/-!
What the leaves of a query rely on: a posting source answers like a posting list that holds its
postings, whatever its costs are. Lists held in memory are such sources.
-/

namespace PostingQuery

namespace Posting

def Fits (posting : Posting) : Prop :=
  posting.doc ≤ noMoreDocs ∧ ∀ position ∈ posting.positions, position ≤ 2147483647

instance (posting : Posting) : Decidable posting.Fits := inferInstanceAs (Decidable (_ ∧ _))

structure Accepted (postings : List Posting) : Prop where
  unrefused : firstRefusal unpositioned postings = none
  fits : ∀ posting ∈ postings, posting.Fits

structure Indexed (posting : Posting) : Prop where
  freq : posting.freq = posting.positions.length
  sorted : posting.positions.Pairwise (· ≤ ·)
  nonneg : ∀ position ∈ posting.positions, 0 ≤ position

theorem pairwise_of_areSorted {positions : List Int} (sorted : areSorted positions = true) :
    positions.Pairwise (· ≤ ·) := by
  refine List.isChain_iff_pairwise.mp ?_
  induction positions with
  | nil => exact .nil
  | cons x rest ih =>
    cases rest with
    | nil => exact .singleton x
    | cons y rest =>
      rw [areSorted, Bool.and_eq_true, decide_eq_true_iff] at sorted
      exact .cons_cons sorted.1 (ih sorted.2)

theorem refusal_eq_none {last : DocId} {posting : Posting} (unrefused : posting.refusal last = none) :
    last < posting.doc ∧ posting.doc ≠ noMoreDocs ∧ (posting.positions ≠ [] → posting.Indexed) := by
  unfold refusal at unrefused
  split at unrefused
  next => cases unrefused
  next inOrder =>
    have after : last < posting.doc := not_le.mp fun before => inOrder (.inl before)
    refine ⟨after, fun ended => inOrder (.inr ended), fun indexed => ?_⟩
    split at unrefused
    next none => exact absurd none indexed
    next first rest same =>
      split at unrefused
      · cases unrefused
      · split at unrefused
        · cases unrefused
        · split at unrefused
          · cases unrefused
          · rename_i freq sorted nonneg
            rw [Bool.not_eq_true, Bool.not_eq_false'] at sorted
            have chain := pairwise_of_areSorted sorted
            refine ⟨?_, same ▸ chain, fun position member => ?_⟩
            · rw [same, List.length_cons]
              push_cast
              exact (not_not.mp freq).symm
            · rw [same] at member
              rcases List.mem_cons.mp member with head | tail
              · exact head ▸ not_lt.mp nonneg
              · exact (not_lt.mp nonneg).trans ((List.pairwise_cons.mp chain).1 position tail)

theorem firstRefusal_cons_eq_none {last : DocId} {posting : Posting} {rest : List Posting}
    (unrefused : firstRefusal last (posting :: rest) = none) :
    posting.refusal last = none ∧ firstRefusal posting.doc rest = none := by
  rw [firstRefusal] at unrefused
  split at unrefused
  next => cases unrefused
  next none => exact ⟨none, unrefused⟩

theorem pairwise_of_firstRefusal {last : DocId} {postings : List Posting}
    (unrefused : firstRefusal last postings = none) :
    (∀ posting ∈ postings, last < posting.doc) ∧
      postings.Pairwise fun earlier later => earlier.doc < later.doc := by
  induction postings generalizing last with
  | nil => exact ⟨fun _ member => absurd member List.not_mem_nil, .nil⟩
  | cons posting rest ih =>
    obtain ⟨first, others⟩ := firstRefusal_cons_eq_none unrefused
    obtain ⟨beyond, sorted⟩ := ih others
    have after := (refusal_eq_none first).1
    refine ⟨fun other member => ?_, .cons beyond sorted⟩
    rcases List.mem_cons.mp member with same | later
    · exact same ▸ after
    · exact after.trans (beyond other later)

theorem refusal_of_firstRefusal {last : DocId} {postings : List Posting}
    (unrefused : firstRefusal last postings = none) {posting : Posting} (member : posting ∈ postings) :
    ∃ before, posting.refusal before = none := by
  induction postings generalizing last with
  | nil => cases member
  | cons first rest ih =>
    obtain ⟨head, tail⟩ := firstRefusal_cons_eq_none unrefused
    rcases List.mem_cons.mp member with same | later
    · exact ⟨last, same ▸ head⟩
    · exact ih tail later

namespace Accepted

variable {postings : List Posting}

theorem sorted (accepted : Accepted postings) :
    postings.Pairwise fun earlier later => earlier.doc < later.doc :=
  (pairwise_of_firstRefusal accepted.unrefused).2

theorem real (accepted : Accepted postings) {posting : Posting} (member : posting ∈ postings) :
    IsReal posting.doc := by
  obtain ⟨before, unrefused⟩ := refusal_of_firstRefusal accepted.unrefused member
  have beyond := (pairwise_of_firstRefusal accepted.unrefused).1 posting member
  exact ⟨nonneg_of_unpositioned_lt beyond,
    lt_of_le_of_ne (accepted.fits posting member).1 (refusal_eq_none unrefused).2.1⟩

theorem indexed (accepted : Accepted postings) {posting : Posting} (member : posting ∈ postings)
    (some : posting.positions ≠ []) : posting.Indexed := by
  obtain ⟨before, unrefused⟩ := refusal_of_firstRefusal accepted.unrefused member
  exact (refusal_eq_none unrefused).2.2 some

theorem find?_doc (accepted : Accepted postings) {posting : Posting} (member : posting ∈ postings) :
    (postings.find? fun other => other.doc == posting.doc) = some posting := by
  have sorted := accepted.sorted
  clear accepted
  induction postings with
  | nil => cases member
  | cons first rest ih =>
    rw [List.pairwise_cons] at sorted
    rcases List.mem_cons.mp member with same | later
    · rw [same, List.find?_cons_of_pos (by simp)]
    · have before := sorted.1 posting later
      rw [List.find?_cons_of_neg (by simpa using before.ne)]
      exact ih later sorted.2

end Accepted

def docs (postings : List Posting) : Finset DocId := (postings.map (·.doc)).toFinset

theorem mem_docs {postings : List Posting} {doc : DocId} :
    doc ∈ docs postings ↔ ∃ posting ∈ postings, posting.doc = doc := by
  simp [docs]

end Posting

/-- A relation of sources to posting streams that every step preserves, with the same answers. -/
structure Simulation {P : Type} [PostingSource P] (related : P → PostingStream → Prop) : Prop where
  doc : ∀ source stream, related source stream → Cursor.doc source = stream.place.doc
  freq : ∀ source stream, related source stream → IsReal stream.place.doc → PostingSource.freq source = stream.freq
  next : ∀ source stream, related source stream → stream.place.doc ≠ noMoreDocs →
    ∃ after, Cursor.next source = (stream.next.1, after) ∧ related after stream.next.2
  advance : ∀ source stream target, related source stream → stream.place.doc < target → target ≤ noMoreDocs →
    ∃ after, Cursor.advance source target = ((stream.advance target).1, after) ∧ related after (stream.advance target).2
  nextPosition : ∀ source stream position after, related source stream →
    stream.nextPosition = (.ok position, after) →
    ∃ later, PostingSource.nextPosition source = (.ok position, later) ∧ related later after

def Mimics {P : Type} [PostingSource P] (source : P) (stream : PostingStream) : Prop :=
  ∃ related, Simulation related ∧ related source stream

theorem PostingList.simulation : Simulation PostingList.Shows where
  doc _ _ shows := shows.doc
  freq _ _ shows _ := shows.freq
  next list _ shows _ := ⟨(Cursor.next list).2, Prod.ext shows.next.1 rfl, shows.next.2⟩
  advance list _ target shows _ _ :=
    ⟨(Cursor.advance list target).2, Prod.ext (shows.advance target).1 rfl, (shows.advance target).2⟩
  nextPosition list stream position after shows answered := by
    obtain ⟨answer, later⟩ := shows.nextPosition
    rw [answered] at answer later
    exact ⟨list.nextPosition.2, Prod.ext answer rfl, later⟩

inductive Ahead (postings : List Posting) : PostingPlace → List Posting → Prop where
  | unplaced : Ahead postings .unplaced postings
  | reading (passed : List Posting) (posting : Posting) (unread : List Int) (later : List Posting)
      (split : postings = passed ++ posting :: later) : Ahead postings (.reading posting unread) later
  | usedUp : Ahead postings .usedUp []

def StandsAt {P : Type} [PostingSource P] (postings : List Posting) (source : P)
    (place : PostingPlace) : Prop :=
  ∃ stream, Mimics source stream ∧ stream.place = place ∧ Ahead postings place stream.ahead

def Opened {P : Type} [PostingSource P] (postings : List Posting) (landing : DocId) (source : P) :
    Prop :=
  (landing = noMoreDocs ∧ StandsAt postings source .usedUp) ∨
    ∃ posting ∈ postings, posting.doc = landing ∧
      StandsAt postings source (.reading posting posting.positions)

theorem Ahead.split {postings : List Posting} (sorted : postings.Pairwise fun a b => a.doc < b.doc)
    (real : ∀ posting ∈ postings, IsReal posting.doc) {place : PostingPlace} {ahead : List Posting}
    (holds : Ahead postings place ahead) (live : place.doc ≠ noMoreDocs) :
    ∃ passed, postings = passed ++ ahead ∧ (∀ posting ∈ passed, posting.doc < place.doc + 1) ∧
      ∀ posting ∈ ahead, place.doc + 1 ≤ posting.doc := by
  cases holds with
  | unplaced =>
    refine ⟨[], rfl, fun _ member => absurd member List.not_mem_nil, fun posting member => ?_⟩
    exact (real posting member).1
  | reading passed posting unread later split =>
    rw [split, List.pairwise_append, List.pairwise_cons] at sorted
    obtain ⟨-, ⟨beyond, -⟩, before⟩ := sorted
    refine ⟨passed ++ [posting], by simp [split], fun other member => ?_, fun other member => ?_⟩
    · rcases List.mem_append.mp member with early | same
      · have less := before other early posting List.mem_cons_self
        simp only [PostingPlace.doc]
        lia
      · rw [List.mem_singleton.mp same]
        exact lt_add_one _
    · exact beyond other member
  | usedUp => exact absurd rfl live

theorem Ahead.reading_of_real {postings : List Posting} {place : PostingPlace} {ahead : List Posting}
    (holds : Ahead postings place ahead) (real : IsReal place.doc) :
    ∃ posting ∈ postings, ∃ unread, place = .reading posting unread := by
  cases holds with
  | unplaced => exact absurd real (by decide)
  | reading passed posting unread later split =>
    exact ⟨posting, by simp [split], unread, rfl⟩
  | usedUp => exact absurd rfl real.ne_noMoreDocs

theorem le_of_mem_dropWhile {postings : List Posting} {target : DocId}
    (sorted : postings.Pairwise fun a b => a.doc < b.doc) {posting : Posting}
    (member : posting ∈ postings.dropWhile fun posting => posting.doc < target) :
    target ≤ posting.doc := by
  induction postings with
  | nil => cases member
  | cons first rest ih =>
    rw [List.pairwise_cons] at sorted
    rw [List.dropWhile_cons] at member
    split at member
    next => exact ih sorted.2 member
    next reached =>
      have start : target ≤ first.doc := by simpa using reached
      rcases List.mem_cons.mp member with same | later
      · exact same ▸ start
      · exact start.trans (sorted.1 posting later).le

section Moves

variable {P : Type} [PostingSource P] {postings : List Posting} {source : P} {place : PostingPlace}

theorem StandsAt.doc (stands : StandsAt postings source place) : Cursor.doc source = place.doc := by
  obtain ⟨stream, ⟨related, simulation, holds⟩, here, -⟩ := stands
  rw [simulation.doc source stream holds, here]

theorem Opened.doc {landing : DocId} (opened : Opened postings landing source) :
    Cursor.doc source = landing := by
  rcases opened with ⟨ended, stands⟩ | ⟨posting, -, same, stands⟩
  · rw [stands.doc, ended, PostingPlace.doc]
  · rw [stands.doc, ← same, PostingPlace.doc]

theorem moveTo_yields {low : DocId} {passed rest : List Posting}
    (split : postings = passed ++ rest) (sorted : postings.Pairwise fun a b => a.doc < b.doc)
    (before : ∀ posting ∈ passed, posting.doc < low) (from_low : ∀ posting ∈ rest, low ≤ posting.doc)
    (inside : low ≤ noMoreDocs) (mimics : Mimics source (PostingStream.moveTo rest).2) :
    ∃ landing, (PostingStream.moveTo rest).1 = .ok landing ∧ Lands (Posting.docs postings) low landing ∧
      Opened postings landing source := by
  cases rest with
  | nil =>
    refine ⟨noMoreDocs, rfl, ⟨.inr rfl, inside, fun doc member from_low' => ?_⟩,
      .inl ⟨rfl, _, mimics, rfl, .usedUp⟩⟩
    obtain ⟨posting, listed, same⟩ := Posting.mem_docs.mp member
    rw [split, List.append_nil] at listed
    have early := before posting listed
    lia
  | cons posting rest =>
    have listed : posting ∈ postings := by simp [split]
    refine ⟨posting.doc, rfl, ⟨.inl (Posting.mem_docs.mpr ⟨posting, listed, rfl⟩),
      from_low posting List.mem_cons_self, fun doc member from_low' => ?_⟩,
      .inr ⟨posting, listed, rfl, _, mimics, rfl, .reading passed posting _ rest split⟩⟩
    obtain ⟨other, otherListed, same⟩ := Posting.mem_docs.mp member
    rw [split, List.mem_append, List.mem_cons] at otherListed
    rcases otherListed with early | here | later
    · have less := before other early
      lia
    · rw [← same, here]
    · rw [split, List.pairwise_append, List.pairwise_cons] at sorted
      have less := sorted.2.1.1 other later
      lia

namespace StandsAt

theorem next (stands : StandsAt postings source place) (accepted : Posting.Accepted postings)
    (live : place.doc < noMoreDocs) :
    (Cursor.next source).Yields fun landing after =>
      Lands (Posting.docs postings) (place.doc + 1) landing ∧ Opened postings landing after := by
  obtain ⟨stream, ⟨related, simulation, holds⟩, here, ahead⟩ := stands
  obtain ⟨passed, split, before, beyond⟩ :=
    ahead.split accepted.sorted (fun _ => accepted.real) live.ne
  obtain ⟨after, same, relatedAfter⟩ :=
    simulation.next source stream holds (by rw [here]; exact live.ne)
  obtain ⟨landing, answer, lands, opened⟩ := moveTo_yields split accepted.sorted before beyond
    (by lia) ⟨related, simulation, relatedAfter⟩
  exact ⟨landing, after, same.trans (congrArg (·, after) answer), lands, opened⟩

theorem advance (stands : StandsAt postings source place) (accepted : Posting.Accepted postings)
    {target : DocId} (beyond : place.doc < target) (inside : target ≤ noMoreDocs) :
    (Cursor.advance source target).Yields fun landing after =>
      Lands (Posting.docs postings) target landing ∧ Opened postings landing after := by
  obtain ⟨stream, ⟨related, simulation, holds⟩, here, ahead⟩ := stands
  obtain ⟨passed, split, before, -⟩ :=
    ahead.split accepted.sorted (fun _ => accepted.real) (by lia)
  obtain ⟨after, same, relatedAfter⟩ :=
    simulation.advance source stream target holds (by rw [here]; exact beyond) inside
  have cut : postings = (passed ++ stream.ahead.takeWhile fun posting => posting.doc < target) ++
      stream.ahead.dropWhile fun posting => posting.doc < target := by
    rw [List.append_assoc, List.takeWhile_append_dropWhile, ← split]
  have aheadSorted : stream.ahead.Pairwise fun a b => a.doc < b.doc := by
    have sorted := accepted.sorted
    rw [split, List.pairwise_append] at sorted
    exact sorted.2.1
  have passedEarly : ∀ posting ∈ passed ++ stream.ahead.takeWhile (fun posting => posting.doc < target),
      posting.doc < target := by
    intro posting member
    rcases List.mem_append.mp member with early | skipped
    · have less := before posting early
      lia
    · simpa using List.mem_takeWhile_imp skipped
  obtain ⟨landing, answer, lands, opened⟩ := moveTo_yields cut accepted.sorted passedEarly
    (fun posting => le_of_mem_dropWhile aheadSorted) inside ⟨related, simulation, relatedAfter⟩
  exact ⟨landing, after, same.trans (congrArg (·, after) answer), lands, opened⟩

theorem nextPosition {posting : Posting} {position : Int} {unread : List Int}
    (stands : StandsAt postings source (.reading posting (position :: unread))) :
    (PostingSource.nextPosition source).Yields fun answer after =>
      answer = position ∧ StandsAt postings after (.reading posting unread) := by
  obtain ⟨stream, ⟨related, simulation, holds⟩, here, ahead⟩ := stands
  have answered : stream.nextPosition =
      (.ok position, { stream with place := .reading posting unread }) := by
    unfold PostingStream.nextPosition
    rw [here]
  obtain ⟨later, same, relatedLater⟩ := simulation.nextPosition source stream position _ holds answered
  refine ⟨position, later, same, rfl, _, ⟨related, simulation, relatedLater⟩, rfl, ?_⟩
  cases ahead with
  | reading passed _ _ later split => exact .reading passed posting unread _ split

theorem freq {posting : Posting} {unread : List Int}
    (stands : StandsAt postings source (.reading posting unread)) (real : IsReal posting.doc) :
    PostingSource.freq source = .ok posting.freq := by
  obtain ⟨stream, ⟨related, simulation, holds⟩, here, -⟩ := stands
  have placed : IsReal stream.place.doc := by rwa [here]
  rw [simulation.freq source stream holds placed, PostingStream.freq, here]

theorem reading_of_real (stands : StandsAt postings source place) (real : IsReal place.doc) :
    ∃ posting ∈ postings, ∃ unread, place = .reading posting unread := by
  obtain ⟨stream, -, -, ahead⟩ := stands
  exact ahead.reading_of_real real

theorem place_cases (stands : StandsAt postings source place) :
    place.doc = unpositioned ∨ place.doc ∈ Posting.docs postings ∨ place.doc = noMoreDocs := by
  obtain ⟨stream, -, -, ahead⟩ := stands
  generalize stream.ahead = rest at ahead
  cases ahead with
  | unplaced => exact .inl rfl
  | reading passed posting unread later split =>
    exact .inr (.inl (Posting.mem_docs.mpr ⟨posting, by simp [split], rfl⟩))
  | usedUp => exact .inr (.inr rfl)

end StandsAt

theorem StandsAt.lt_noMoreDocs (stands : StandsAt postings source place)
    (accepted : Posting.Accepted postings) (live : place.doc ≠ noMoreDocs) : place.doc < noMoreDocs := by
  rcases stands.place_cases with fresh | member | ended
  · rw [fresh]
    decide
  · obtain ⟨posting, listed, same⟩ := Posting.mem_docs.mp member
    exact same ▸ (accepted.real listed).2
  · exact absurd ended live

theorem Opened.standsAt {landing : DocId} (opened : Opened postings landing source) :
    ∃ place, StandsAt postings source place := by
  rcases opened with ⟨-, stands⟩ | ⟨posting, -, -, stands⟩
  · exact ⟨_, stands⟩
  · exact ⟨_, stands⟩

theorem PostingList.standsAt {list : PostingList} (made : PostingList.ofPostings postings = .ok list) :
    StandsAt postings list .unplaced := by
  unfold PostingList.ofPostings at made
  split at made
  next => cases made
  next unrefused =>
    obtain rfl := Except.ok.inj made
    have sorted := (Posting.pairwise_of_firstRefusal unrefused).2
    exact ⟨_, ⟨_, PostingList.simulation, PostingList.shows_fresh sorted⟩, rfl, .unplaced⟩

end Moves

/-- A source of postings that tells a cost of its own. -/
structure Quoted (P : Type) where
  source : P
  cost : UInt64

namespace Quoted

variable {P : Type} [PostingSource P]

instance : PostingSource (Quoted P) where
  doc quoted := Cursor.doc quoted.source
  next quoted := (Cursor.next quoted.source).within (⟨·, quoted.cost⟩)
  advance quoted target := (Cursor.advance quoted.source target).within (⟨·, quoted.cost⟩)
  cost := cost
  freq quoted := PostingSource.freq quoted.source
  nextPosition quoted := (PostingSource.nextPosition quoted.source).within (⟨·, quoted.cost⟩)

theorem standsAt {postings : List Posting} {source : P} {place : PostingPlace}
    (stands : StandsAt postings source place) (cost : UInt64) : StandsAt postings (Quoted.mk source cost) place := by
  obtain ⟨stream, ⟨related, simulation, holds⟩, fits⟩ := stands
  refine ⟨stream, ⟨fun quoted => related quoted.source, ⟨?_, ?_, ?_, ?_, ?_⟩, holds⟩, fits⟩
  · exact fun quoted => simulation.doc quoted.source
  · exact fun quoted => simulation.freq quoted.source
  · intro quoted stream holds live
    obtain ⟨after, same, later⟩ := simulation.next quoted.source stream holds live
    exact ⟨⟨after, quoted.cost⟩, congrArg (Step.within · _) same, later⟩
  · intro quoted stream target holds beyond inside
    obtain ⟨after, same, later⟩ := simulation.advance quoted.source stream target holds beyond inside
    exact ⟨⟨after, quoted.cost⟩, congrArg (Step.within · _) same, later⟩
  · intro quoted stream position after holds answered
    obtain ⟨moved, same, later⟩ := simulation.nextPosition quoted.source stream position after holds answered
    exact ⟨⟨moved, quoted.cost⟩, congrArg (Step.within · _) same, later⟩

end Quoted

end PostingQuery
