import Mathlib
import PostingQuery.Proofs.SloppyMoves
import PostingQuery.Proofs.Term

/-!
The documents of a sloppy phrase: those that have all terms and a positive frequency. The frequency in a
document depends on nothing but the positions of the terms there. Without repeat groups it is positive where
the terms come close enough to their places.
-/

namespace PostingQuery

theorem close_iff_window {n : Nat} {positions : Fin n → List Int} {slop : Int} :
    Close positions slop ↔ ∃ low, ∀ i, ∃ position ∈ positions i, low ≤ position ∧ position ≤ low + slop := by
  constructor
  · rintro ⟨choice, listed, near⟩
    cases n with
    | zero => exact ⟨0, fun i => i.elim0⟩
    | succ n =>
      obtain ⟨least, lowest⟩ := Finite.exists_min choice
      exact ⟨choice least, fun i => ⟨choice i, listed i, lowest i, by have := near i least; lia⟩⟩
  · rintro ⟨low, window⟩
    choose choice listed above below using window
    exact ⟨choice, listed, fun i j => by have := below i; have := above j; lia⟩

namespace PhrasePart

def shiftedIn (part : PhrasePart) (doc : DocId) : List Int :=
  (Posting.positionsIn part.postings doc).map (· - part.position)

/-- One can choose a position of each term in a document such that no two of them are further apart than the
slop from where they would be in an exact occurrence. -/
def CloseIn (parts : List PhrasePart) (doc : DocId) (slop : Int) : Prop :=
  ∃ choice : Fin parts.length → Int,
    (∀ i, choice i ∈ Posting.positionsIn (parts.get i).postings doc) ∧
    ∀ i j, (choice i - (parts.get i).position) - (choice j - (parts.get j).position) ≤ slop

variable {parts : List PhrasePart} {doc : DocId} {slop : Int}

theorem closeIn_iff_close : CloseIn parts doc slop ↔ Close (fun i => shiftedIn (parts.get i) doc) slop := by
  constructor
  · rintro ⟨choice, listed, near⟩
    exact ⟨fun i => choice i - (parts.get i).position, fun i => List.mem_map_of_mem (listed i), near⟩
  · rintro ⟨shifted, listed, near⟩
    have each : ∀ i, ∃ position ∈ Posting.positionsIn (parts.get i).postings doc,
        position - (parts.get i).position = shifted i := fun i => List.mem_map.mp (listed i)
    choose choice positions same using each
    exact ⟨choice, positions, fun i j => by rw [same i, same j]; exact near i j⟩

theorem close_iff_closeIn {n : Nat} {listing : Fin n → PhrasePart} (perm : (List.ofFn listing).Perm parts) :
    Close (fun i => shiftedIn (listing i) doc) slop ↔ CloseIn parts doc slop := by
  have window : ∀ low, (∀ i, ∃ position ∈ shiftedIn (listing i) doc, low ≤ position ∧ position ≤ low + slop) ↔
      ∀ i, ∃ position ∈ shiftedIn (parts.get i) doc, low ≤ position ∧ position ≤ low + slop := by
    intro low
    rw [← List.forall_mem_ofFn_iff (P := fun part =>
      ∃ position ∈ shiftedIn part doc, low ≤ position ∧ position ≤ low + slop)]
    simp only [perm.mem_iff, List.forall_mem_iff_get]
  rw [closeIn_iff_close, close_iff_window, close_iff_window]
  exact exists_congr window

end PhrasePart

variable {P S : Type} [PostingSource P] [Score S]

structure SloppyShape (S : Type) (last : Nat) where
  parts : Fin (last + 1) → PhrasePart
  groups : List (List (Fin (last + 1)))
  relevance : Relevance S
  slop : Int

namespace SloppyShape

open SloppyTerm SloppyWalk PhrasePart

variable {last n : Nat} (shape : SloppyShape S last)

def phrase (terms : Vector (SloppyTerm P) (last + 1)) (doc : DocId) (freq : S) (occurrences : Nat) :
    SloppyPhrase P S :=
  ⟨last, terms, shape.groups, shape.relevance, shape.slop, doc, freq, occurrences⟩

def cast : SloppyCast S last where
  postings i := (shape.parts i).postings
  counted i := (shape.parts i).positioned.counted
  position i := (shape.parts i).position
  groups := shape.groups
  relevance := shape.relevance
  slop := shape.slop

def streams (doc : DocId) : Vector (SloppyTerm PositionStream) (last + 1) :=
  .ofFn fun i => ⟨⟨Posting.positionsIn (shape.parts i).postings doc⟩, (shape.parts i).position, 0, 0⟩

def freqOn (doc : DocId) : S :=
  match (shape.phrase (shape.streams doc) doc Score.zero 0).measure.1 with
  | .ok freq => freq
  | .error _ => Score.zero

def occurrencesOn (doc : DocId) : Nat :=
  (shape.phrase (shape.streams doc) doc Score.zero 0).measure.2.occurrences

def Judges (doc : DocId) (freq : S) (occurrences : Nat) : Prop :=
  freq = shape.freqOn doc ∧ occurrences = shape.occurrencesOn doc

variable {shape} {doc : DocId} {terms : Vector (SloppyTerm P) (last + 1)}

def Begins (part : PhrasePart) (doc : DocId) (term : SloppyTerm P) : Prop :=
  Opened part.postings doc term.postings ∧ term.offset = part.position

def OnDoc (part : PhrasePart) (doc : DocId) (term : SloppyTerm P) : Prop := On StandsAt part doc term

section Measure

variable {stands : List Posting → P → PostingPlace → Prop} {failing : Prop}

omit [PostingSource P] [Score S] in
theorem streams_get (shape : SloppyShape S last) (doc : DocId) (i : Fin (last + 1)) : (shape.streams doc).get i =
    ⟨⟨Posting.positionsIn (shape.parts i).postings doc⟩, (shape.parts i).position, 0, 0⟩ := by
  simp [streams]

theorem measure_tries (standing : Standing stands failing)
    (fresh : ∀ i : Fin (last + 1), Fresh stands (shape.parts i).postings (shape.parts i).position doc (terms.get i)
      ((shape.streams doc).get i))
    (real : IsReal doc) (freq : S) (occurrences : Nat) :
    (shape.phrase terms doc freq occurrences).measure.Tries
      (fun value after => value = shape.freqOn doc ∧
        ∃ terms, after = shape.phrase terms doc freq (shape.occurrencesOn doc) ∧
          ∀ i : Fin (last + 1), On stands (shape.parts i) doc (terms.get i))
      (fun after => failing ∧ ∃ terms occurrences, after = shape.phrase terms doc freq occurrences ∧
        ∀ i : Fin (last + 1), On stands (shape.parts i) doc (terms.get i)) := by
  have measures := shape.cast.measure_tries standing fresh real freq occurrences
  refine measures.mono ?_ fun _ stopped => stopped
  rintro value _ ⟨terms, mirror, measured, rfl, all⟩
  have own : (shape.phrase (shape.streams doc) doc Score.zero 0).measure = (.ok value, mirror) := measured
  refine ⟨?_, terms, ?_, all⟩
  · rw [freqOn, own]
  · rw [occurrencesOn, own]
    rfl

omit [PostingSource P] [Score S] in
theorem fresh_of_untouched {i : Fin (last + 1)} {term : SloppyTerm P} (offset : term.offset = (shape.parts i).position)
    (untouched : Untouched stands (shape.parts i).postings doc term.postings) :
    Fresh stands (shape.parts i).postings (shape.parts i).position doc term ((shape.streams doc).get i) := by
  rw [streams_get]
  refine ⟨⟨offset, rfl⟩, untouched, rfl, fun none => ?_⟩
  obtain ⟨posting, listed, rfl, -⟩ := untouched
  rw [(shape.parts i).positioned.positionsIn_eq listed] at none
  exact absurd none ((shape.parts i).positioned.placed posting listed)

theorem measure_yields (begins : ∀ i : Fin (last + 1), Begins (shape.parts i) doc (terms.get i)) (real : IsReal doc)
    (freq : S) (occurrences : Nat) :
    (shape.phrase terms doc freq occurrences).measure.Yields fun value after => value = shape.freqOn doc ∧
      ∃ terms, after = shape.phrase terms doc freq (shape.occurrencesOn doc) ∧
        ∀ i : Fin (last + 1), OnDoc (shape.parts i) doc (terms.get i) :=
  (measure_tries standing_standsAt (fun i => fresh_of_untouched (begins i).2 ((begins i).1.untouched real.ne_noMoreDocs))
    real freq occurrences).yields fun _ never => never.1

end Measure

def Follows (part : PhrasePart) (low : DocId) (term : SloppyTerm P) : Prop :=
  term.offset = part.position ∧ Lags part.postings low term.postings

section Documents

variable (shape)

noncomputable def docs : Finset DocId :=
  (commonDocs (List.ofFn shape.parts)).filter fun doc => Score.isPositive (shape.freqOn doc) = true

noncomputable def meaning : Meaning S :=
  .leaf shape.docs (fun _ member => (mem_commonDocs.mp (Finset.mem_filter.mp member).1).1)
    fun doc => shape.relevance.score doc (shape.freqOn doc)

variable {shape}

theorem mem_docs : doc ∈ shape.docs ↔ (IsReal doc ∧ ∀ i, doc ∈ Posting.docs (shape.parts i).postings) ∧
    Score.isPositive (shape.freqOn doc) = true := by
  rw [docs, Finset.mem_filter, mem_commonDocs, List.forall_mem_ofFn_iff]

theorem real_of_mem (member : doc ∈ shape.docs) : IsReal doc := (mem_docs.mp member).1.1

end Documents

structure Rests (shape : SloppyShape S last) (terms : Vector (SloppyTerm P) (last + 1)) (doc : DocId) (freq : S)
    (occurrences : Nat) : Prop where
  place : doc = unpositioned ∨ doc ∈ shape.docs ∨ doc = noMoreDocs
  freq : doc ∈ shape.docs → freq = shape.freqOn doc
  occurrences : doc ∈ shape.docs → occurrences = shape.occurrencesOn doc
  ready : doc ≠ noMoreDocs → OnDoc (shape.parts 0) doc (terms.get 0) ∧
    ∀ i : Fin last, Follows (shape.parts i.succ) (doc + 1) (terms.get i.succ)

def Sound (shape : SloppyShape S last) (state : SloppyPhrase P S) : Prop :=
  ∃ terms doc freq occurrences, state = shape.phrase terms doc freq occurrences ∧
    shape.Rests terms doc freq occurrences

theorem wanted_docs (shape : SloppyShape S last) : shape.cast.Wanted shape.Judges shape.docs where
  common _ member := (mem_docs.mp member).1
  positive doc member freq _ judged := by
    rw [judged.1]
    exact (mem_docs.mp member).2

theorem measures (shape : SloppyShape S last) : shape.cast.Measures P shape.Judges := by
  intro terms doc freq occurrences real begins
  refine (measure_yields begins real freq occurrences).mono ?_
  rintro value _ ⟨rfl, terms, rfl, onDoc⟩
  exact ⟨terms, shape.occurrencesOn doc, rfl, ⟨rfl, rfl⟩, onDoc⟩

theorem sound_iff {state : SloppyPhrase P S} : shape.Sound state ↔ shape.cast.Sound shape.Judges state := by
  refine exists_congr fun terms => exists_congr fun doc => exists_congr fun freq => exists_congr fun occurrences =>
    and_congr_right fun _ => ⟨fun rests => ⟨?_, rests.ready⟩, fun rests => ?_⟩
  · refine rests.place.imp_right (Or.imp_left fun member => ?_)
    have judged : shape.Judges doc freq occurrences := ⟨rests.freq member, rests.occurrences member⟩
    exact ⟨(mem_docs.mp member).1, judged, shape.wanted_docs.positive doc member freq occurrences judged⟩
  · have judged : doc ∈ shape.docs → shape.Judges doc freq occurrences := by
      intro member
      rcases rests.place with fresh | ⟨-, judged, -⟩ | ended
      · exact absurd (fresh ▸ real_of_mem member) (by decide)
      · exact judged
      · exact absurd ended (real_of_mem member).ne_noMoreDocs
    refine ⟨?_, fun member => (judged member).1, fun member => (judged member).2, rests.ready⟩
    refine rests.place.imp_right (Or.imp_left fun here => mem_docs.mpr ⟨here.1, ?_⟩)
    rw [← here.2.1.1]
    exact here.2.2

theorem arrival_of_finds {low landing : DocId} {after : SloppyPhrase P S}
    (finds : shape.cast.Finds shape.Judges shape.docs low landing after) (nonneg : 0 ≤ low) :
    (after.doc = landing ∧ Lands shape.docs low landing) ∧ shape.Sound after := by
  have sound := sound_iff.mpr finds.sound
  have here := finds.doc
  refine ⟨⟨here, finds.covers.lands finds.reached ?_⟩, sound⟩
  obtain ⟨terms, doc, freq, occurrences, rfl, rests⟩ := sound
  change doc = landing at here
  subst here
  refine rests.place.resolve_left fun fresh => ?_
  have reached := finds.reached
  rw [fresh, unpositioned] at reached
  lia

theorem sound_invariant (shape : SloppyShape S last) : Invariant shape.meaning (shape.Sound (P := P)) where
  place := by
    rintro _ ⟨terms, doc, freq, occurrences, rfl, rests⟩
    exact rests.place
  next := by
    intro state sound live
    have held := sound_iff.mp sound
    have nonneg : 0 ≤ state.doc + 1 := nonneg_of_unpositioned_lt (Int.lt_add_one_of_le held.le_doc)
    exact (held.next shape.measures shape.wanted_docs live).mono fun _ _ finds => arrival_of_finds finds nonneg
  advance := by
    intro state target sound beyond inside
    have held := sound_iff.mp sound
    have nonneg : 0 ≤ target := nonneg_of_unpositioned_lt (held.le_doc.trans_lt beyond)
    exact (held.advance shape.measures shape.wanted_docs beyond inside).mono fun _ _ finds =>
      arrival_of_finds finds nonneg
  score := by
    rintro _ ⟨terms, doc, freq, occurrences, rfl, rests⟩ member
    refine ⟨_, _, rfl, ⟨?_, rfl⟩, terms, doc, freq, occurrences, rfl, rests⟩
    exact congrArg (shape.relevance.score doc) (rests.freq member)
  tally := by
    rintro _ ⟨terms, doc, freq, occurrences, rfl, rests⟩ member
    refine ⟨_, _, rfl, ⟨?_, rfl⟩, terms, doc, freq, occurrences, rfl, rests⟩
    exact congrArg (fun freq => (shape.relevance.score doc freq, 0)) (rests.freq member)
  count _ _ _ := rfl

theorem sound_of_fresh
    (fresh : ∀ i : Fin (last + 1), (terms.get i).offset = (shape.parts i).position ∧
      StandsAt (shape.parts i).postings (terms.get i).postings .unplaced) :
    shape.Sound (shape.phrase terms unpositioned Score.zero 0) :=
  sound_iff.mpr (SloppyCast.sound_of_fresh fresh)

section Streams

structure Placed (part : PhrasePart) (doc : DocId) (term : SloppyTerm PositionStream) : Prop where
  offset : term.offset = part.position
  readable : SloppyTerm.Readable term
  choices : term.choices = shiftedIn part doc
  sorted : term.choices.Pairwise (· ≤ ·)

theorem begin_stream_placed {part : PhrasePart} (has : doc ∈ Posting.docs part.postings) :
    ∃ placed, (⟨⟨Posting.positionsIn part.postings doc⟩, part.position, 0, 0⟩ :
      SloppyTerm PositionStream).begin = (.ok (), placed) ∧ Placed part doc placed := by
  obtain ⟨posting, listed, rfl⟩ := Posting.mem_docs.mp has
  have indexes := part.positioned.indexes listed
  have here := part.positioned.positionsIn_eq listed
  have sorted : (shiftedIn part posting.doc).Pairwise (· ≤ ·) := by
    rw [shiftedIn, here]
    exact indexes.sorted.map _ fun a b le => sub_le_sub_right le _
  have nonneg := indexes.nonneg
  cases positions : posting.positions with
  | nil => exact absurd positions (part.positioned.placed posting listed)
  | cons position unread =>
    rw [positions] at here nonneg
    refine ⟨_, begin_stream here (nonneg position List.mem_cons_self),
      rfl, ⟨rfl, fun other member => nonneg other (List.mem_cons_of_mem position member)⟩, ?_, ?_⟩
    · rw [shiftedIn, here]
      rfl
    · rw [shiftedIn, here] at sorted
      exact sorted

omit [Score S] in
theorem begin_streams (common : ∀ i, doc ∈ Posting.docs (shape.parts i).postings) :
    ∃ placed, beginTerms (List.finRange (last + 1)) (shape.streams doc) = (.ok (), placed) ∧
      ∀ i : Fin (last + 1), Placed (shape.parts i) doc (placed.get i) := by
  let fresh (i : Fin (last + 1)) (term mirror : SloppyTerm PositionStream) : Prop :=
    term = (shape.streams doc).get i ∧ mirror = (shape.streams doc).get i
  let alike (i : Fin (last + 1)) (_ mirror : SloppyTerm PositionStream) : Prop :=
    Placed (shape.parts i) doc mirror
  have begins : ∀ i term mirror, fresh i term mirror → True ∧ mirror.begin.1 = .ok () ∧
      term.begin.Agrees (alike i) (fun _ => False ∧ True) mirror.begin := by
    rintro i _ _ ⟨rfl, rfl⟩
    obtain ⟨placed, same, holds⟩ := begin_stream_placed (common i)
    rw [streams_get, same]
    exact ⟨trivial, rfl, .same holds⟩
  rcases beginTerms_agrees (fun _ _ _ _ => trivial) begins (List.finRange (last + 1)) (List.nodup_finRange _)
      (fun i _ => ⟨rfl, rfl⟩) (fun i unlisted => absurd (List.mem_finRange i) unlisted) with
    ⟨after, placed, began, same, all⟩ | ⟨failure, after, -, never, -⟩
  · exact ⟨placed, same, all⟩
  · exact never.elim

theorem isGreatest_shifted (placed : Vector (SloppyTerm PositionStream) (last + 1)) :
    IsGreatest (Set.range fun i : Fin (last + 1) => (placed.get i).shifted)
      ((placed.toList.map (·.shifted)).foldl max ((placed.toList.map (·.shifted)).headD 0)) := by
  have range : (Set.range fun i : Fin (last + 1) => (placed.get i).shifted) =
      {number | number ∈ placed.toList.map (·.shifted)} := by
    ext number
    simp [toList_eq_map_get]
  rw [range]
  generalize shifted : placed.toList.map (·.shifted) = numbers
  cases numbers with
  | nil => simpa using congrArg List.length shifted
  | cons first rest =>
    rw [List.headD_cons, List.foldl_cons, max_self]
    exact isGreatest_foldl_max first rest

/-- On a common document the repeat groups are spread over the positions of the terms. There is no walk if there are
not enough of them. Otherwise it begins with the first term of the queue on turn. -/
theorem start_from_spread (common : ∀ i, doc ∈ Posting.docs (shape.parts i).postings) :
    ∃ placed : Vector (SloppyTerm PositionStream) (last + 1),
      (∀ i : Fin (last + 1), Placed (shape.parts i) doc (placed.get i)) ∧
      ((∃ terms, spread (shape.groups.flatMap List.zipIdx) placed = (.ok false, terms) ∧
          start (S := S) shape.groups (shape.streams doc) = (.ok none, terms)) ∨
        ∃ (walk : SloppyWalk PositionStream S (last + 1)) (first : QueuedTerm (last + 1)),
          spread (shape.groups.flatMap List.zipIdx) placed = (.ok true, walk.terms) ∧
          start shape.groups (shape.streams doc) =
            (.ok (some { walk with queue := first :: walk.queue }), walk.terms) ∧
          OnTurn walk first.index (walk.largest - (walk.terms.get first.index).shifted) ∧
          walk.freq = Score.zero ∧ walk.occurrences = 0) := by
  obtain ⟨placed, began, all⟩ := begin_streams common
  refine ⟨placed, all, ?_⟩
  obtain ⟨enough, terms, spreads, readable, onward, -, -⟩ :=
    spread_yields (shape.groups.flatMap List.zipIdx) fun i => (all i).readable
  cases enough with
  | false => exact .inl ⟨terms, spreads, by simp only [start, began, spreads]⟩
  | true =>
    have greatest := isGreatest_shifted terms
    have waits : Waits terms ((List.finRange (last + 1)).foldl (enqueue terms) []) _ :=
      Waits.foldl ⟨.refl _, fun _ member => absurd member List.not_mem_nil, .nil⟩ (List.finRange (last + 1))
    rw [List.map_nil, List.append_nil] at waits
    have started : start (S := S) shape.groups (shape.streams doc) = (.ok (some
        ⟨terms, (terms.toList.map (·.shifted)).foldl max ((terms.toList.map (·.shifted)).headD 0),
          (List.finRange (last + 1)).foldl (enqueue terms) [], Score.zero, 0⟩), terms) := by
      simp only [start, began, spreads]
    generalize (terms.toList.map (·.shifted)).foldl max ((terms.toList.map (·.shifted)).headD 0) = largest
      at greatest started
    generalize (List.finRange (last + 1)).foldl (enqueue terms) [] = waiting at waits started
    cases waiting with
    | nil => simpa using waits.perm.length_eq
    | cons first queue =>
      exact .inr ⟨⟨terms, largest, queue, Score.zero, 0⟩, first, spreads, started,
        .of_waits readable (fun i => onward.sorted (all i).sorted) greatest waits (List.reverse_perm _), rfl, rfl⟩

theorem measured_from_spread (common : ∀ i, doc ∈ Posting.docs (shape.parts i).postings) :
    ∃ placed : Vector (SloppyTerm PositionStream) (last + 1),
      (∀ i : Fin (last + 1), Placed (shape.parts i) doc (placed.get i)) ∧
      ((∃ terms, spread (shape.groups.flatMap List.zipIdx) placed = (.ok false, terms)) ∧
          shape.freqOn doc = Score.zero ∨
        ∃ (walk : SloppyWalk PositionStream S (last + 1)) (current : Fin (last + 1)),
          spread (shape.groups.flatMap List.zipIdx) placed = (.ok true, walk.terms) ∧
          OnTurn walk current (walk.largest - (walk.terms.get current).shifted) ∧
          walk.freq = Score.zero ∧ walk.occurrences = 0 ∧
          ∀ after, run shape.groups shape.relevance shape.slop (left walk.terms + 1) walk current
              (walk.largest - (walk.terms.get current).shifted) (nextShifted walk.queue) = (.ok (), after) →
            shape.freqOn doc = after.freq ∧ shape.occurrencesOn doc = after.occurrences) := by
  obtain ⟨placed, all, started⟩ := start_from_spread (S := S) common
  refine ⟨placed, all, ?_⟩
  rcases started with ⟨terms, spreads, stopped⟩ | ⟨walk, first, spreads, begins, turn, fresh, none⟩
  · refine .inl ⟨⟨terms, spreads⟩, ?_⟩
    simp only [freqOn, SloppyPhrase.measure, phrase, stopped]
  · refine .inr ⟨walk, first.index, spreads, turn, fresh, none, fun after ran => ?_⟩
    have completed : SloppyWalk.complete { walk with queue := first :: walk.queue } shape.groups shape.relevance
        shape.slop = (.ok (), after) := by
      simp only [complete, readBound_eq]
      exact ran
    constructor
    · simp only [freqOn, SloppyPhrase.measure, phrase, begins, completed]
      rfl
    · simp only [occurrencesOn, SloppyPhrase.measure, phrase, begins, completed]

end Streams

section NoRepeats

theorem measured_by_run (alone : shape.groups = [])
    (common : ∀ i, doc ∈ Posting.docs (shape.parts i).postings) :
    ∃ (walk : SloppyWalk PositionStream S (last + 1)) (current : Fin (last + 1)),
      OnTurn walk current (walk.largest - (walk.terms.get current).shifted) ∧
      (∀ i : Fin (last + 1), (walk.terms.get i).choices = shiftedIn (shape.parts i) doc) ∧
      walk.freq = Score.zero ∧ walk.occurrences = 0 ∧
      ∀ after, run [] shape.relevance shape.slop (left walk.terms + 1) walk current
          (walk.largest - (walk.terms.get current).shifted) (nextShifted walk.queue) = (.ok (), after) →
        shape.freqOn doc = after.freq ∧ shape.occurrencesOn doc = after.occurrences := by
  obtain ⟨placed, all, measured⟩ := measured_from_spread common
  rw [alone] at measured
  rcases measured with ⟨⟨terms, stopped⟩, -⟩ | ⟨walk, current, spreads, turn, fresh, none, ran⟩
  · cases stopped
  · obtain ⟨-, same⟩ := Prod.mk.inj spreads
    refine ⟨walk, current, turn, fun i => ?_, fresh, none, ran⟩
    rw [← same]
    exact (all i).choices

/-- Without repeat groups the frequency in a common document is positive if and only if the terms come close
enough to their places. -/
theorem isPositive_freqOn_iff [Score.SumsUp S] (alone : shape.groups = [])
    (rewards : Rewards shape.relevance shape.slop) (common : ∀ i, doc ∈ Posting.docs (shape.parts i).postings) :
    Score.isPositive (shape.freqOn doc) = true ↔ Close (fun i => shiftedIn (shape.parts i) doc) shape.slop := by
  obtain ⟨walk, current, turn, choices, fresh, -, measured⟩ := measured_by_run alone common
  obtain ⟨⟨⟩, after, ran, -, positive⟩ := run_counts rewards (left walk.terms + 1) walk current _ turn
    (.inl fresh) (Nat.lt_succ_self _)
  rw [(measured after ran).1, positive, fresh, Score.SumsUp.zero, ← funext choices]
  constructor
  · rintro (none | within | close)
    · cases none
    · exact turn.close_of_present within
    · exact close
  · exact fun close => .inr (.inr close)

end NoRepeats

end SloppyShape

namespace SloppyPhrase

open PhrasePart SloppyShape

def TextsDiffer (terms : List (PhraseTerm P)) : Prop :=
  terms.Pairwise fun a b => ∀ text, a.text = some text → b.text ≠ some text

omit [PostingSource P] in
theorem TextsDiffer.perm {terms others : List (PhraseTerm P)} (differ : TextsDiffer terms)
    (perm : terms.Perm others) : TextsDiffer others :=
  (perm.pairwise_iff fun {_ _} apart text second first => apart text first second).mp differ

omit [PostingSource P] in
theorem repeatGroups_eq_nil {n : Nat} {terms : Vector (PhraseTerm P) n} (differ : TextsDiffer terms.toList) :
    repeatGroups terms = [] := by
  have unique : ∀ (text : String) (i j : Fin n), (terms.get i).text = some text →
      (terms.get j).text = some text → i = j := by
    intro text i j first second
    have apart := List.pairwise_iff_getElem.mp differ
    by_contra other
    rcases lt_or_gt_of_ne (Fin.val_ne_of_ne other) with less | more
    · exact apart i j (by simp) (by simp) less text (by simpa [Vector.get_eq_getElem] using first)
        (by simpa [Vector.get_eq_getElem] using second)
    · exact apart j i (by simp) (by simp) more text (by simpa [Vector.get_eq_getElem] using second)
        (by simpa [Vector.get_eq_getElem] using first)
  refine List.filterMap_eq_nil_iff.mpr fun text _ => ?_
  unfold groupOf
  cases found : (List.finRange n).filter fun i => (terms.get i).text == some text with
  | nil => rfl
  | cons first rest =>
    have distinct := (List.nodup_finRange n).filter fun i => (terms.get i).text == some text
    have texts : ∀ i ∈ first :: rest, (terms.get i).text = some text := fun i member => by
      rw [← found] at member
      simpa using (List.mem_filter.mp member).2
    rw [found, List.nodup_cons] at distinct
    have alone : rest = [] := List.eq_nil_iff_forall_not_mem.mpr fun i member => by
      have same := unique text first i (texts first List.mem_cons_self)
        (texts i (List.mem_cons_of_mem first member))
      exact distinct.1 (same ▸ member)
    rw [alone]
    rfl

theorem ofTerms_eq {terms followers : List (PhraseTerm P)} {lead : PhraseTerm P}
    (unrefused : PhraseTerm.refusal terms = none) {slop : Int} (nonneg : 0 ≤ slop) (relevance : Relevance S)
    (arrangement : PhraseTerm.arrange terms = lead :: followers) :
    let arranged : Vector (PhraseTerm P) (followers.length + 1) := ⟨(lead :: followers).toArray, by simp⟩
    (ofTerms terms slop relevance).outcome = .ok
      ⟨followers.length, arranged.map fun term => ⟨term.postings, term.position, 0, 0⟩, repeatGroups arranged,
        relevance, slop, unpositioned, Score.zero, 0⟩ := by
  intro arranged
  unfold ofTerms
  rw [unrefused]
  simp only [if_neg (not_lt.mpr nonneg), arrangement]
  cases (repeatGroups arranged).isEmpty with
  | true => rfl
  | false => rfl

theorem ofTerms_ordered {count : Nat} {terms : Fin count → PhraseTerm P}
    (unrefused : PhraseTerm.refusal (List.ofFn terms) = none) {slop : Int} (nonneg : 0 ≤ slop)
    (relevance : Relevance S) :
    ∃ (last : Nat) (place : Fin (last + 1) ≃ Fin count) (arranged : Vector (PhraseTerm P) (last + 1)),
      (∀ i : Fin (last + 1), arranged.get i = terms (place i)) ∧
      (List.finRange (last + 1)).map place =
        StableSort.sort (fun i j => PhraseTerm.mayLead (terms i) (terms j)) (List.finRange count) ∧
      (ofTerms (List.ofFn terms) slop relevance).outcome = .ok
        ⟨last, arranged.map fun term => ⟨term.postings, term.position, 0, 0⟩, repeatGroups arranged, relevance, slop,
          unpositioned, Score.zero, 0⟩ := by
  have perm := StableSort.sort_perm (fun i j => PhraseTerm.mayLead (terms i) (terms j)) (List.finRange count)
  have arrangement : PhraseTerm.arrange (List.ofFn terms) =
      (StableSort.sort (fun i j => PhraseTerm.mayLead (terms i) (terms j)) (List.finRange count)).map terms := by
    rw [List.ofFn_eq_map]
    exact (StableSort.map_sort fun _ _ _ _ => rfl).symm
  generalize StableSort.sort (fun i j => PhraseTerm.mayLead (terms i) (terms j)) (List.finRange count) = order at *
  have distinct : order.Nodup := perm.nodup_iff.mpr (List.nodup_finRange count)
  have all : ∀ i, i ∈ order := fun i => perm.mem_iff.mpr (List.mem_finRange i)
  cases order with
  | nil =>
    have none : List.finRange count = [] := List.nil_perm.mp perm
    rw [List.ofFn_eq_map, none] at unrefused
    cases unrefused
  | cons lead followers =>
    have length : (followers.map terms).length + 1 = (lead :: followers).length := by simp
    let place := (finCongr length).trans (distinct.getEquivOfForallMemList (lead :: followers) all)
    let arranged : Vector (PhraseTerm P) ((followers.map terms).length + 1) :=
      ⟨(terms lead :: followers.map terms).toArray, by simp⟩
    have arrangedGet : ∀ i, arranged.get i = terms (place i) := by
      intro i
      change ((lead :: followers).map terms)[i.val] = terms ((lead :: followers)[i.val])
      exact List.getElem_map terms
    have listed : (List.finRange ((followers.map terms).length + 1)).map place = lead :: followers := by
      refine List.ext_getElem (by simp) fun i inside _ => ?_
      simp only [List.getElem_map, List.getElem_finRange]
      rfl
    exact ⟨(followers.map terms).length, place, arranged, arrangedGet, listed,
      ofTerms_eq unrefused nonneg relevance arrangement⟩

theorem ofTerms_outcome {count : Nat} {terms : Fin count → PhraseTerm P}
    (unrefused : PhraseTerm.refusal (List.ofFn terms) = none) {slop : Int} (nonneg : 0 ≤ slop)
    (relevance : Relevance S) :
    ∃ (last : Nat) (place : Fin (last + 1) ≃ Fin count) (arranged : Vector (PhraseTerm P) (last + 1)),
      (∀ i : Fin (last + 1), arranged.get i = terms (place i)) ∧
      (ofTerms (List.ofFn terms) slop relevance).outcome = .ok
        ⟨last, arranged.map fun term => ⟨term.postings, term.position, 0, 0⟩, repeatGroups arranged, relevance, slop,
          unpositioned, Score.zero, 0⟩ := by
  obtain ⟨last, place, arranged, same, -, made⟩ := ofTerms_ordered unrefused nonneg relevance
  exact ⟨last, place, arranged, same, made⟩

theorem unrefused_of_made {terms : List (PhraseTerm P)} {slop : Int} {relevance : Relevance S}
    {phrase : SloppyPhrase P S} (made : (ofTerms terms slop relevance).outcome = .ok phrase) :
    PhraseTerm.refusal terms = none ∧ 0 ≤ slop := by
  unfold ofTerms at made
  split at made
  next => cases made
  next unrefused =>
    split at made
    next => cases made
    next nonneg => exact ⟨unrefused, not_lt.mp nonneg⟩

theorem ofTerms_places {count : Nat} {parts : Fin count → PhrasePart} {terms : Fin count → PhraseTerm P}
    (makes : Makes (List.ofFn parts) (List.ofFn terms)) {slop : Int} (nonneg : 0 ≤ slop) (relevance : Relevance S) :
    ∃ (last : Nat) (place : Fin (last + 1) ≃ Fin count) (arranged : Vector (PhraseTerm P) (last + 1))
      (phrase : SloppyPhrase P S), (∀ i : Fin (last + 1), arranged.get i = terms (place i)) ∧
      (ofTerms (List.ofFn terms) slop relevance).outcome = .ok phrase ∧ phrase.doc = unpositioned ∧
      SloppyShape.Sound ⟨fun i => parts (place i), repeatGroups arranged, relevance, slop⟩ phrase := by
  obtain ⟨last, place, arranged, same, made⟩ := ofTerms_outcome makes.refusal_eq_none nonneg relevance
  let start : Vector (SloppyTerm P) (last + 1) := arranged.map fun term => ⟨term.postings, term.position, 0, 0⟩
  let shape : SloppyShape S last := ⟨fun i => parts (place i), repeatGroups arranged, relevance, slop⟩
  refine ⟨last, place, arranged, shape.phrase start unpositioned Score.zero 0, same, made, rfl,
    sound_of_fresh fun i => ?_⟩
  have here : start.get i = ⟨(terms (place i)).postings, (terms (place i)).position, 0, 0⟩ := by
    rw [← same i]
    simp only [start, Vector.get_eq_getElem, Vector.getElem_map]
  rw [here]
  exact ⟨(makes.describes (place i)).position, (makes.describes (place i)).stands⟩

theorem ofTerms_sound {parts : List PhrasePart} {terms : List (PhraseTerm P)} (makes : Makes parts terms)
    {slop : Int} (nonneg : 0 ≤ slop) (relevance : Relevance S) :
    ∃ (last : Nat) (shape : SloppyShape S last) (phrase : SloppyPhrase P S),
      (ofTerms terms slop relevance).outcome = .ok phrase ∧ phrase.doc = unpositioned ∧ shape.Sound phrase ∧
      (List.ofFn shape.parts).Perm parts ∧ shape.relevance = relevance ∧ shape.slop = slop ∧
      (TextsDiffer terms → shape.groups = []) := by
  obtain ⟨count, partAt, rfl⟩ : ∃ (count : Nat) (partAt : Fin count → PhrasePart), parts = List.ofFn partAt :=
    ⟨parts.length, parts.get, (List.ofFn_get parts).symm⟩
  obtain ⟨termAt, rfl⟩ : ∃ termAt : Fin count → PhraseTerm P, terms = List.ofFn termAt := by
    have length : terms.length = count := by rw [← makes.describe.length_eq, List.length_ofFn]
    subst length
    exact ⟨terms.get, (List.ofFn_get terms).symm⟩
  obtain ⟨last, place, arranged, phrase, same, made, fresh, sound⟩ := ofTerms_places makes nonneg relevance
  have everyone : ((List.finRange (last + 1)).map place).Perm (List.finRange count) :=
    (List.perm_ext_iff_of_nodup ((List.nodup_finRange _).map place.injective) (List.nodup_finRange _)).mpr
      fun i => by simpa using ⟨place.symm i, place.apply_symm_apply i⟩
  refine ⟨last, _, phrase, made, fresh, sound, ?_, rfl, rfl, fun differ => repeatGroups_eq_nil ?_⟩
  · have listed := everyone.map partAt
    rw [List.map_map] at listed
    rw [List.ofFn_eq_map, List.ofFn_eq_map]
    exact listed
  · have listing : arranged.toList = ((List.finRange (last + 1)).map place).map termAt := by
      refine List.ext_getElem (by simp) fun i inside _ => ?_
      simpa [Vector.get_eq_getElem] using same ⟨i, by simpa using inside⟩
    rw [listing]
    refine differ.perm ?_
    rw [List.ofFn_eq_map]
    exact (everyone.map termAt).symm

theorem ofTerms_denotes {parts : List PhrasePart} {terms : List (PhraseTerm P)} (makes : Makes parts terms)
    {slop : Int} (nonneg : 0 ≤ slop) (relevance : Relevance S) :
    ∃ (last : Nat) (shape : SloppyShape S last) (phrase : SloppyPhrase P S),
      (ofTerms terms slop relevance).outcome = .ok phrase ∧ Denotes phrase shape.meaning ∧
      (List.ofFn shape.parts).Perm parts ∧ shape.relevance = relevance ∧ shape.slop = slop ∧
      (TextsDiffer terms → shape.groups = []) := by
  obtain ⟨last, shape, phrase, made, fresh, sound, rest⟩ := ofTerms_sound makes nonneg relevance
  exact ⟨last, shape, phrase, made, .of_invariant shape.sound_invariant sound fresh, rest⟩

/-- A sloppy phrase without repeated terms lands on exactly the documents that have all its terms close enough
to their places, from wherever a legal walk has led it. -/
theorem walk_lands_on_close_terms [Score.SumsUp S] {parts : List PhrasePart} {terms : List (PhraseTerm P)}
    (makes : Makes parts terms) (differ : TextsDiffer terms) {slop : Int} (nonneg : 0 ≤ slop)
    {relevance : Relevance S} (rewards : SloppyWalk.Rewards relevance slop) :
    ∃ phrase, (ofTerms terms slop relevance).outcome = .ok phrase ∧ Cursor.doc phrase = unpositioned ∧
      ∃ docs : Finset DocId, (∀ doc, doc ∈ docs ↔ IsReal doc ∧
          (∀ part ∈ parts, doc ∈ Posting.docs part.postings) ∧ CloseIn parts doc slop) ∧
        ∀ state, Reaches phrase state →
          (Cursor.doc state ≠ noMoreDocs →
            (Cursor.next state).Yields (Arrival docs (Cursor.doc state + 1))) ∧
          ∀ target, Cursor.doc state < target → target ≤ noMoreDocs →
            (Cursor.advance state target).Yields (Arrival docs target) := by
  obtain ⟨last, shape, phrase, made, denotes, perm, rfl, rfl, unrepeated⟩ := ofTerms_denotes makes nonneg relevance
  refine ⟨phrase, made, denotes.fresh, shape.docs, fun doc => ?_, fun state reached => ?_⟩
  · have common : (∀ i, doc ∈ Posting.docs (shape.parts i).postings) ↔
        ∀ part ∈ parts, doc ∈ Posting.docs part.postings := by
      rw [← List.forall_mem_ofFn_iff (f := shape.parts) (P := fun part => doc ∈ Posting.docs part.postings)]
      simp only [perm.mem_iff]
    rw [mem_docs, ← close_iff_closeIn perm, ← common, and_assoc]
    exact and_congr_right fun real => and_congr_right fun all =>
      isPositive_freqOn_iff (unrepeated differ) rewards all
  · have behaves := denotes.refines state reached
    exact ⟨behaves.next, behaves.advance⟩

/-- Two terms, one behind the other. They are too far apart in document 2, and the wrong way round but close in
document 4. -/
theorem swapped_terms_are_close :
    ∃ phrase after : SloppyPhrase PostingList Float32,
      (ofTerms [⟨.fresh [⟨2, 1, [0]⟩, ⟨4, 1, [3]⟩], 0, some "quick"⟩,
        ⟨.fresh [⟨2, 1, [5]⟩, ⟨4, 1, [2]⟩], 1, some "fox"⟩] 2
        { Relevance.constant Score.one Score.one with slopFactor := fun _ => Score.one }).outcome = .ok phrase ∧
      Cursor.next phrase = (.ok 4, after) := by
  let quick : PhrasePart := ⟨[⟨2, 1, [0]⟩, ⟨4, 1, [3]⟩], 0, ⟨⟨rfl, by decide⟩, by decide⟩⟩
  let fox : PhrasePart := ⟨[⟨2, 1, [5]⟩, ⟨4, 1, [2]⟩], 1, ⟨⟨rfl, by decide⟩, by decide⟩⟩
  have makes : Makes [quick, fox] [⟨(.fresh quick.postings : PostingList), 0, some "quick"⟩,
      ⟨.fresh fox.postings, 1, some "fox"⟩] :=
    ⟨.cons ⟨PostingList.standsAt rfl, rfl⟩ (.cons ⟨PostingList.standsAt rfl, rfl⟩ .nil), by decide,
      by simp [quick, fox]⟩
  have rewards : SloppyWalk.Rewards ({ Relevance.constant Score.one Score.one with
      slopFactor := fun _ => Score.one } : Relevance Float32) 2 :=
    fun _ _ _ => show Score.isPositive (Score.one : Float32) = true by decide +kernel
  obtain ⟨phrase, made, fresh, docs, mem, walk⟩ :=
    walk_lands_on_close_terms makes (by simp [TextsDiffer]) (by decide) rewards
  obtain ⟨landing, after, answer, -, lands⟩ := (walk phrase .refl).1 (by rw [fresh]; decide)
  have close : CloseIn [quick, fox] 4 2 := ⟨![3, 2], by decide, by decide⟩
  have apart : ¬CloseIn [quick, fox] 2 2 := by
    rintro ⟨choice, listed, near⟩
    have first : choice 0 = 0 := List.mem_singleton.mp (listed 0)
    have second : choice 1 = 5 := List.mem_singleton.mp (listed 1)
    have distance : choice 1 - 1 - (choice 0 - 0) ≤ 2 := near 1 0
    lia
  have reached : landing ≤ 4 := lands.first 4 ((mem 4).mpr ⟨by decide, by decide, close⟩) (by rw [fresh]; decide)
  have landed : landing = 4 := by
    rcases lands.place with listed | ended
    · obtain ⟨-, common, here⟩ := (mem landing).mp listed
      have member := common quick List.mem_cons_self
      have known : landing = 2 ∨ landing = 4 := by simpa [quick, Posting.docs] using member
      exact known.resolve_left fun two => apart (two ▸ here)
    · rw [ended] at reached
      exact absurd reached (by decide)
  exact ⟨phrase, after, made, landed ▸ answer⟩

end SloppyPhrase

end PostingQuery
