import Mathlib
import PostingQuery.Phrase.Sloppy
import PostingQuery.Proofs.PhraseTerm

/-!
A sloppy phrase sees one document only through the positions that its terms read there. Two walks whose
terms read the same positions take the same steps, so a walk over any postings is followed by one over bare
streams of positions.
-/

namespace PostingQuery

structure PositionStream where
  unread : List Int

namespace PositionStream

def nextPosition (stream : PositionStream) : Step PositionStream Int :=
  match stream.unread with
  | [] => (.error (.posting .notOnDocument), stream)
  | position :: unread => (.ok position, ⟨unread⟩)

instance : PostingSource PositionStream where
  doc _ := 0
  next stream := (.ok noMoreDocs, stream)
  advance stream _ := (.ok noMoreDocs, stream)
  cost _ := 1
  freq stream := .ok stream.unread.length
  nextPosition := nextPosition

end PositionStream

variable {P Q S : Type} [PostingSource P] [PostingSource Q] {n : Nat}

namespace SloppyWalk

omit [PostingSource P] [PostingSource Q] in
theorem getElem_eq_get {α : Type} (elements : Vector α n) (place : Fin n) :
    getElem elements place place.isLt = elements.get place := rfl

omit [PostingSource P] [PostingSource Q] in
theorem toList_eq_map_get {α : Type} (elements : Vector α n) : elements.toList = (List.finRange n).map elements.get :=
  List.ext_getElem (by simp) fun i inside _ => by simp [Vector.get_eq_getElem]

omit [PostingSource P] [PostingSource Q] in
theorem get_set {α : Type} (elements : Vector α n) (place other : Fin n) (element : α) :
    (elements.set place element place.isLt).get other = if place = other then element else elements.get other := by
  simp [Vector.get_eq_getElem, Vector.getElem_set, Fin.ext_iff]

end SloppyWalk

/-- Relations of terms, one for each place of the phrase, that read the same positions from here on. Where reading
may fail, it leaves a term that `held` tells something about. -/
structure Mirroring (alike : Fin n → SloppyTerm P → SloppyTerm Q → Prop) (held : Fin n → SloppyTerm P → Prop)
    (failing : Prop) : Prop where
  offset : ∀ i term mirror, alike i term mirror → term.offset = mirror.offset
  unread : ∀ i term mirror, alike i term mirror → term.unread = mirror.unread
  shifted : ∀ i term mirror, alike i term mirror → term.shifted = mirror.shifted
  holds : ∀ i term mirror, alike i term mirror → held i term
  read : ∀ i term mirror, alike i term mirror →
    term.read.Agrees (alike i) (fun after => failing ∧ held i after) mirror.read

namespace SloppyWalk

def AllAlike (alike : Fin n → SloppyTerm P → SloppyTerm Q → Prop) (terms : Vector (SloppyTerm P) n)
    (mirrors : Vector (SloppyTerm Q) n) : Prop :=
  ∀ i : Fin n, alike i (terms.get i) (mirrors.get i)

def Stopped (held : Fin n → SloppyTerm P → Prop) (failing : Prop) (terms : Vector (SloppyTerm P) n) : Prop :=
  failing ∧ ∀ i : Fin n, held i (terms.get i)

structure Alike (alike : Fin n → SloppyTerm P → SloppyTerm Q → Prop) (walk : SloppyWalk P S n)
    (mirror : SloppyWalk Q S n) : Prop where
  terms : AllAlike alike walk.terms mirror.terms
  largest : walk.largest = mirror.largest
  queue : walk.queue = mirror.queue
  freq : walk.freq = mirror.freq
  occurrences : walk.occurrences = mirror.occurrences

variable {alike : Fin n → SloppyTerm P → SloppyTerm Q → Prop} {held : Fin n → SloppyTerm P → Prop} {failing : Prop}
  {terms : Vector (SloppyTerm P) n} {mirrors : Vector (SloppyTerm Q) n}

omit [PostingSource P] [PostingSource Q] in
theorem forall_set {holds : Fin n → SloppyTerm P → Prop} {i : Fin n} {term : SloppyTerm P}
    (elsewhere : ∀ j : Fin n, i ≠ j → holds j (terms.get j)) (here : holds i term) :
    ∀ j : Fin n, holds j ((terms.set i term i.isLt).get j) := by
  intro j
  rw [get_set]
  split
  next same =>
    subst same
    exact here
  next other => exact elsewhere j other

omit [PostingSource P] [PostingSource Q] in
theorem AllAlike.set (all : AllAlike alike terms mirrors) {i : Fin n} {term : SloppyTerm P}
    {mirror : SloppyTerm Q} (here : alike i term mirror) :
    AllAlike alike (terms.set i term i.isLt) (mirrors.set i mirror i.isLt) := by
  intro j
  rw [get_set, get_set]
  split
  next same =>
    subst same
    exact here
  next => exact all j

section Keys

variable (mirroring : Mirroring alike held failing) (all : AllAlike alike terms mirrors)
include mirroring all

theorem position_eq (i : Fin n) : (terms.get i).position = (mirrors.get i).position := by
  rw [SloppyTerm.position, SloppyTerm.position, mirroring.shifted _ _ _ (all i), mirroring.offset _ _ _ (all i)]

theorem enqueue_eq (queue : List (QueuedTerm n)) (i : Fin n) :
    enqueue terms queue i = enqueue mirrors queue i := by
  simp only [enqueue, getElem_eq_get, mirroring.shifted _ _ _ (all i), mirroring.offset _ _ _ (all i)]

theorem collision_eq (groups : List (List (Fin n))) (i : Fin n) :
    collision groups terms i = collision groups mirrors i := by
  simp only [collision, getElem_eq_get, position_eq mirroring all]

theorem lesser_eq (a b : Fin n) : lesser terms a b = lesser mirrors a b := by
  simp only [lesser, getElem_eq_get, mirroring.shifted _ _ _ (all _), mirroring.offset _ _ _ (all _)]

theorem map_shifted_eq : terms.toList.map (·.shifted) = mirrors.toList.map (·.shifted) := by
  refine List.ext_getElem (by simp) fun i inside _ => ?_
  have bound : i < n := by simpa using inside
  simpa [Vector.get_eq_getElem] using mirroring.shifted _ _ _ (all ⟨i, bound⟩)

theorem map_unread_eq : terms.toList.map (·.unread) = mirrors.toList.map (·.unread) := by
  refine List.ext_getElem (by simp) fun i inside _ => ?_
  have bound : i < n := by simpa using inside
  simpa [Vector.get_eq_getElem] using mirroring.unread _ _ _ (all ⟨i, bound⟩)

theorem all_held (i : Fin n) : held i (terms.get i) := mirroring.holds _ _ _ (all i)

theorem readTerm_agrees (i : Fin n) :
    (readTerm terms i).Agrees (AllAlike alike) (Stopped held failing) (readTerm mirrors i) := by
  simp only [readTerm, getElem_eq_get]
  rcases mirroring.read _ _ _ (all i) with ⟨outcome, after, mirror, same, mirrorSame, here⟩ |
    ⟨failure, after, same, may, here⟩
  · rw [same, mirrorSame]
    exact .same (all.set here)
  · rw [same]
    exact .stops ⟨may, forall_set (fun j _ => all_held mirroring all j) here⟩

end Keys

theorem skip_agrees (mirroring : Mirroring alike held failing) (i : Fin n) (count : Nat)
    (all : AllAlike alike terms mirrors) :
    (skip i count terms).Agrees (AllAlike alike) (Stopped held failing) (skip i count mirrors) := by
  induction count generalizing terms mirrors with
  | zero => exact .same all
  | succ count ih =>
    rw [skip, skip]
    rcases readTerm_agrees mirroring all i with ⟨outcome, after, mirror, same, mirrorSame, allAfter⟩ |
      ⟨failure, after, same, stopped⟩
    · rw [same, mirrorSame]
      rcases outcome with failure | (_ | _)
      · exact .same allAfter
      · exact .same allAfter
      · exact ih allAfter
    · rw [same]
      exact .stops stopped

theorem spread_agrees (mirroring : Mirroring alike held failing) (counts : List (Fin n × Nat))
    (all : AllAlike alike terms mirrors) :
    (spread counts terms).Agrees (AllAlike alike) (Stopped held failing) (spread counts mirrors) := by
  induction counts generalizing terms mirrors with
  | nil => exact .same all
  | cons first rest ih =>
    obtain ⟨i, count⟩ := first
    rw [spread, spread]
    rcases skip_agrees mirroring i count all with ⟨outcome, after, mirror, same, mirrorSame, allAfter⟩ |
      ⟨failure, after, same, stopped⟩
    · rw [same, mirrorSame]
      rcases outcome with failure | (_ | _)
      · exact .same allAfter
      · exact .same allAfter
      · exact ih allAfter
    · rw [same]
      exact .stops stopped

theorem beginTerms_agrees (holds : ∀ i term mirror, alike i term mirror → held i term)
    {fresh : Fin n → SloppyTerm P → SloppyTerm Q → Prop}
    (begins : ∀ i term mirror, fresh i term mirror → held i term ∧ mirror.begin.1 = .ok () ∧
      term.begin.Agrees (alike i) (fun after => failing ∧ held i after) mirror.begin)
    (places : List (Fin n)) (distinct : places.Nodup)
    (waiting : ∀ i ∈ places, fresh i (terms.get i) (mirrors.get i))
    (placed : ∀ i, i ∉ places → alike i (terms.get i) (mirrors.get i)) :
    (∃ after mirrorAfter, beginTerms places terms = (.ok (), after) ∧
      beginTerms places mirrors = (.ok (), mirrorAfter) ∧ AllAlike alike after mirrorAfter) ∨
    ∃ failure after, beginTerms places terms = (.error failure, after) ∧ Stopped held failing after := by
  induction places generalizing terms mirrors with
  | nil => exact .inl ⟨terms, mirrors, rfl, rfl, fun i => placed i List.not_mem_nil⟩
  | cons i rest ih =>
    rw [List.nodup_cons] at distinct
    have all : ∀ j : Fin n, held j (terms.get j) := by
      intro j
      by_cases listed : j ∈ i :: rest
      · exact (begins _ _ _ (waiting j listed)).1
      · exact holds _ _ _ (placed j listed)
    obtain ⟨-, succeeds, agrees⟩ := begins _ _ _ (waiting i List.mem_cons_self)
    rcases agrees with ⟨outcome, after, mirror, same, mirrorSame, here⟩ | ⟨failure, after, same, may, here⟩
    · rw [mirrorSame] at succeeds
      change outcome = .ok () at succeeds
      subst succeeds
      have elsewhere : ∀ j, i ≠ j →
          (terms.set i after).get j = terms.get j ∧ (mirrors.set i mirror).get j = mirrors.get j :=
        fun j other => ⟨by rw [get_set, if_neg other], by rw [get_set, if_neg other]⟩
      simp only [beginTerms, getElem_eq_get, same, mirrorSame]
      refine ih distinct.2 (fun j member => ?_) fun j unlisted => ?_
      · have other : i ≠ j := fun same => distinct.1 (same ▸ member)
        rw [(elsewhere j other).1, (elsewhere j other).2]
        exact waiting j (List.mem_cons_of_mem i member)
      · by_cases same : i = j
        · subst same
          rw [get_set, get_set, if_pos rfl, if_pos rfl]
          exact here
        · rw [(elsewhere j same).1, (elsewhere j same).2]
          exact placed j fun listed => (List.mem_cons.mp listed).elim (Ne.symm same) unlisted
    · simp only [beginTerms, getElem_eq_get, same]
      exact .inr ⟨failure, _, rfl, may, forall_set (fun j _ => all j) here⟩

variable {walk : SloppyWalk P S n} {mirror : SloppyWalk Q S n}

theorem Alike.move_agrees (mirroring : Mirroring alike held failing) (same : Alike alike walk mirror) (i : Fin n) :
    (walk.move i).Agrees (Alike alike) (fun after => Stopped held failing after.terms) (mirror.move i) := by
  rw [move, move]
  rcases readTerm_agrees mirroring same.terms i with ⟨outcome, after, other, walkRead, mirrorRead, all⟩ |
    ⟨failure, after, walkRead, stopped⟩
  · rw [walkRead, mirrorRead]
    rcases outcome with failure | (_ | _)
    · exact .same ⟨all, same.largest, same.queue, same.freq, same.occurrences⟩
    · exact .same ⟨all, same.largest, same.queue, same.freq, same.occurrences⟩
    · refine .same ⟨all, ?_, same.queue, same.freq, same.occurrences⟩
      change max walk.largest (after.get i).shifted = max mirror.largest (other.get i).shifted
      rw [same.largest, mirroring.shifted _ _ _ (all i)]
  · rw [walkRead]
    exact .stops stopped

theorem Alike.requeue (mirroring : Mirroring alike held failing) (same : Alike alike walk mirror) :
    Alike alike walk.requeue mirror.requeue := by
  refine ⟨same.terms, same.largest, ?_, same.freq, same.occurrences⟩
  change (walk.queue.map (·.index)).foldl (enqueue walk.terms) [] =
    (mirror.queue.map (·.index)).foldl (enqueue mirror.terms) []
  have each : enqueue walk.terms = enqueue mirror.terms :=
    funext fun queue => funext fun i => enqueue_eq mirroring same.terms queue i
  rw [same.queue, each]

theorem Alike.separate_agrees (mirroring : Mirroring alike held failing) (groups : List (List (Fin n)))
    (first : Fin n) (reads : Nat) (same : Alike alike walk mirror) (current : Fin n) (disturbed : Bool) :
    (separate groups first reads walk current disturbed).Agrees (Alike alike)
      (fun after => Stopped held failing after.terms) (separate groups first reads mirror current disturbed) := by
  induction reads generalizing walk mirror current disturbed with
  | zero => exact .same same
  | succ reads ih =>
    rw [separate, separate, collision_eq mirroring same.terms]
    cases collision groups mirror.terms current with
    | none =>
      cases disturbed with
      | false => exact .same same
      | true => exact .same (same.requeue mirroring)
    | some other =>
      simp only [lesser_eq mirroring same.terms]
      rcases same.move_agrees mirroring (lesser mirror.terms current other) with
        ⟨outcome, after, mirrorAfter, walkMove, mirrorMove, sameAfter⟩ | ⟨failure, after, walkMove, stopped⟩
      · simp only [walkMove, mirrorMove]
        rcases outcome with failure | (_ | _)
        · exact .same sameAfter
        · exact .same sameAfter
        · exact ih sameAfter _ _
      · simp only [walkMove]
        exact .stops stopped

theorem Alike.readBound_eq (mirroring : Mirroring alike held failing) (same : Alike alike walk mirror) :
    walk.readBound = mirror.readBound := by
  have sums : ∀ {R : Type} (terms : List (SloppyTerm R)),
      terms.foldr (fun term readings => term.unread + readings) 1 =
        (terms.map (·.unread)).foldr (· + ·) 1 := fun terms => List.foldr_map.symm
  rw [readBound, readBound, sums, sums, map_unread_eq mirroring same.terms]

variable [Score S] {relevance : Relevance S} {slop span : Int}

omit [PostingSource P] [PostingSource Q] in
theorem Alike.judge (same : Alike alike walk mirror) :
    Alike alike (walk.judge relevance slop span) (mirror.judge relevance slop span) := by
  unfold SloppyWalk.judge
  split
  · exact ⟨same.terms, same.largest, same.queue, by rw [same.freq], by rw [same.occurrences]⟩
  · exact same

theorem Alike.run_agrees (mirroring : Mirroring alike held failing) (groups : List (List (Fin n)))
    (relevance : Relevance S) (slop : Int) (reads : Nat) (same : Alike alike walk mirror) (current : Fin n)
    (span next : Int) :
    (run groups relevance slop reads walk current span next).Agrees (Alike alike)
      (fun after => Stopped held failing after.terms)
      (run groups relevance slop reads mirror current span next) := by
  induction reads generalizing walk mirror current span next with
  | zero => exact .same same
  | succ reads ih =>
    rw [run, run]
    rcases same.move_agrees mirroring current with
      ⟨outcome, moved, mirrorMoved, walkMove, mirrorMove, sameMoved⟩ | ⟨failure, after, walkMove, stopped⟩
    · rw [walkMove, mirrorMove]
      rcases outcome with failure | (_ | _)
      · exact .same sameMoved
      · exact .same sameMoved.judge
      · simp only [sameMoved.readBound_eq mirroring]
        rcases sameMoved.separate_agrees mirroring groups current mirrorMoved.readBound current false with
          ⟨outcome, parted, mirrorParted, walkPart, mirrorPart, sameParted⟩ | ⟨failure, after, walkPart, stopped⟩
        · simp only [walkPart, mirrorPart]
          rcases outcome with failure | (_ | _)
          · exact .same sameParted
          · exact .same sameParted.judge
          · have judged : Alike alike (parted.judge relevance slop span) (mirrorParted.judge relevance slop span) :=
              sameParted.judge
            have queueSame := enqueue_eq mirroring judged.terms (mirrorParted.judge relevance slop span).queue current
            have shifted := mirroring.shifted _ _ _ (sameParted.terms current)
            simp only [getElem_eq_get, shifted, judged.queue, queueSame]
            split
            · cases enqueue (mirrorParted.judge relevance slop span).terms
                (mirrorParted.judge relevance slop span).queue current with
              | nil => exact .same judged.judge
              | cons first queue =>
                have popped : Alike alike { parted.judge relevance slop span with queue }
                    { mirrorParted.judge relevance slop span with queue } :=
                  ⟨judged.terms, judged.largest, rfl, judged.freq, judged.occurrences⟩
                have spans : (parted.judge relevance slop span).largest -
                    ((parted.judge relevance slop span).terms.get first.index).shifted =
                    (mirrorParted.judge relevance slop span).largest -
                    ((mirrorParted.judge relevance slop span).terms.get first.index).shifted := by
                  rw [judged.largest, mirroring.shifted _ _ _ (judged.terms first.index)]
                simp only [spans]
                exact ih popped _ _ _
            · rw [sameParted.largest]
              exact ih sameParted _ _ _
        · simp only [walkPart]
          exact .stops stopped
    · rw [walkMove]
      exact .stops stopped

theorem Alike.complete_agrees (mirroring : Mirroring alike held failing) (groups : List (List (Fin n)))
    (relevance : Relevance S) (slop : Int) (same : Alike alike walk mirror) :
    (walk.complete groups relevance slop).Agrees (Alike alike) (fun after => Stopped held failing after.terms)
      (mirror.complete groups relevance slop) := by
  rw [complete, complete, same.queue]
  cases mirror.queue with
  | nil => exact .same same
  | cons first queue =>
    have popped : Alike alike { walk with queue } { mirror with queue } :=
      ⟨same.terms, same.largest, rfl, same.freq, same.occurrences⟩
    have spans : walk.largest - (walk.terms.get first.index).shifted =
        mirror.largest - (mirror.terms.get first.index).shifted := by
      rw [same.largest, mirroring.shifted _ _ _ (same.terms first.index)]
    simp only [same.readBound_eq mirroring, getElem_eq_get, spans]
    exact popped.run_agrees mirroring groups relevance slop _ _ _ _

end SloppyWalk

namespace SloppyTerm

def Visits (stands : List Posting → P → PostingPlace → Prop) (postings : List Posting) (place : Int) (doc : DocId)
    (term : SloppyTerm P) : Prop :=
  term.offset = place ∧ ∃ spot, stands postings term.postings spot ∧ spot.doc = doc

def On (stands : List Posting → P → PostingPlace → Prop) (part : PhrasePart) (doc : DocId) (term : SloppyTerm P) :
    Prop :=
  Visits stands part.postings part.position doc term

structure Mirrors (stands : List Posting → P → PostingPlace → Prop) (postings : List Posting) (place : Int) (doc : DocId)
    (term : SloppyTerm P) (mirror : SloppyTerm PositionStream) : Prop where
  offset : term.offset = place ∧ mirror.offset = place
  unread : term.unread = mirror.unread
  shifted : term.shifted = mirror.shifted
  counted : mirror.unread = mirror.postings.unread.length
  stands : ∃ posting ∈ postings, posting.doc = doc ∧
    stands postings term.postings (.reading posting mirror.postings.unread)
  nonneg : ∀ position ∈ mirror.postings.unread, 0 ≤ position

/-- A term that has not read any position of a document and the stream of all of them. A term without positions stays
where it was, and so does its stream. -/
structure Fresh (stands : List Posting → P → PostingPlace → Prop) (postings : List Posting) (place : Int) (doc : DocId)
    (term : SloppyTerm P) (mirror : SloppyTerm PositionStream) : Prop where
  offset : term.offset = place ∧ mirror.offset = place
  opened : Untouched stands postings doc term.postings
  stream : mirror.postings.unread = Posting.positionsIn postings doc
  stays : Posting.positionsIn postings doc = [] → term.shifted = mirror.shifted

variable {stands : List Posting → P → PostingPlace → Prop} {failing : Prop} {postings : List Posting} {place : Int}
  {doc : DocId} {term : SloppyTerm P} {mirror : SloppyTerm PositionStream} {posting : Posting} {position : Int} {unread : List Int}

omit [PostingSource P] in
theorem Mirrors.visits (mirrors : Mirrors stands postings place doc term mirror) :
    Visits stands postings place doc term := by
  obtain ⟨posting, -, here, standing⟩ := mirrors.stands
  exact ⟨mirrors.offset.1, _, standing, here⟩

omit [PostingSource P] in
theorem Fresh.visits (fresh : Fresh stands postings place doc term mirror) :
    Visits stands postings place doc term := by
  obtain ⟨posting, -, here, standing⟩ := fresh.opened
  exact ⟨fresh.offset.1, _, standing, here⟩

theorem read_tries (standing : Standing stands failing)
    (reading : stands postings term.postings (.reading posting (position :: unread)))
    (nonneg : 0 ≤ position) (counted : term.unread = unread.length + 1) :
    (∃ source, term.read = (.ok true, ⟨source, term.offset, unread.length, position - term.offset⟩) ∧
      stands postings source (.reading posting unread)) ∨
    ∃ failure source, term.read = (.error failure, { term with postings := source, unread := unread.length }) ∧
      failing ∧ ∃ rest, stands postings source (.reading posting rest) := by
  unfold read
  rw [counted]
  rcases standing.nextPosition reading with ⟨answer, source, same, rfl, after⟩ | ⟨failure, source, same, stopped⟩
  · refine .inl ⟨source, ?_, after⟩
    simp only [same, if_neg (not_lt.mpr nonneg)]
  · exact .inr ⟨failure, source, by simp only [same], stopped⟩

theorem read_stream (stream : mirror.postings.unread = position :: unread) (nonneg : 0 ≤ position)
    (counted : mirror.unread = unread.length + 1) :
    mirror.read = (.ok true, ⟨⟨unread⟩, mirror.offset, unread.length, position - mirror.offset⟩) := by
  have next : PostingSource.nextPosition mirror.postings = (.ok position, ⟨unread⟩) := by
    change PositionStream.nextPosition mirror.postings = _
    rw [PositionStream.nextPosition, stream]
  unfold read
  rw [counted]
  simp only [next, if_neg (not_lt.mpr nonneg)]

theorem begin_stream (stream : mirror.postings.unread = position :: unread) (nonneg : 0 ≤ position) :
    mirror.begin = (.ok (), ⟨⟨unread⟩, mirror.offset, unread.length, position - mirror.offset⟩) := by
  have freq : PostingSource.freq mirror.postings = .ok ((position :: unread).length : Int) := by
    rw [← stream]
    rfl
  have counted : ((position :: unread).length : Int).toNat = unread.length + 1 := by simp
  have same : ({ mirror with unread := ((position :: unread).length : Int).toNat } :
      SloppyTerm PositionStream).read =
        (.ok true, ⟨⟨unread⟩, mirror.offset, unread.length, position - mirror.offset⟩) :=
    read_stream stream nonneg counted
  simp only [begin, freq, same]
  rfl

theorem read_of_unread_eq_zero (none : term.unread = 0) : term.read = (.ok false, term) := by
  unfold read
  rw [none]

theorem Mirrors.read_agrees (standing : Standing stands failing)
    (mirrors : Mirrors stands postings place doc term mirror) :
    term.read.Agrees (Mirrors stands postings place doc) (fun after => failing ∧ Visits stands postings place doc after)
      mirror.read := by
  obtain ⟨posting, listed, here, reading⟩ := mirrors.stands
  have counted := mirrors.counted
  have nonneg := mirrors.nonneg
  cases stream : mirror.postings.unread with
  | nil =>
    rw [stream] at counted
    rw [read_of_unread_eq_zero (mirrors.unread.trans counted), read_of_unread_eq_zero counted]
    exact .same mirrors
  | cons position unread =>
    rw [stream, List.length_cons] at counted
    rw [stream] at reading nonneg
    have first := nonneg position List.mem_cons_self
    rcases read_tries standing reading first (mirrors.unread.trans counted) with
      ⟨source, same, after⟩ | ⟨failure, source, same, may, rest, after⟩
    · rw [same, read_stream stream first counted]
      refine .same ⟨mirrors.offset, rfl, ?_, rfl, ⟨posting, listed, here, after⟩,
        fun other member => nonneg other (List.mem_cons_of_mem position member)⟩
      rw [mirrors.offset.1, mirrors.offset.2]
    · rw [same]
      exact .stops ⟨may, mirrors.offset.1, _, after, here⟩

theorem mirroring (standing : Standing stands failing) (postings : Fin n → List Posting) (place : Fin n → Int)
    (doc : DocId) :
    Mirroring (fun i (term : SloppyTerm P) => Mirrors stands (postings i) (place i) doc term)
      (fun i term => Visits stands (postings i) (place i) doc term) failing where
  offset _ _ _ mirrors := mirrors.offset.1.trans mirrors.offset.2.symm
  unread _ _ _ mirrors := mirrors.unread
  shifted _ _ _ mirrors := mirrors.shifted
  holds _ _ _ mirrors := mirrors.visits
  read _ _ _ mirrors := mirrors.read_agrees standing

theorem begin_of_freq_eq_zero (none : PostingSource.freq term.postings = .ok 0) :
    term.begin = (.ok (), { term with unread := 0 }) := by
  simp only [begin, none]
  rfl

theorem Fresh.begin_agrees (standing : Standing stands failing) (counted : Posting.Counted postings)
    (fresh : Fresh stands postings place doc term mirror) (real : IsReal doc) :
    mirror.begin.1 = .ok () ∧ term.begin.Agrees (Mirrors stands postings place doc)
      (fun after => failing ∧ Visits stands postings place doc after) mirror.begin := by
  have visits := fresh.visits
  obtain ⟨posting, listed, rfl, reading⟩ := fresh.opened
  have indexes := counted.indexes listed
  have stream := fresh.stream
  have stays := fresh.stays
  rw [counted.positionsIn_eq listed] at stream stays
  have nonneg := indexes.nonneg
  have termFreq := standing.freq reading real
  rw [indexes.freq] at termFreq
  have stopped : ∀ failure, PostingSource.freq term.postings = .error failure → term.begin = (.error failure, term) :=
    fun failure failed => by simp only [begin, failed]
  cases positions : posting.positions with
  | nil =>
    rw [positions] at stream reading termFreq
    have mirrorFreq : PostingSource.freq mirror.postings = .ok 0 := by
      change Except.ok (mirror.postings.unread.length : Int) = _
      rw [stream]
      rfl
    rw [begin_of_freq_eq_zero mirrorFreq]
    refine ⟨rfl, ?_⟩
    rcases termFreq with termFreq | ⟨may, failure, failed⟩
    · rw [begin_of_freq_eq_zero termFreq]
      refine .same ⟨fresh.offset, rfl, stays positions, ?_, ⟨posting, listed, rfl, ?_⟩, fun position member => ?_⟩
      · exact (congrArg List.length stream).symm
      · change stands postings term.postings (.reading posting mirror.postings.unread)
        rw [stream]
        exact reading
      · change position ∈ mirror.postings.unread at member
        rw [stream] at member
        cases member
    · rw [stopped failure failed]
      exact .stops ⟨may, visits⟩
  | cons position unread =>
    rw [positions] at stream reading termFreq nonneg
    have first := nonneg position List.mem_cons_self
    rw [begin_stream stream first]
    refine ⟨rfl, ?_⟩
    rcases termFreq with termFreq | ⟨may, failure, failed⟩
    · have number : ((position :: unread).length : Int).toNat = unread.length + 1 := by simp
      let begun : SloppyTerm P := { term with unread := ((position :: unread).length : Int).toNat }
      have began : term.begin = begun.read.map fun _ => () := by
        simp only [begin, termFreq]
        rfl
      have begunReading : stands postings begun.postings (.reading posting (position :: unread)) := reading
      rw [began]
      rcases read_tries standing begunReading first number with
        ⟨source, same, after⟩ | ⟨failure, source, same, may, rest, after⟩
      · rw [same]
        refine .same ⟨fresh.offset, rfl, ?_, rfl, ⟨posting, listed, rfl, after⟩,
          fun other member => nonneg other (List.mem_cons_of_mem position member)⟩
        change position - term.offset = position - mirror.offset
        rw [fresh.offset.1, fresh.offset.2]
      · rw [same]
        exact .stops ⟨may, fresh.offset.1, _, after, rfl⟩
    · rw [stopped failure failed]
      exact .stops ⟨may, visits⟩

end SloppyTerm

end PostingQuery
