import Mathlib
import PostingQuery.Proofs.SloppyWalk

/-!
The moves of a sloppy phrase. The lead goes from document to document, the other terms are brought up to it, and
where all of them meet their positions are measured. The moves rely on nothing but that measuring succeeds and
leaves the terms on their document, so what it tells about a document is left open here.
-/

namespace PostingQuery

variable {P S : Type} [PostingSource P] [Score S]

namespace SloppyPhrase

open SloppyTerm SloppyWalk

variable {last : Nat} {alike : Fin (last + 1) → SloppyTerm P → SloppyTerm PositionStream → Prop}
  {held : Fin (last + 1) → SloppyTerm P → Prop} {failing : Prop} {terms : Vector (SloppyTerm P) (last + 1)}
  {streams : Vector (SloppyTerm PositionStream) (last + 1)}

def BeginAlike (alike : Fin (last + 1) → SloppyTerm P → SloppyTerm PositionStream → Prop)
    (held : Fin (last + 1) → SloppyTerm P → Prop) (failing : Prop) (terms : Vector (SloppyTerm P) (last + 1))
    (streams : Vector (SloppyTerm PositionStream) (last + 1)) : Prop :=
  ∀ i : Fin (last + 1), held i (terms.get i) ∧ (streams.get i).begin.1 = .ok () ∧
    (terms.get i).begin.Agrees (alike i) (fun after => failing ∧ held i after) (streams.get i).begin

theorem start_agrees (groups : List (List (Fin (last + 1)))) (mirroring : Mirroring alike held failing)
    (readable : ∀ i term mirror, alike i term mirror → SloppyTerm.Readable mirror)
    (begin : BeginAlike alike held failing terms streams) :
    (∃ after mirrors, start (S := S) groups terms = (.ok none, after) ∧
      start (S := S) groups streams = (.ok none, mirrors) ∧ AllAlike alike after mirrors) ∨
    (∃ walk mirror after mirrors, start (S := S) groups terms = (.ok (some walk), after) ∧
      start (S := S) groups streams = (.ok (some mirror), mirrors) ∧ Alike alike walk mirror) ∨
    ∃ failure after, start (S := S) groups terms = (.error failure, after) ∧ Stopped held failing after := by
  rcases beginTerms_agrees mirroring.holds (fun _ _ _ begins => begins) (List.finRange (last + 1))
      (List.nodup_finRange _) (fun i _ => begin i) (fun i unlisted => absurd (List.mem_finRange i) unlisted) with
    ⟨placed, placedMirrors, same, mirrorSame, all⟩ | ⟨failure, after, same, stopped⟩
  · rcases spread_agrees mirroring (groups.flatMap List.zipIdx) all with
      ⟨outcome, after, mirrors, spreadSame, spreadMirror, allAfter⟩ | ⟨failure, after, spreadSame, stopped⟩
    · obtain ⟨enough, state, succeeds, -⟩ :=
        spread_yields (groups.flatMap List.zipIdx) fun i => readable i _ _ (all i)
      rw [spreadMirror] at succeeds
      obtain ⟨rfl, rfl⟩ := Prod.mk.inj succeeds
      simp only [start, same, mirrorSame, spreadSame, spreadMirror]
      cases enough with
      | false => exact .inl ⟨after, mirrors, rfl, rfl, allAfter⟩
      | true =>
        refine .inr (.inl ⟨_, _, after, mirrors, rfl, rfl, allAfter, ?_, ?_, rfl, rfl⟩)
        · rw [map_shifted_eq mirroring allAfter]
        · have each : enqueue after = enqueue mirrors :=
            funext fun queue => funext fun i => enqueue_eq mirroring allAfter queue i
          rw [each]
    · refine .inr (.inr ⟨failure, after, ?_, stopped⟩)
      simp only [start, same, spreadSame]
  · refine .inr (.inr ⟨failure, after, ?_, stopped⟩)
    simp only [start, same]

theorem measure_agrees (groups : List (List (Fin (last + 1)))) (relevance : Relevance S) (slop : Int)
    (mirroring : Mirroring alike held failing)
    (readable : ∀ i term mirror, alike i term mirror → SloppyTerm.Readable mirror)
    (begin : BeginAlike alike held failing terms streams) (doc : DocId) (freq : S) (occurrences : Nat) :
    (measure ⟨last, terms, groups, relevance, slop, doc, freq, occurrences⟩).Tries
      (fun value after => ∃ terms mirror,
        measure ⟨last, streams, groups, relevance, slop, doc, (Score.zero : S), 0⟩ = (.ok value, mirror) ∧
        after = ⟨last, terms, groups, relevance, slop, doc, freq, mirror.occurrences⟩ ∧ ∀ i, held i (terms.get i))
      (fun after => failing ∧ ∃ terms occurrences,
        after = ⟨last, terms, groups, relevance, slop, doc, freq, occurrences⟩ ∧ ∀ i, held i (terms.get i)) := by
  rcases start_agrees (S := S) groups mirroring readable begin with ⟨after, mirrors, same, mirrorSame, all⟩ |
    ⟨walk, mirror, after, mirrors, same, mirrorSame, alike⟩ | ⟨failure, after, same, may, all⟩
  · refine .inl ⟨Score.zero, _, ?_, after, ⟨last, mirrors, groups, relevance, slop, doc, Score.zero, 0⟩, ?_, rfl,
      all_held mirroring all⟩
    · simp only [measure, same]
    · simp only [measure, mirrorSame]
  · rcases alike.complete_agrees mirroring groups relevance slop with
      ⟨outcome, final, mirrorFinal, completed, mirrorCompleted, alikeFinal⟩ | ⟨failure, final, completed, may, all⟩
    · obtain ⟨done, state, succeeds, -⟩ :=
        complete_yields groups relevance slop fun i => readable i _ _ (alike.terms i)
      rw [mirrorCompleted] at succeeds
      obtain ⟨rfl, rfl⟩ := Prod.mk.inj succeeds
      refine .inl ⟨final.freq, ⟨last, final.terms, groups, relevance, slop, doc, freq, final.occurrences⟩, ?_,
        final.terms, ⟨last, mirrorFinal.terms, groups, relevance, slop, doc, Score.zero, final.occurrences⟩, ?_, rfl,
        all_held mirroring alikeFinal.terms⟩
      · simp only [measure, same, completed]
        rfl
      · simp only [measure, mirrorSame, mirrorCompleted, alikeFinal.freq, alikeFinal.occurrences]
        rfl
    · refine .inr ⟨failure, _, ?_, may, final.terms, final.occurrences, rfl, all⟩
      simp only [measure, same, completed]
      rfl
  · refine .inr ⟨failure, _, ?_, may, after, 0, rfl, all⟩
    simp only [measure, same]

end SloppyPhrase

/-- What a sloppy phrase is made of, apart from where it stands: the postings and the places of its terms, some of
which may have no positions in some of their documents. -/
structure SloppyCast (S : Type) (last : Nat) where
  postings : Fin (last + 1) → List Posting
  counted : ∀ i, Posting.Counted (postings i)
  position : Fin (last + 1) → Int
  groups : List (List (Fin (last + 1)))
  relevance : Relevance S
  slop : Int

namespace SloppyCast

open SloppyTerm SloppyWalk

variable {last : Nat} (cast : SloppyCast S last)

def phrase (terms : Vector (SloppyTerm P) (last + 1)) (doc : DocId) (freq : S) (occurrences : Nat) :
    SloppyPhrase P S :=
  ⟨last, terms, cast.groups, cast.relevance, cast.slop, doc, freq, occurrences⟩

omit [Score S] in
theorem accepted (i : Fin (last + 1)) : Posting.Accepted (cast.postings i) := (cast.counted i).toAccepted

def Common (doc : DocId) : Prop := IsReal doc ∧ ∀ i, doc ∈ Posting.docs (cast.postings i)

section Terms

def Begins (i : Fin (last + 1)) (doc : DocId) (term : SloppyTerm P) : Prop :=
  Opened (cast.postings i) doc term.postings ∧ term.offset = cast.position i

def OnDoc (i : Fin (last + 1)) (doc : DocId) (term : SloppyTerm P) : Prop :=
  Visits StandsAt (cast.postings i) (cast.position i) doc term

def Follows (i : Fin (last + 1)) (low : DocId) (term : SloppyTerm P) : Prop :=
  term.offset = cast.position i ∧ Lags (cast.postings i) low term.postings

variable {cast} {i : Fin (last + 1)} {doc low : DocId} {term : SloppyTerm P}

omit [Score S] in
theorem Follows.mono {higher : DocId} (follows : cast.Follows i low term) (le : low ≤ higher) :
    cast.Follows i higher term :=
  ⟨follows.1, follows.2.mono le⟩

omit [Score S] in
theorem OnDoc.follows (onDoc : cast.OnDoc i doc term) (behind : doc < low) : cast.Follows i low term := by
  obtain ⟨offset, place, stands, rfl⟩ := onDoc
  exact ⟨offset, stands.lags behind⟩

omit [Score S] in
theorem Begins.follows (begins : cast.Begins i doc term) (covers : Covers (Posting.docs (cast.postings i)) low doc) :
    cast.Follows i low term :=
  ⟨begins.2, begins.1.lags covers⟩

end Terms

variable {cast} {terms : Vector (SloppyTerm P) (last + 1)} {candidate low : DocId}

def Aligned (cast : SloppyCast S last) (candidate : DocId) (places : List (Fin (last + 1)))
    (terms : Vector (SloppyTerm P) (last + 1)) : Option DocId → Prop
  | none => ∀ i ∈ places, cast.Begins i candidate (terms.get i)
  | some beyond => candidate < beyond ∧ beyond ≤ noMoreDocs ∧
      (∃ i ∈ places, Covers (Posting.docs (cast.postings i)) candidate beyond) ∧
      ∀ i ∈ places, cast.Follows i candidate (terms.get i)

omit [Score S] in
theorem align_yields (places : List (Fin (last + 1))) (distinct : places.Nodup)
    (follow : ∀ i ∈ places, cast.Follows i low (terms.get i)) (le : low ≤ candidate) (real : IsReal candidate) :
    (SloppyPhrase.align candidate places terms).Yields fun answer after =>
      (∀ i, i ∉ places → after.get i = terms.get i) ∧ cast.Aligned candidate places after answer := by
  induction places generalizing terms with
  | nil => exact ⟨none, terms, rfl, fun _ _ => rfl, fun i member => absurd member List.not_mem_nil⟩
  | cons i rest ih =>
    rw [List.nodup_cons] at distinct
    have head := follow i List.mem_cons_self
    obtain ⟨landing, postings, same, lands, opened⟩ := head.2.reach (cast.accepted i) le real
    have begins : cast.Begins i landing { terms.get i with postings } := ⟨opened, head.1⟩
    have here : (terms.set i { terms.get i with postings }).get i = { terms.get i with postings } := by
      rw [get_set, if_pos rfl]
    have elsewhere : ∀ j, i ≠ j → (terms.set i { terms.get i with postings }).get j = terms.get j :=
      fun j other => by rw [get_set, if_neg other]
    have others : ∀ j ∈ rest, i ≠ j := fun j member same => distinct.1 (same ▸ member)
    rw [SloppyPhrase.align]
    simp only [getElem_eq_get, same, Step.within]
    split
    next overshot =>
      refine ⟨some landing, _, rfl, fun j unlisted => elsewhere j fun same => unlisted (same ▸ List.mem_cons_self),
        overshot, (cast.accepted i).landing_le lands, ⟨i, List.mem_cons_self, lands.covers⟩,
        List.forall_mem_cons.mpr ⟨?_, fun j member => ?_⟩⟩
      · rw [here]
        exact begins.follows lands.covers
      · rw [elsewhere j (others j member)]
        exact (follow j (List.mem_cons_of_mem i member)).mono le
    next level =>
      have there : landing = candidate := le_antisymm (not_lt.mp level) lands.reached
      subst there
      obtain ⟨answer, after, aligned, kept, result⟩ := ih distinct.2 fun j member => by
        rw [elsewhere j (others j member)]
        exact follow j (List.mem_cons_of_mem i member)
      have stays : after.get i = { terms.get i with postings } := (kept i distinct.1).trans here
      refine ⟨answer, after, aligned, fun j unlisted => ?_, ?_⟩
      · rw [List.mem_cons, not_or] at unlisted
        rw [kept j unlisted.2, elsewhere j (Ne.symm unlisted.1)]
      · cases answer with
        | none =>
          refine List.forall_mem_cons.mpr ⟨?_, result⟩
          rw [stays]
          exact begins
        | some beyond =>
          obtain ⟨further, inside, ⟨j, member, covers⟩, behind⟩ := result
          refine ⟨further, inside, ⟨j, List.mem_cons_of_mem i member, covers⟩,
            List.forall_mem_cons.mpr ⟨?_, behind⟩⟩
          rw [stays]
          exact begins.follows lands.covers

structure Proposes (cast : SloppyCast S last) (candidate : DocId) (terms : Vector (SloppyTerm P) (last + 1)) :
    Prop where
  lead : cast.Begins 0 candidate (terms.get 0)
  followers : ∀ i : Fin last, cast.Follows i.succ candidate (terms.get i.succ)

omit [PostingSource P] [Score S] in
theorem moveLead_eq (terms : Vector (SloppyTerm P) (last + 1)) (doc : DocId) (freq : S) (occurrences : Nat)
    (move : P → Step P DocId) {answer : DocId} {postings : P}
    (same : move (terms.get 0).postings = (.ok answer, postings)) :
    (cast.phrase terms doc freq occurrences).moveLead move =
      (.ok answer, cast.phrase (terms.set 0 { terms.get 0 with postings }) doc freq occurrences) := by
  have lead : getElem terms 0 last.succ_pos = terms.get 0 := rfl
  simp only [SloppyPhrase.moveLead, phrase, lead, same]
  rfl

omit [Score S] in
theorem proposes_of_lead {postings : P} (lead : (terms.get 0).offset = cast.position 0)
    (opened : Opened (cast.postings 0) candidate postings)
    (follow : ∀ i : Fin last, cast.Follows i.succ candidate (terms.get i.succ)) :
    cast.Proposes candidate (terms.set 0 { terms.get 0 with postings }) where
  lead := by
    have here : (terms.set 0 { terms.get 0 with postings }).get 0 = { terms.get 0 with postings } := by
      simp [Vector.get_eq_getElem]
    rw [here]
    exact ⟨opened, lead⟩
  followers i := by
    have other : (0 : Fin (last + 1)) ≠ i.succ := (Fin.succ_ne_zero i).symm
    have kept := get_set terms 0 i.succ { terms.get 0 with postings }
    rw [if_neg other] at kept
    have same : (terms.set 0 { terms.get 0 with postings }).get i.succ = terms.get i.succ := kept
    rw [same]
    exact follow i

omit [Score S] in
theorem lead_proposes (move : P → Step P DocId) (offset : (terms.get 0).offset = cast.position 0)
    (moves : (move (terms.get 0).postings).Yields fun landing after =>
      Lands (Posting.docs (cast.postings 0)) low landing ∧ Opened (cast.postings 0) landing after)
    (follow : ∀ i : Fin last, cast.Follows i.succ low (terms.get i.succ)) (doc : DocId) (freq : S)
    (occurrences : Nat) :
    ∃ landing after, (cast.phrase terms doc freq occurrences).moveLead move =
        (.ok landing, cast.phrase after doc freq occurrences) ∧
      Lands (Posting.docs (cast.postings 0)) low landing ∧ landing ≤ noMoreDocs ∧ cast.Proposes landing after := by
  obtain ⟨landing, postings, same, lands, opened⟩ := moves
  exact ⟨landing, _, moveLead_eq terms doc freq occurrences move same, lands, (cast.accepted 0).landing_le lands,
    proposes_of_lead offset opened fun i => (follow i).mono lands.reached⟩

omit [Score S] in
theorem followers_yield (proposes : cast.Proposes candidate terms) (real : IsReal candidate) :
    (SloppyPhrase.align candidate ((List.finRange last).map Fin.succ) terms).Yields fun answer swept =>
      cast.Begins 0 candidate (swept.get 0) ∧
        match answer with
        | none => ∀ i, cast.Begins i candidate (swept.get i)
        | some beyond => candidate < beyond ∧ beyond ≤ noMoreDocs ∧
            (∃ i, Covers (Posting.docs (cast.postings i)) candidate beyond) ∧
            ∀ i : Fin last, cast.Follows i.succ candidate (swept.get i.succ) := by
  have distinct : ((List.finRange last).map Fin.succ).Nodup :=
    (List.nodup_finRange last).map (Fin.succ_injective last)
  have listed : ∀ i : Fin last, i.succ ∈ (List.finRange last).map Fin.succ := fun i =>
    List.mem_map_of_mem (List.mem_finRange i)
  have follow : ∀ i ∈ (List.finRange last).map Fin.succ, cast.Follows i candidate (terms.get i) := by
    intro i member
    obtain ⟨j, -, rfl⟩ := List.mem_map.mp member
    exact proposes.followers j
  obtain ⟨answer, swept, same, kept, aligned⟩ := align_yields _ distinct follow le_rfl real
  have leadKept : swept.get 0 = terms.get 0 := kept 0 fun member => by
    obtain ⟨j, -, zero⟩ := List.mem_map.mp member
    exact Fin.succ_ne_zero j zero
  have lead := proposes.lead
  rw [← leadKept] at lead
  refine ⟨answer, swept, same, lead, ?_⟩
  cases answer with
  | none => exact Fin.cases lead fun i => aligned i.succ (listed i)
  | some beyond =>
    obtain ⟨further, inside, ⟨i, -, passed⟩, follow⟩ := aligned
    exact ⟨further, inside, ⟨i, passed⟩, fun i => follow i.succ (listed i)⟩

omit [Score S] in
theorem Proposes.meet_or_jump (proposes : cast.Proposes candidate terms) (real : IsReal candidate) (doc : DocId)
    (freq : S) (occurrences : Nat) :
    let phrase := cast.phrase terms doc freq occurrences
    (∃ swept, SloppyPhrase.align candidate ((List.finRange phrase.last).map Fin.succ) phrase.terms = (.ok none, swept) ∧
      ∀ i : Fin (last + 1), cast.Begins i candidate (swept.get i)) ∨
    ∃ beyond swept landing after,
      SloppyPhrase.align candidate ((List.finRange phrase.last).map Fin.succ) phrase.terms =
        (.ok (some beyond), swept) ∧
      { phrase with terms := swept }.moveLead (Cursor.advance · beyond) =
        (.ok landing, cast.phrase after doc freq occurrences) ∧
      candidate < beyond ∧ (∃ i, Covers (Posting.docs (cast.postings i)) candidate beyond) ∧
      Lands (Posting.docs (cast.postings 0)) beyond landing ∧ landing ≤ noMoreDocs ∧
      cast.Proposes landing after := by
  obtain ⟨answer, swept, same, lead, aligned⟩ := followers_yield proposes real
  cases answer with
  | none => exact .inl ⟨swept, same, aligned⟩
  | some beyond =>
    obtain ⟨further, inside, passed, follow⟩ := aligned
    obtain ⟨place, stands⟩ := lead.1.standsAt
    have here : place.doc = candidate := stands.doc.symm.trans lead.1.doc
    obtain ⟨landing, after, moved, lands, landingInside, proposesAfter⟩ :=
      lead_proposes (Cursor.advance · beyond) lead.2 (stands.advance (cast.accepted 0) (here ▸ further) inside)
        (fun i => (follow i).mono further.le) doc freq occurrences
    exact .inr ⟨beyond, swept, landing, after, same, moved, further, passed, lands, landingInside, proposesAfter⟩

omit [Score S] in
theorem lead_leaves (onDoc : ∀ i, cast.OnDoc i candidate (terms.get i)) (real : IsReal candidate) (doc : DocId)
    (freq : S) (occurrences : Nat) :
    ∃ landing after, (cast.phrase terms doc freq occurrences).moveLead Cursor.next =
        (.ok landing, cast.phrase after doc freq occurrences) ∧
      Lands (Posting.docs (cast.postings 0)) (candidate + 1) landing ∧ landing ≤ noMoreDocs ∧
      cast.Proposes landing after := by
  obtain ⟨offset, place, stands, here⟩ := onDoc 0
  have moves := stands.next (cast.accepted 0) (here ▸ real.2)
  rw [here] at moves
  exact lead_proposes Cursor.next offset moves (fun i => (onDoc i.succ).follows (lt_add_one candidate)) doc freq
    occurrences

theorem measure_tries (cast : SloppyCast S last) {stands : List Posting → P → PostingPlace → Prop} {failing : Prop}
    {doc : DocId} {streams : Vector (SloppyTerm PositionStream) (last + 1)} (standing : Standing stands failing)
    (fresh : ∀ i : Fin (last + 1),
      Fresh stands (cast.postings i) (cast.position i) doc (terms.get i) (streams.get i))
    (real : IsReal doc) (freq : S) (occurrences : Nat) :
    (cast.phrase terms doc freq occurrences).measure.Tries
      (fun value after => ∃ terms mirror, (cast.phrase streams doc Score.zero 0).measure = (.ok value, mirror) ∧
        after = cast.phrase terms doc freq mirror.occurrences ∧
        ∀ i : Fin (last + 1), Visits stands (cast.postings i) (cast.position i) doc (terms.get i))
      (fun after => failing ∧ ∃ terms occurrences, after = cast.phrase terms doc freq occurrences ∧
        ∀ i : Fin (last + 1), Visits stands (cast.postings i) (cast.position i) doc (terms.get i)) :=
  SloppyPhrase.measure_agrees cast.groups cast.relevance cast.slop (mirroring standing cast.postings cast.position doc)
    (fun _ _ _ mirrors => ⟨mirrors.counted, mirrors.nonneg⟩)
    (fun i => ⟨(fresh i).visits, (fresh i).begin_agrees standing (cast.counted i) real⟩) doc freq occurrences

section Verdicts

variable {verdict : DocId → S → Nat → Prop} {docs : Finset DocId}

def Measures (cast : SloppyCast S last) (P : Type) [PostingSource P] (verdict : DocId → S → Nat → Prop) : Prop :=
  ∀ (terms : Vector (SloppyTerm P) (last + 1)) (doc : DocId) (freq : S) (occurrences : Nat), IsReal doc →
    (∀ i : Fin (last + 1), cast.Begins i doc (terms.get i)) →
    (cast.phrase terms doc freq occurrences).measure.Yields fun value after => ∃ terms occurrences,
      after = cast.phrase terms doc freq occurrences ∧ verdict doc value occurrences ∧
        ∀ i : Fin (last + 1), cast.OnDoc i doc (terms.get i)

/-- Documents that have all terms and are never judged to have no match. -/
structure Wanted (cast : SloppyCast S last) (verdict : DocId → S → Nat → Prop) (docs : Finset DocId) : Prop where
  common : ∀ doc ∈ docs, cast.Common doc
  positive : ∀ doc ∈ docs, ∀ freq occurrences, verdict doc freq occurrences → Score.isPositive freq = true

structure Rests (cast : SloppyCast S last) (verdict : DocId → S → Nat → Prop) (terms : Vector (SloppyTerm P) (last + 1))
    (doc : DocId) (freq : S) (occurrences : Nat) : Prop where
  place : doc = unpositioned ∨
    (cast.Common doc ∧ verdict doc freq occurrences ∧ Score.isPositive freq = true) ∨ doc = noMoreDocs
  ready : doc ≠ noMoreDocs → cast.OnDoc 0 doc (terms.get 0) ∧
    ∀ i : Fin last, cast.Follows i.succ (doc + 1) (terms.get i.succ)

def Sound (cast : SloppyCast S last) (verdict : DocId → S → Nat → Prop) (state : SloppyPhrase P S) : Prop :=
  ∃ terms doc freq occurrences, state = cast.phrase terms doc freq occurrences ∧
    cast.Rests verdict terms doc freq occurrences

structure Finds (cast : SloppyCast S last) (verdict : DocId → S → Nat → Prop) (docs : Finset DocId)
    (low landing : DocId) (after : SloppyPhrase P S) : Prop where
  doc : after.doc = landing
  reached : low ≤ landing
  covers : Covers docs low landing
  sound : cast.Sound verdict after

omit [PostingSource P] in
theorem Wanted.covers_landing (wanted : cast.Wanted verdict docs) {landing : DocId} (i : Fin (last + 1))
    (covers : Covers docs low candidate) (passed : Covers (Posting.docs (cast.postings i)) candidate landing) :
    Covers docs low landing :=
  fun doc member from_low => passed doc ((wanted.common doc member).2 i) (covers doc member from_low)

theorem settle_yields (measures : cast.Measures P verdict) (wanted : cast.Wanted verdict docs) (moves : Nat)
    (terms : Vector (SloppyTerm P) (last + 1)) (doc : DocId) (freq : S) (occurrences : Nat)
    (proposes : cast.Proposes candidate terms) (covers : Covers docs low candidate) (reached : low ≤ candidate)
    (nonneg : 0 ≤ candidate) (inside : candidate ≤ noMoreDocs) (enough : noMoreDocs < candidate + moves) :
    (SloppyPhrase.settle moves (cast.phrase terms doc freq occurrences) candidate).Yields
      (cast.Finds verdict docs low) := by
  induction moves generalizing terms doc freq occurrences candidate with
  | zero => lia
  | succ moves ih =>
    rw [SloppyPhrase.settle]
    split
    next ended =>
      subst ended
      exact ⟨noMoreDocs, cast.phrase terms noMoreDocs Score.zero 0, rfl, rfl, reached, covers, terms, noMoreDocs,
        Score.zero, 0, rfl, .inr (.inr rfl), fun live => absurd rfl live⟩
    next live =>
      have real : IsReal candidate := ⟨nonneg, lt_of_le_of_ne inside live⟩
      rcases proposes.meet_or_jump real doc freq occurrences with ⟨swept, same, begins⟩ |
        ⟨beyond, swept, landing, after, same, moved, further, ⟨i, passed⟩, lands, landingInside, proposesAfter⟩
      · obtain ⟨value, after, measured, measuredTerms, counted, rfl, judged, onDoc⟩ :=
          measures swept candidate freq occurrences real begins
        have measureSame : SloppyPhrase.measure
            { cast.phrase terms doc freq occurrences with terms := swept, doc := candidate } = _ := measured
        rw [same]
        simp only [measureSame]
        have follow : ∀ i : Fin last, cast.Follows i.succ (candidate + 1) (measuredTerms.get i.succ) :=
          fun i => (onDoc i.succ).follows (lt_add_one candidate)
        have common : cast.Common candidate := ⟨real, fun i => (begins i).1.mem_docs real.ne_noMoreDocs⟩
        split
        next found =>
          exact ⟨candidate, cast.phrase measuredTerms candidate value counted, rfl, rfl, reached, covers,
            measuredTerms, candidate, value, counted, rfl, .inr (.inl ⟨common, judged, found⟩),
            fun _ => ⟨onDoc 0, follow⟩⟩
        next none =>
          obtain ⟨landing, after, moved, lands, landingInside, proposesAfter⟩ :=
            lead_leaves onDoc real candidate value counted
          have moveSame : SloppyPhrase.moveLead
              { cast.phrase measuredTerms candidate freq counted with freq := value } Cursor.next = _ := moved
          simp only [moveSame]
          have jumped := lands.reached
          refine ih _ candidate value counted proposesAfter ?_ (by lia) (by lia) landingInside (by lia)
          -- The candidate is not wanted, so the search goes on behind it.
          refine wanted.covers_landing 0 (covers.succ fun member => none ?_) lands.covers
          exact wanted.positive candidate member value counted judged
      · rw [same]
        simp only [moved]
        have jumped := lands.reached
        refine ih _ doc freq occurrences proposesAfter ?_ (by lia) (by lia) landingInside (by lia)
        exact wanted.covers_landing 0 (wanted.covers_landing i covers passed) lands.covers

theorem moveAndSettle_yields (measures : cast.Measures P verdict) (wanted : cast.Wanted verdict docs) {doc : DocId}
    {freq : S} {occurrences : Nat} (move : P → Step P DocId) (rests : cast.Rests verdict terms doc freq occurrences)
    (live : doc ≠ noMoreDocs) (beyond : doc < low) (nonneg : 0 ≤ low)
    (moves : ∀ place, StandsAt (cast.postings 0) (terms.get 0).postings place → place.doc = doc →
      (move (terms.get 0).postings).Yields fun landing after =>
        Lands (Posting.docs (cast.postings 0)) low landing ∧ Opened (cast.postings 0) landing after) :
    ((cast.phrase terms doc freq occurrences).moveAndSettle move).Yields (cast.Finds verdict docs low) := by
  obtain ⟨⟨offset, place, stands, here⟩, follow⟩ := rests.ready live
  obtain ⟨landing, after, moved, lands, landingInside, proposes⟩ := lead_proposes move offset
    (moves place stands here) (fun i => (follow i).mono (Int.add_one_le_of_lt beyond)) doc freq occurrences
  have jumped := lands.reached
  unfold SloppyPhrase.moveAndSettle
  simp only [moved]
  refine settle_yields measures wanted moveLimit _ doc freq occurrences proposes ?_ jumped (nonneg.trans jumped)
    landingInside ?_
  · exact fun other member from_low => lands.first other ((wanted.common other member).2 0) from_low
  · unfold noMoreDocs moveLimit
    lia

theorem Rests.le_doc {doc : DocId} {freq : S} {occurrences : Nat}
    (rests : cast.Rests verdict terms doc freq occurrences) : unpositioned ≤ doc := by
  rcases rests.place with fresh | ⟨common, -⟩ | ended
  · exact fresh.ge
  · exact le_trans (by decide) common.1.1
  · rw [ended]
    decide

theorem Rests.lt_noMoreDocs {doc : DocId} {freq : S} {occurrences : Nat}
    (rests : cast.Rests verdict terms doc freq occurrences) (live : doc ≠ noMoreDocs) : doc < noMoreDocs := by
  rcases rests.place with fresh | ⟨common, -⟩ | ended
  · rw [fresh]
    decide
  · exact common.1.2
  · exact absurd ended live

theorem Sound.le_doc {state : SloppyPhrase P S} (sound : cast.Sound verdict state) : unpositioned ≤ state.doc := by
  obtain ⟨terms, doc, freq, occurrences, rfl, rests⟩ := sound
  exact rests.le_doc

theorem Sound.next (measures : cast.Measures P verdict) (wanted : cast.Wanted verdict docs)
    {state : SloppyPhrase P S} (sound : cast.Sound verdict state) (live : state.doc ≠ noMoreDocs) :
    (Cursor.next state).Yields (cast.Finds verdict docs (state.doc + 1)) := by
  obtain ⟨terms, doc, freq, occurrences, rfl, rests⟩ := sound
  change doc ≠ noMoreDocs at live
  refine moveAndSettle_yields measures wanted Cursor.next rests live (lt_add_one doc)
    (nonneg_of_unpositioned_lt (Int.lt_add_one_of_le rests.le_doc)) fun place stands here => ?_
  have yields := stands.next (cast.accepted 0) (here ▸ rests.lt_noMoreDocs live)
  rwa [here] at yields

theorem Sound.advance (measures : cast.Measures P verdict) (wanted : cast.Wanted verdict docs)
    {state : SloppyPhrase P S} (sound : cast.Sound verdict state) {target : DocId} (beyond : state.doc < target)
    (inside : target ≤ noMoreDocs) :
    (Cursor.advance state target).Yields (cast.Finds verdict docs target) := by
  obtain ⟨terms, doc, freq, occurrences, rfl, rests⟩ := sound
  change doc < target at beyond
  refine moveAndSettle_yields measures wanted (Cursor.advance · target) rests (by lia) beyond
    (nonneg_of_unpositioned_lt (rests.le_doc.trans_lt beyond)) fun place stands here => ?_
  exact stands.advance (cast.accepted 0) (here ▸ beyond) inside

theorem Sound.after_step (measures : cast.Measures P verdict) {state after : SloppyPhrase P S}
    (sound : cast.Sound verdict state) (step : LegalStep state after) : cast.Sound verdict after := by
  have wanted : cast.Wanted verdict ∅ := ⟨by simp, by simp⟩
  cases step with
  | next live =>
    obtain ⟨landing, moved, same, finds⟩ := sound.next measures wanted live
    rw [same]
    exact finds.sound
  | advance target beyond inside =>
    obtain ⟨landing, moved, same, finds⟩ := sound.advance measures wanted beyond inside
    rw [same]
    exact finds.sound
  | score placed => exact sound
  | tally placed => exact sound

theorem Sound.after_walk (measures : cast.Measures P verdict) {state after : SloppyPhrase P S}
    (sound : cast.Sound verdict state) (reached : Reaches state after) : cast.Sound verdict after := by
  induction reached with
  | refl => exact sound
  | tail _ step ih => exact ih.after_step measures step

theorem sound_of_fresh
    (fresh : ∀ i : Fin (last + 1), (terms.get i).offset = cast.position i ∧
      StandsAt (cast.postings i) (terms.get i).postings .unplaced) :
    cast.Sound verdict (cast.phrase terms unpositioned Score.zero 0) := by
  refine ⟨terms, unpositioned, Score.zero, 0, rfl, .inl rfl,
    fun _ => ⟨⟨(fresh 0).1, .unplaced, (fresh 0).2, rfl⟩, fun i => ?_⟩⟩
  exact ⟨(fresh i.succ).1, (fresh i.succ).2.lags (by decide)⟩

end Verdicts

end SloppyCast

end PostingQuery
