import Mathlib
import PostingQuery.Proofs.FaultyPostings
import PostingQuery.Proofs.SloppyPhrase

/-!
Sloppy phrases over postings that may fail. A call that fails may leave a phrase on a document that nothing has been
checked of. But it leaves no position read on any document beyond that of the lead, so the next call that succeeds
ends on a document of the phrase, with the frequency of that document.
-/

namespace PostingQuery

variable {P S : Type} [PostingSource P]

namespace SloppyShape

open SloppyTerm SloppyWalk PhrasePart

variable {last n : Nat} {shape : SloppyShape S last} {terms : Vector (SloppyTerm P) (last + 1)} {candidate : DocId}

def Behind (part : PhrasePart) (low : DocId) (term : SloppyTerm P) : Prop :=
  term.offset = part.position ∧ UnreadFrom part.postings low term.postings

def Aboard (part : PhrasePart) (doc : DocId) (term : SloppyTerm P) : Prop :=
  term.offset = part.position ∧ Arrived part.postings doc term.postings

theorem Behind.mono {part : PhrasePart} {low higher : DocId} {term : SloppyTerm P} (behind : Behind part low term)
    (le : low ≤ higher) : Behind part higher term :=
  ⟨behind.1, behind.2.mono le⟩

theorem Aboard.behind {part : PhrasePart} {doc low : DocId} {term : SloppyTerm P} (aboard : Aboard part doc term) :
    Behind part low term :=
  ⟨aboard.1, aboard.2.unreadFrom⟩

theorem behind_of_on {part : PhrasePart} {doc low : DocId} {term : SloppyTerm P} (on : On FaltersAt part doc term)
    (before : doc < low) : Behind part low term := by
  obtain ⟨offset, place, falters, rfl⟩ := on
  exact ⟨offset, falters.unreadFrom before⟩

theorem align_tries (parts : Fin n → PhrasePart) (places : List (Fin n)) (distinct : places.Nodup)
    {terms : Vector (SloppyTerm P) n} (behind : ∀ i ∈ places, Behind (parts i) candidate (terms.get i))
    (inside : candidate ≤ noMoreDocs) :
    (SloppyPhrase.align candidate places terms).Tries
      (fun answer after => (∀ i, i ∉ places → after.get i = terms.get i) ∧
        (∀ i ∈ places, Behind (parts i) candidate (after.get i)) ∧
        (answer = none → ∀ i ∈ places, Aboard (parts i) candidate (after.get i)))
      (fun after => (∀ i, i ∉ places → after.get i = terms.get i) ∧
        ∀ i ∈ places, Behind (parts i) candidate (after.get i)) := by
  induction places generalizing terms with
  | nil =>
    exact .inl ⟨none, terms, rfl, fun _ _ => rfl, fun i member => absurd member List.not_mem_nil,
      fun _ i member => absurd member List.not_mem_nil⟩
  | cons i rest ih =>
    rw [List.nodup_cons] at distinct
    have head := behind i List.mem_cons_self
    have here : ∀ postings, (terms.set i { terms.get i with postings }).get i = { terms.get i with postings } :=
      fun postings => by rw [get_set, if_pos rfl]
    have elsewhere : ∀ postings j, i ≠ j → (terms.set i { terms.get i with postings }).get j = terms.get j :=
      fun postings j other => by rw [get_set, if_neg other]
    have others : ∀ j ∈ rest, i ≠ j := fun j member same => distinct.1 (same ▸ member)
    have unlisted : ∀ postings j, j ∉ i :: rest →
        (terms.set i { terms.get i with postings }).get j = terms.get j := fun postings j absent =>
      elsewhere postings j fun same => absent (same ▸ List.mem_cons_self)
    -- However the term is left, those behind it have not been touched.
    have all : ∀ postings, UnreadFrom (parts i).postings candidate postings →
        ∀ j ∈ i :: rest, Behind (parts j) candidate ((terms.set i { terms.get i with postings }).get j) := by
      intro postings unread
      refine List.forall_mem_cons.mpr ⟨?_, fun j member => ?_⟩
      · rw [here]
        exact ⟨head.1, unread⟩
      · rw [elsewhere postings j (others j member)]
        exact behind j (List.mem_cons_of_mem i member)
    rw [SloppyPhrase.align]
    rcases head.2.reach (parts i).positioned.toAccepted inside with
      ⟨landing, postings, same, arrived, reached⟩ | ⟨failure, postings, same, unread⟩
    · simp only [getElem_eq_get, same, Step.within]
      split
      next overshot =>
        exact .inl ⟨some landing, _, rfl, unlisted postings, all postings arrived.unreadFrom, fun none => by cases none⟩
      next level =>
        have there : landing = candidate := le_antisymm (not_lt.mp level) reached
        subst there
        have rest_behind : ∀ j ∈ rest, Behind (parts j) landing
            ((terms.set i { terms.get i with postings }).get j) :=
          fun j member => all postings arrived.unreadFrom j (List.mem_cons_of_mem i member)
        have stays : ∀ after : Vector (SloppyTerm P) n,
            (∀ j, j ∉ rest → after.get j = (terms.set i { terms.get i with postings }).get j) →
            (∀ j, j ∉ i :: rest → after.get j = terms.get j) ∧ Aboard (parts i) landing (after.get i) := by
          refine fun after kept => ⟨fun j absent => ?_, ?_⟩
          · rw [kept j fun member => absent (List.mem_cons_of_mem i member), unlisted postings j absent]
          · rw [kept i distinct.1, here]
            exact ⟨head.1, arrived⟩
        refine (ih distinct.2 rest_behind).mono (fun answer after both => ?_) fun after both => ?_
        · obtain ⟨kept, behindAfter, aboard⟩ := both
          obtain ⟨frame, first⟩ := stays after kept
          exact ⟨frame, List.forall_mem_cons.mpr ⟨first.behind, behindAfter⟩,
            fun none => List.forall_mem_cons.mpr ⟨first, aboard none⟩⟩
        · obtain ⟨frame, first⟩ := stays after both.1
          exact ⟨frame, List.forall_mem_cons.mpr ⟨first.behind, both.2⟩⟩
    · simp only [getElem_eq_get, same, Step.within]
      exact .inr ⟨failure, _, rfl, unlisted postings, all postings unread⟩

structure IdleOn (shape : SloppyShape S last) (doc : DocId) (terms : Vector (SloppyTerm P) (last + 1)) : Prop where
  lead : On FaltersAt (shape.parts 0) doc (terms.get 0)
  behind : ∀ i : Fin last, Behind (shape.parts i.succ) (doc + 1) (terms.get i.succ)

def Idle (shape : SloppyShape S last) (terms : Vector (SloppyTerm P) (last + 1)) : Prop :=
  ∃ doc, shape.IdleOn doc terms

theorem Aboard.on {part : PhrasePart} {doc : DocId} {term : SloppyTerm P} (aboard : Aboard part doc term) :
    On FaltersAt part doc term :=
  ⟨aboard.1, aboard.2.faltersAt⟩

theorem idle_of_lead (lead : On FaltersAt (shape.parts 0) candidate (terms.get 0))
    (behind : ∀ i : Fin last, Behind (shape.parts i.succ) candidate (terms.get i.succ)) : shape.Idle terms :=
  ⟨candidate, lead, fun i => (behind i).mono (lt_add_one candidate).le⟩

theorem idle_of_on (on : ∀ i : Fin (last + 1), On FaltersAt (shape.parts i) candidate (terms.get i)) :
    shape.Idle terms :=
  ⟨candidate, on 0, fun i => behind_of_on (on i.succ) (lt_add_one candidate)⟩

variable [Score S]

def Verified (shape : SloppyShape S last) (landing : DocId) (after : SloppyPhrase P S) : Prop :=
  after.doc = landing ∧ (landing = noMoreDocs ∨ landing ∈ shape.docs ∧ after.freq = shape.freqOn landing)

def Rested (shape : SloppyShape S last) (after : SloppyPhrase P S) : Prop :=
  ∃ terms doc freq occurrences, after = shape.phrase terms doc freq occurrences ∧ shape.Idle terms

structure Heads (shape : SloppyShape S last) (candidate : DocId) (terms : Vector (SloppyTerm P) (last + 1)) : Prop where
  aboard : Aboard (shape.parts 0) candidate (terms.get 0)
  behind : candidate ≠ noMoreDocs → ∀ i : Fin last, Behind (shape.parts i.succ) candidate (terms.get i.succ)
  idle : shape.Idle terms

omit [Score S] in
theorem moveLead_tries (idle : shape.Idle terms) (doc : DocId) (freq : S) (occurrences : Nat)
    {move : P → Step P DocId} (travels : Travels (shape.parts 0).postings move) :
    ((shape.phrase terms doc freq occurrences).moveLead move).Tries
      (fun landing after => ∃ moved, after = shape.phrase moved doc freq occurrences ∧ shape.Heads landing moved)
      shape.Rested := by
  obtain ⟨before, ⟨offset, place, falters, rfl⟩, behind⟩ := idle
  have here : ∀ postings, (terms.set 0 { terms.get 0 with postings }).get 0 = { terms.get 0 with postings } :=
    fun postings => by simp [Vector.get_eq_getElem]
  have elsewhere : ∀ postings, ∀ i : Fin last,
      (terms.set 0 { terms.get 0 with postings }).get i.succ = terms.get i.succ := by
    intro postings i
    have other : (0 : Fin (last + 1)) ≠ i.succ := (Fin.succ_ne_zero i).symm
    have kept := get_set terms 0 i.succ { terms.get 0 with postings }
    rwa [if_neg other] at kept
  have idleAt : ∀ postings doc, (∃ place, FaltersAt (shape.parts 0).postings postings place ∧ place.doc = doc) →
      place.doc ≤ doc → shape.Idle (terms.set 0 { terms.get 0 with postings }) := by
    rintro postings doc stands le
    refine ⟨doc, ?_, fun i => ?_⟩
    · rw [here]
      exact ⟨offset, stands⟩
    · rw [elsewhere]
      exact (behind i).mono (by lia)
  have idleBeyond : ∀ landing postings, Beyond (shape.parts 0).postings place.doc landing postings →
      shape.Idle (terms.set 0 { terms.get 0 with postings }) := fun landing postings beyond =>
    idleAt postings landing beyond.1.faltersAt
      (beyond.le (falters.doc_le (shape.parts 0).positioned.toAccepted))
  have moved : (shape.phrase terms doc freq occurrences).moveLead move =
      (move (terms.get 0).postings).within fun postings =>
        shape.phrase (terms.set 0 { terms.get 0 with postings }) doc freq occurrences := rfl
  rw [moved]
  refine Step.Tries.within ((travels _ place falters).mono (fun landing postings beyond => ?_) fun postings left => ?_)
  · refine ⟨_, rfl, ?_, fun live i => ?_, idleBeyond landing postings beyond⟩
    · rw [here]
      exact ⟨offset, beyond.1⟩
    · have further := beyond.2.resolve_left live
      rw [elsewhere]
      exact (behind i).mono (by lia)
  · refine ⟨_, doc, freq, occurrences, rfl, ?_⟩
    rcases left with stays | ⟨landing, beyond⟩
    · exact idleAt postings place.doc ⟨place, stays, rfl⟩ le_rfl
    · exact idleBeyond landing postings beyond

omit [Score S] in
theorem followers_try (heads : shape.Heads candidate terms) (live : candidate ≠ noMoreDocs) (real : IsReal candidate) :
    (SloppyPhrase.align candidate ((List.finRange last).map Fin.succ) terms).Tries
      (fun answer swept => shape.Idle swept ∧
        (answer = none → ∀ i : Fin (last + 1), Aboard (shape.parts i) candidate (swept.get i)))
      shape.Idle := by
  have distinct : ((List.finRange last).map Fin.succ).Nodup := (List.nodup_finRange last).map (Fin.succ_injective last)
  have listed : ∀ i : Fin last, i.succ ∈ (List.finRange last).map Fin.succ := fun i =>
    List.mem_map_of_mem (List.mem_finRange i)
  have unlisted : (0 : Fin (last + 1)) ∉ (List.finRange last).map Fin.succ := fun member => by
    obtain ⟨j, -, zero⟩ := List.mem_map.mp member
    exact Fin.succ_ne_zero j zero
  have aligns := align_tries shape.parts ((List.finRange last).map Fin.succ) distinct (fun i member => by
    obtain ⟨j, -, rfl⟩ := List.mem_map.mp member
    exact heads.behind live j) real.2.le
  refine aligns.mono (fun answer swept aligned => ?_) fun swept stopped => ?_
  · obtain ⟨kept, behind, aboard⟩ := aligned
    have lead : Aboard (shape.parts 0) candidate (swept.get 0) := kept 0 unlisted ▸ heads.aboard
    exact ⟨idle_of_lead lead.on fun i => behind i.succ (listed i), fun none =>
      Fin.cases lead fun i => aboard none i.succ (listed i)⟩
  · obtain ⟨kept, behind⟩ := stopped
    have lead : Aboard (shape.parts 0) candidate (swept.get 0) := kept 0 unlisted ▸ heads.aboard
    exact idle_of_lead lead.on fun i => behind i.succ (listed i)

omit [Score S] in
theorem Heads.real (heads : shape.Heads candidate terms) (live : candidate ≠ noMoreDocs) : IsReal candidate := by
  obtain ⟨posting, listed, here⟩ := Posting.mem_docs.mp (heads.aboard.2.mem_docs live)
  exact here ▸ (shape.parts 0).positioned.real listed

theorem Heads.measures {swept : Vector (SloppyTerm P) (last + 1)} (heads : shape.Heads candidate terms)
    (live : candidate ≠ noMoreDocs) (aboard : ∀ i : Fin (last + 1), Aboard (shape.parts i) candidate (swept.get i))
    (freq : S) (occurrences : Nat) :
    (shape.phrase swept candidate freq occurrences).measure.Tries
      (fun value after => value = shape.freqOn candidate ∧ ∃ measured,
        after = shape.phrase measured candidate freq (shape.occurrencesOn candidate) ∧ shape.Idle measured)
      shape.Rested := by
  have measures := measure_tries standing_faltersAt
    (fun i => fresh_of_untouched (aboard i).1 ((aboard i).2.untouched live)) (heads.real live) freq occurrences
  refine measures.mono (fun value after judged => ?_) fun after stopped => ?_
  · obtain ⟨same, measured, left, on⟩ := judged
    exact ⟨same, measured, left, idle_of_on on⟩
  · obtain ⟨-, measured, counted, left, on⟩ := stopped
    exact ⟨measured, candidate, freq, counted, left, idle_of_on on⟩

theorem settle_tries (moves : Nat) (terms : Vector (SloppyTerm P) (last + 1)) (doc : DocId) (freq : S)
    (occurrences : Nat) (heads : shape.Heads candidate terms) :
    (SloppyPhrase.settle moves (shape.phrase terms doc freq occurrences) candidate).Tries
      (fun landing after => shape.Verified landing after ∧ shape.Rested after) shape.Rested := by
  induction moves generalizing terms doc freq occurrences candidate with
  | zero => exact .inr ⟨_, _, rfl, terms, doc, freq, occurrences, rfl, heads.idle⟩
  | succ moves ih =>
    rw [SloppyPhrase.settle]
    split
    next ended => exact .inl ⟨noMoreDocs, _, rfl, ⟨rfl, .inl rfl⟩, terms, noMoreDocs, Score.zero, 0, rfl, heads.idle⟩
    next live =>
      have aligns : (SloppyPhrase.align candidate
          ((List.finRange (shape.phrase terms doc freq occurrences).last).map Fin.succ)
          (shape.phrase terms doc freq occurrences).terms).Tries _ _ := followers_try heads live (heads.real live)
      rcases aligns with ⟨answer, swept, same, idle, aboard⟩ | ⟨failure, swept, same, idle⟩
      · rw [same]
        cases answer with
        | some beyond =>
          have moved : (SloppyPhrase.moveLead { shape.phrase terms doc freq occurrences with terms := swept }
              (Cursor.advance · beyond)).Tries _ _ :=
            moveLead_tries idle doc freq occurrences (travels_advance (shape.parts 0).positioned.toAccepted beyond)
          rcases moved with ⟨landing, _, movedSame, movedTerms, rfl, movedHeads⟩ | ⟨failure, after, movedSame, rested⟩
          · simp only [movedSame]
            exact ih movedTerms doc freq occurrences movedHeads
          · simp only [movedSame]
            exact .inr ⟨failure, after, rfl, rested⟩
        | none =>
          have measures : (SloppyPhrase.measure
              { shape.phrase terms doc freq occurrences with terms := swept, doc := candidate }).Tries _ _ :=
            heads.measures live (aboard rfl) freq occurrences
          rcases measures with ⟨_, _, measuredSame, rfl, measured, rfl, measuredIdle⟩ |
            ⟨failure, after, measuredSame, rested⟩
          · simp only [measuredSame]
            split
            next found =>
              have member : candidate ∈ shape.docs :=
                mem_docs.mpr ⟨⟨heads.real live, fun i => (aboard rfl i).2.mem_docs live⟩, found⟩
              exact .inl ⟨candidate, _, rfl, ⟨rfl, .inr ⟨member, rfl⟩⟩, measured, candidate,
                shape.freqOn candidate, shape.occurrencesOn candidate, rfl, measuredIdle⟩
            next none =>
              have moved : (SloppyPhrase.moveLead
                  { shape.phrase measured candidate freq (shape.occurrencesOn candidate) with
                    freq := shape.freqOn candidate } Cursor.next).Tries _ _ :=
                moveLead_tries measuredIdle candidate (shape.freqOn candidate) (shape.occurrencesOn candidate)
                  (travels_next (shape.parts 0).positioned.toAccepted)
              rcases moved with
                ⟨landing, _, movedSame, movedTerms, rfl, movedHeads⟩ | ⟨failure, after, movedSame, rested⟩
              · simp only [movedSame]
                exact ih movedTerms _ _ _ movedHeads
              · simp only [movedSame]
                exact .inr ⟨failure, after, rfl, rested⟩
          · simp only [measuredSame]
            exact .inr ⟨failure, after, rfl, rested⟩
      · rw [same]
        exact .inr ⟨failure, _, rfl, swept, doc, freq, occurrences, rfl, idle⟩

theorem moveAndSettle_tries {state : SloppyPhrase P S} (rested : shape.Rested state) {move : P → Step P DocId}
    (travels : Travels (shape.parts 0).postings move) :
    (state.moveAndSettle move).Tries (fun landing after => shape.Verified landing after ∧ shape.Rested after)
      shape.Rested := by
  obtain ⟨terms, doc, freq, occurrences, rfl, idle⟩ := rested
  unfold SloppyPhrase.moveAndSettle
  rcases moveLead_tries idle doc freq occurrences travels with
    ⟨landing, _, moved, movedTerms, rfl, heads⟩ | ⟨failure, after, moved, rested⟩
  · rw [moved]
    exact settle_tries moveLimit movedTerms doc freq occurrences heads
  · rw [moved]
    exact .inr ⟨failure, after, rfl, rested⟩

theorem withstands (shape : SloppyShape S last) : Withstands (shape.Rested (P := P)) shape.Verified where
  next _ rested := moveAndSettle_tries rested (travels_next (shape.parts 0).positioned.toAccepted)
  advance _ target rested :=
    moveAndSettle_tries rested (travels_advance (shape.parts 0).positioned.toAccepted target)

end SloppyShape

namespace SloppyPhrase

open PhrasePart SloppyShape

variable [Score S]

/-- Whatever has failed before, a move of a sloppy phrase that succeeds ends on a document of the phrase with the
frequency of that document, or behind all documents. -/
theorem moves_verify_matches {count : Nat} {parts : Fin count → PhrasePart} {terms : Fin count → PhraseTerm P}
    (promises : ∀ i, (parts i).Promises (terms i)) {slop : Int} {relevance : Relevance S} {phrase : SloppyPhrase P S}
    (made : (ofTerms (List.ofFn terms) slop relevance).outcome = .ok phrase) :
    ∃ place : Fin (phrase.last + 1) ≃ Fin count,
      (∀ i, (phrase.terms.get i).postings = (terms (place i)).postings) ∧
      ∀ state landing after, Relation.ReflTransGen Called phrase state → Moves state landing after →
        Verified ⟨fun i => parts (place i), phrase.groups, relevance, slop⟩ landing after := by
  obtain ⟨unrefused, nonneg⟩ := unrefused_of_made made
  obtain ⟨last, place, arranged, same, outcome⟩ := ofTerms_outcome unrefused nonneg relevance
  obtain rfl := Except.ok.inj (made.symm.trans outcome)
  let start : Vector (SloppyTerm P) (last + 1) := arranged.map fun term => ⟨term.postings, term.position, 0, 0⟩
  let shape : SloppyShape S last := ⟨fun i => parts (place i), repeatGroups arranged, relevance, slop⟩
  have here : ∀ i : Fin (last + 1), start.get i =
      ⟨(terms (place i)).postings, (terms (place i)).position, 0, 0⟩ := fun i => by
    rw [← same i]
    simp only [start, Vector.get_eq_getElem, Vector.getElem_map]
  have rested : shape.Rested (shape.phrase start unpositioned Score.zero 0) := by
    refine ⟨start, unpositioned, Score.zero, 0, rfl, unpositioned, ?_, fun i => ?_⟩
    · rw [here]
      exact ⟨(promises _).position, .unplaced, (promises _).falters, rfl⟩
    · rw [here]
      exact ⟨(promises _).position, (promises _).falters.unreadFrom (by decide)⟩
  refine ⟨place, fun i => by rw [here i], fun state landing after calls moves => ?_⟩
  exact shape.withstands.post_of_moves (shape.withstands.holds_of_calls rested calls) moves

/-- Two terms, the second one place behind the first, without slop. Reading its position in document 2 fails. The
phrase then stands on this document, where its terms are not close, with the frequency of document 1. The next move
ends on document 3 with its own frequency. -/
theorem failed_reading_leaves_unverified_document :
    ∃ (parts : Fin 2 → PhrasePart) (terms : Fin 2 → PhraseTerm (Stumbling PostingList))
      (phrase : SloppyPhrase (Stumbling PostingList) ℚ) (place : Fin (phrase.last + 1) ≃ Fin 2),
      (∀ i, (parts i).Promises (terms i)) ∧
      (ofTerms (List.ofFn terms) 0 (.constant 1 1)).outcome = .ok phrase ∧
      let first := Cursor.next phrase
      let second := Cursor.next first.2
      let third := Cursor.next second.2
      first.1 = .ok 1 ∧ second.1 = .error (.posting .notOnDocument) ∧ second.2.doc = 2 ∧ second.2.freq = 1 ∧
        ¬CloseIn (List.ofFn parts) 2 0 ∧ third.1 = .ok 3 ∧
        Verified ⟨fun i => parts (place i), phrase.groups, .constant 1 1, 0⟩ 3 third.2 := by
  let early : PhrasePart := ⟨[⟨1, 1, [0]⟩, ⟨2, 1, [0]⟩, ⟨3, 1, [4]⟩], 0, ⟨⟨rfl, by decide⟩, by decide⟩⟩
  let late : PhrasePart := ⟨[⟨1, 1, [1]⟩, ⟨2, 1, [5]⟩, ⟨3, 1, [5]⟩], 1, ⟨⟨rfl, by decide⟩, by decide⟩⟩
  let terms : Fin 2 → PhraseTerm (Stumbling PostingList) :=
    ![⟨⟨.fresh early.postings, []⟩, 0, none⟩,
      ⟨⟨.fresh late.postings, [none, none, none, some ⟨.posting .notOnDocument, false⟩]⟩, 1, none⟩]
  have promises : ∀ i, (![early, late] i).Promises (terms i) := by
    intro i
    fin_cases i
    · exact ⟨Stumbling.faltersAt rfl _, rfl⟩
    · exact ⟨Stumbling.faltersAt rfl _, rfl⟩
  have made : (ofTerms (List.ofFn terms) 0 (.constant (1 : ℚ) 1)).outcome = .ok _ := rfl
  obtain ⟨place, -, verified⟩ := moves_verify_matches promises made
  have apart : ¬CloseIn [early, late] 2 0 := by
    rintro ⟨choice, listed, near⟩
    have first : choice 0 = 0 := List.mem_singleton.mp (listed 0)
    have second : choice 1 = 5 := List.mem_singleton.mp (listed 1)
    have distance : choice 1 - 1 - (choice 0 - 0) ≤ 0 := near 1 0
    lia
  refine ⟨![early, late], terms, _, place, promises, made, ?_⟩
  intro first second third
  have landed : third.1 = .ok 3 := by decide +kernel
  have calls : Relation.ReflTransGen Called _ second.2 := .tail (.single (Called.next _)) (Called.next first.2)
  exact ⟨by decide +kernel, by decide +kernel, by decide +kernel, by decide +kernel, apart, landed,
    verified second.2 3 third.2 calls (moves_next landed)⟩

end SloppyPhrase

end PostingQuery
