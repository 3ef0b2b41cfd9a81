import Mathlib
import PostingQuery.Proofs.MeteredPostings
import PostingQuery.Proofs.SloppyPhrase

/-!
How often a sloppy phrase reads positions. Whatever the walk through a document does, be it to begin, to spread a repeat
group, to part two colliding terms or to move on, it moves a term by single readings, each of which is counted down from
the frequency. So no term is asked for more positions than that, over any postings that never go back, whatever they
answer and wherever they fail.
-/

namespace PostingQuery

open Metered

variable {P S : Type} [PostingSource P] {holds : P → Prop} {least : Nat} {region : DocId → Prop} {candidate : DocId}

namespace SloppyTerm

def Pays (holds : P → Prop) (least : Nat) (region : DocId → Prop) (term : SloppyTerm (Metered P)) : Prop :=
  Spends holds least region term.unread term.postings

variable {term : SloppyTerm (Metered P)}

theorem Pays.read (forward : OnlyForward holds) (pays : Pays holds least region term) :
    Pays holds least region term.read.2 := by
  unfold SloppyTerm.read
  split
  next => exact pays
  next unread counted =>
    have spends : Spends holds least region term.unread term.postings := pays
    rw [counted] at spends
    have left := spends.nextPosition forward
    split
    next same =>
      rw [same] at left
      exact left
    next same =>
      rw [same] at left
      split
      next => exact left
      next => exact left

/-- The first position is read only if the frequency is positive. -/
theorem pays_begin (forward : OnlyForward holds) (ready : Ready holds least region term.postings) :
    term.begin.Tries (fun _ after => Pays holds least region after)
      fun after => Spends holds least region 0 after.postings := by
  unfold SloppyTerm.begin
  split
  next => exact .inr ⟨_, term, rfl, ready.toSpends⟩
  next freq told =>
    have pays : Pays holds least region { term with unread := freq.toNat } :=
      (ready.grant told).mono (le_max_left _ _)
    have after := pays.read forward
    rcases same : ({ term with unread := freq.toNat } : SloppyTerm (Metered P)).read with ⟨failure | more, left⟩
    · rw [same] at after
      exact .inr ⟨failure, left, rfl, after.mono (Nat.zero_le _)⟩
    · rw [same] at after
      exact .inl ⟨(), left, rfl, after⟩

end SloppyTerm

namespace SloppyWalk

section Keeps

variable {n : Nat} {keeps : Fin n → SloppyTerm P → Prop} {terms : Vector (SloppyTerm P) n} {walk : SloppyWalk P S n}

omit [PostingSource P] in
theorem forall_get_set (all : ∀ i, keeps i (terms.get i)) {i : Fin n} {term : SloppyTerm P} (kept : keeps i term)
    (j : Fin n) : keeps j ((terms.set i term i.isLt).get j) := by
  rw [get_set]
  split
  next same => exact same ▸ kept
  next => exact all j

variable (reading : ∀ i term, keeps i term → keeps i term.read.2)
include reading

theorem readTerm_keeps (all : ∀ i, keeps i (terms.get i)) (i : Fin n) : ∀ j, keeps j ((readTerm terms i).2.get j) :=
  forall_get_set all (reading i _ (all i))

theorem skip_keeps (all : ∀ i, keeps i (terms.get i)) (i : Fin n) (count : Nat) :
    ∀ j, keeps j ((skip i count terms).2.get j) := by
  induction count generalizing terms with
  | zero => exact all
  | succ count ih =>
    have after := readTerm_keeps reading all i
    unfold skip
    split
    next same =>
      rw [same] at after
      exact ih after
    next => exact after

theorem spread_keeps (all : ∀ i, keeps i (terms.get i)) (places : List (Fin n × Nat)) :
    ∀ j, keeps j ((spread places terms).2.get j) := by
  induction places generalizing terms with
  | nil => exact all
  | cons place rest ih =>
    obtain ⟨i, count⟩ := place
    have after := skip_keeps reading all i count
    unfold spread
    split
    next same =>
      rw [same] at after
      exact ih after
    next => exact after

theorem move_keeps (all : ∀ i, keeps i (walk.terms.get i)) (i : Fin n) :
    ∀ j, keeps j ((walk.move i).2.terms.get j) := by
  have after := readTerm_keeps reading all i
  unfold move
  split
  next same =>
    rw [same] at after
    exact after
  next same =>
    rw [same] at after
    exact after

theorem separate_keeps (groups : List (List (Fin n))) (first : Fin n) (reads : Nat) (current : Fin n)
    (disturbed : Bool) (all : ∀ i, keeps i (walk.terms.get i)) :
    ∀ j, keeps j ((separate groups first reads walk current disturbed).2.terms.get j) := by
  induction reads generalizing walk current disturbed with
  | zero => exact all
  | succ reads ih =>
    unfold separate
    split
    next =>
      cases disturbed with
      | false => exact all
      | true => exact all
    next other _ =>
      have after := move_keeps reading all (lesser walk.terms current other)
      dsimp only
      split
      next same =>
        rw [same] at after
        exact ih _ _ after
      next => exact after

variable [Score S]

omit [PostingSource P] reading in
theorem judge_keeps (all : ∀ i, keeps i (walk.terms.get i)) (relevance : Relevance S) (slop span : Int) :
    ∀ j, keeps j ((walk.judge relevance slop span).terms.get j) := by
  unfold judge
  split
  next => exact all
  next => exact all

theorem run_keeps (groups : List (List (Fin n))) (relevance : Relevance S) (slop : Int) (reads : Nat)
    (current : Fin n) (span next : Int) (all : ∀ i, keeps i (walk.terms.get i)) :
    ∀ j, keeps j ((run groups relevance slop reads walk current span next).2.terms.get j) := by
  induction reads generalizing walk current span next with
  | zero => exact all
  | succ reads ih =>
    have moved := move_keeps reading all current
    unfold run
    split
    next same =>
      rw [same] at moved
      exact moved
    next same =>
      rw [same] at moved
      exact judge_keeps moved relevance slop span
    next after same =>
      rw [same] at moved
      have parted := separate_keeps reading groups current after.readBound current false moved
      split
      next same =>
        rw [same] at parted
        exact parted
      next same =>
        rw [same] at parted
        exact judge_keeps parted relevance slop span
      next same =>
        rw [same] at parted
        have judged := judge_keeps parted relevance slop span
        dsimp only
        split
        next =>
          split
          next => exact judge_keeps judged relevance slop span
          next => exact ih _ _ _ judged
        next => exact ih _ _ _ parted

theorem complete_keeps (groups : List (List (Fin n))) (relevance : Relevance S) (slop : Int)
    (all : ∀ i, keeps i (walk.terms.get i)) : ∀ j, keeps j ((walk.complete groups relevance slop).2.terms.get j) := by
  unfold complete
  split
  next => exact all
  next => exact run_keeps reading _ _ _ _ _ _ _ all

end Keeps

section Begin

open SloppyTerm

variable {n : Nat} {regions : Fin n → DocId → Prop} {terms : Vector (SloppyTerm (Metered P)) n}

theorem pays_beginTerms (forward : OnlyForward holds) (places : List (Fin n)) (distinct : places.Nodup)
    (ready : ∀ i ∈ places, Ready holds least (regions i) (terms.get i).postings)
    (begun : ∀ i, i ∉ places → Pays holds least (regions i) (terms.get i)) :
    (beginTerms places terms).Tries (fun _ after => ∀ i, Pays holds least (regions i) (after.get i))
      fun after => ∀ i, Spends holds least (regions i) 0 (after.get i).postings := by
  induction places generalizing terms with
  | nil => exact .inl ⟨(), terms, rfl, fun i => begun i List.not_mem_nil⟩
  | cons i rest ih =>
    rw [List.nodup_cons] at distinct
    have here : ∀ term, (terms.set i term i.isLt).get i = term := fun term => by rw [get_set, if_pos rfl]
    have elsewhere : ∀ term j, i ≠ j → (terms.set i term i.isLt).get j = terms.get j :=
      fun term j other => by rw [get_set, if_neg other]
    unfold beginTerms
    rcases SloppyTerm.pays_begin forward (ready i List.mem_cons_self) with
      ⟨answer, after, same, pays⟩ | ⟨failure, after, same, spends⟩
    · simp only [getElem_eq_get, same, Step.within]
      refine ih distinct.2 (fun j member => ?_) fun j absent => ?_
      · rw [elsewhere after j fun same => distinct.1 (same ▸ member)]
        exact ready j (List.mem_cons_of_mem i member)
      · by_cases same : i = j
        · subst same
          rw [here]
          exact pays
        · rw [elsewhere after j same]
          exact begun j fun member => (List.mem_cons.mp member).elim (fun other => same other.symm) absent
    · simp only [getElem_eq_get, same, Step.within]
      refine .inr ⟨failure, _, rfl, fun j => ?_⟩
      by_cases same : i = j
      · subst same
        rw [here]
        exact spends
      · rw [elsewhere after j same]
        by_cases member : j ∈ i :: rest
        · exact (ready j member).toSpends
        · exact (begun j member).mono (Nat.zero_le _)

variable [Score S]

theorem pays_start (forward : OnlyForward holds) (groups : List (List (Fin n)))
    (ready : ∀ i, Ready holds least (regions i) (terms.get i).postings) :
    (start (S := S) groups terms).Tries
      (fun answer after => (∀ i, Pays holds least (regions i) (after.get i)) ∧
        ∀ walk, answer = some walk → walk.terms = after)
      fun after => ∀ i, Spends holds least (regions i) 0 (after.get i).postings := by
  unfold start
  rcases pays_beginTerms forward (List.finRange n) (List.nodup_finRange n) (fun i _ => ready i)
      (fun i absent => absurd (List.mem_finRange i) absent) with
    ⟨answer, begun, same, pays⟩ | ⟨failure, begun, same, spends⟩
  · simp only [same]
    have after := spread_keeps (fun _ _ pays => pays.read forward) pays (groups.flatMap List.zipIdx)
    split
    next same =>
      rw [same] at after
      exact .inr ⟨_, _, rfl, fun i => (after i).mono (Nat.zero_le _)⟩
    next same =>
      rw [same] at after
      exact .inl ⟨none, _, rfl, after, fun walk made => by cases made⟩
    next same =>
      rw [same] at after
      exact .inl ⟨_, _, rfl, after, fun walk made => by cases made; rfl⟩
  · simp only [same]
    exact .inr ⟨failure, begun, rfl, spends⟩

end Begin

end SloppyWalk

namespace SloppyPhrase

open SloppyTerm SloppyWalk

section Align

variable {n : Nat} {terms : Vector (SloppyTerm P) n}

theorem align_keeps (held aboard : Fin n → SloppyTerm P → Prop) (places : List (Fin n)) (distinct : places.Nodup)
    (reaching : ∀ i ∈ places, ∀ term, held i term → (Cursor.reach term.postings candidate).Tries
      (fun landing postings => held i { term with postings } ∧ (landing ≤ candidate → aboard i { term with postings }))
      fun postings => held i { term with postings })
    (all : ∀ i, held i (terms.get i)) :
    (align candidate places terms).Tries
      (fun answer after => (∀ i, held i (after.get i)) ∧ (answer = none → ∀ i ∈ places, aboard i (after.get i)))
      fun after => ∀ i, held i (after.get i) := by
  induction places generalizing terms held with
  | nil => exact .inl ⟨none, terms, rfl, all, fun _ _ member => absurd member List.not_mem_nil⟩
  | cons i rest ih =>
    rw [List.nodup_cons] at distinct
    unfold align
    rcases reaching i List.mem_cons_self _ (all i) with
      ⟨landing, postings, same, kept, level⟩ | ⟨failure, postings, same, kept⟩
    · simp only [getElem_eq_get, same, Step.within]
      split
      next => exact .inl ⟨some landing, _, rfl, forall_get_set all kept, fun none => by cases none⟩
      next notBeyond =>
        -- The terms that are still to come differ from this one, so what is said of it stays.
        refine (ih (fun j term => held j term ∧ (j = i → aboard i term)) distinct.2
          (fun j member term both => ?_) fun j => ?_).mono (fun answer after told => ?_) fun after told j => (told j).1
        · have other : j ≠ i := fun same => distinct.1 (same ▸ member)
          exact (reaching j (List.mem_cons_of_mem i member) term both.1).mono
            (fun _ _ told => ⟨⟨told.1, fun same => absurd same other⟩, told.2⟩)
            fun _ told => ⟨told, fun same => absurd same other⟩
        · refine ⟨forall_get_set all kept j, fun same => ?_⟩
          rw [same, get_set, if_pos rfl]
          exact level (not_lt.mp notBeyond)
        · exact ⟨fun j => (told.1 j).1, fun none => List.forall_mem_cons.mpr ⟨(told.1 i).2 rfl, told.2 none⟩⟩
    · simp only [getElem_eq_get, same, Step.within]
      exact .inr ⟨failure, _, rfl, forall_get_set all kept⟩

end Align

variable {last : Nat} {terms : Vector (SloppyTerm (Metered P)) (last + 1)} {phrase : SloppyPhrase (Metered P) S}

def followerPostings (terms : Vector (SloppyTerm (Metered P)) (last + 1)) : Set (Metered P) :=
  {metered | ∃ i : Fin last, (terms.get i.succ).postings = metered}

def Rests (holds : P → Prop) (least : Nat) (phrase : SloppyPhrase (Metered P) S) : Prop :=
  Balanced holds least (phrase.terms.get 0).postings (followerPostings phrase.terms)

def Leads (holds : P → Prop) (least : Nat) (candidate : DocId) (phrase : SloppyPhrase (Metered P) S) : Prop :=
  LeadLanded holds least candidate (phrase.terms.get 0).postings (followerPostings phrase.terms)

def Stops (holds : P → Prop) (least : Nat) (candidate : DocId) (phrase : SloppyPhrase (Metered P) S) : Prop :=
  Charged holds least candidate (phrase.terms.get 0).postings (followerPostings phrase.terms)

def regions (candidate : DocId) : Fin (last + 1) → DocId → Prop := Fin.cases (· = candidate) fun _ => (· ≤ candidate)

theorem charged_of_spends (spends : ∀ i, Spends holds least (regions candidate i) 0 (terms.get i).postings) :
    Charged holds least candidate (terms.get 0).postings (followerPostings terms) where
  lead := spends 0
  followers := by
    rintro _ ⟨i, rfl⟩
    exact spends i.succ

theorem leadLanded_iff : LeadLanded holds least candidate (terms.get 0).postings (followerPostings terms) ↔
    Landed holds least candidate (terms.get 0).postings ∧
      ∀ i : Fin last, Untapped holds least candidate (terms.get i.succ).postings := by
  refine ⟨fun landed => ⟨landed.lead, fun i => landed.followers _ ⟨i, rfl⟩⟩, fun both => ⟨both.1, ?_⟩⟩
  rintro _ ⟨i, rfl⟩
  exact both.2 i

theorem moveLead_rests (forward : OnlyForward holds) (rests : Rests holds least phrase) {run : P → Step P DocId}
    (movesOn : MovesOn holds run) :
    (phrase.moveLead (Metered.move run)).Tries (fun landing after => Leads holds least landing after)
      (Rests holds least) := by
  have here : ∀ postings, (phrase.terms.set 0 { phrase.terms.get 0 with postings }).get 0 =
      { phrase.terms.get 0 with postings } := fun postings => by simp [Vector.get_eq_getElem]
  have others : ∀ postings, followerPostings (phrase.terms.set 0 { phrase.terms.get 0 with postings }) =
      followerPostings phrase.terms := by
    intro postings
    have stays : ∀ i : Fin phrase.last,
        (phrase.terms.set 0 { phrase.terms.get 0 with postings }).get i.succ = phrase.terms.get i.succ := by
      intro i
      have kept := get_set phrase.terms 0 i.succ { phrase.terms.get 0 with postings }
      rwa [if_neg (Fin.succ_ne_zero i).symm] at kept
    simp only [followerPostings, stays]
  have moved : phrase.moveLead (Metered.move run) = ((phrase.terms.get 0).postings.move run).within fun postings =>
      { phrase with terms := phrase.terms.set 0 { phrase.terms.get 0 with postings } } := rfl
  rw [moved]
  refine Step.Tries.within ((Balanced.move forward rests movesOn).mono (fun landing postings landed => ?_)
    fun postings balanced => ?_)
  · change LeadLanded holds least landing ((phrase.terms.set 0 { phrase.terms.get 0 with postings }).get 0).postings
      (followerPostings (phrase.terms.set 0 { phrase.terms.get 0 with postings }))
    rw [here, others]
    exact landed
  · change Balanced holds least ((phrase.terms.set 0 { phrase.terms.get 0 with postings }).get 0).postings
      (followerPostings (phrase.terms.set 0 { phrase.terms.get 0 with postings }))
    rw [here, others]
    exact balanced

theorem ready_align (forward : OnlyForward holds) (real : candidate < noMoreDocs)
    (landed : LeadLanded holds least candidate (terms.get 0).postings (followerPostings terms)) :
    (align candidate ((List.finRange last).map Fin.succ) terms).Tries
      (fun answer after => LeadLanded holds least candidate (after.get 0).postings (followerPostings after) ∧
        (answer = none → ∀ i, Ready holds least (regions candidate i) (after.get i).postings))
      fun after => LeadLanded holds least candidate (after.get 0).postings (followerPostings after) := by
  have distinct : ((List.finRange last).map Fin.succ).Nodup := (List.nodup_finRange last).map (Fin.succ_injective last)
  let held : Fin (last + 1) → SloppyTerm (Metered P) → Prop :=
    Fin.cases (fun term => Landed holds least candidate term.postings)
      fun _ term => Untapped holds least candidate term.postings
  have iff : ∀ terms : Vector (SloppyTerm (Metered P)) (last + 1), (∀ i, held i (terms.get i)) ↔
      LeadLanded holds least candidate (terms.get 0).postings (followerPostings terms) :=
    fun terms => Fin.forall_fin_succ.trans leadLanded_iff.symm
  refine (align_keeps held (fun _ term => Ready holds least (· ≤ candidate) term.postings) _ distinct
    (fun i member term kept => ?_) ((iff terms).mpr landed)).mono (fun answer after told => ?_) fun after told =>
      (iff after).mp told
  · obtain ⟨j, -, rfl⟩ := List.mem_map.mp member
    have untapped : Untapped holds least candidate term.postings := kept
    exact (untapped.reach forward).mono
      (fun landing _ landed => ⟨landed.untapped, fun level => landed.ready level (level.trans_lt real).ne⟩)
      fun _ left => left
  · have leads := (iff after).mp told.1
    exact ⟨leads, fun none => Fin.cases (leads.lead.ready rfl real.ne) fun i =>
      told.2 none i.succ (List.mem_map_of_mem (List.mem_finRange i))⟩

variable [Score S]

theorem stops_measure (forward : OnlyForward holds)
    (ready : ∀ i, Ready holds least (regions candidate i) (phrase.terms.get i).postings) :
    Stops holds least candidate phrase.measure.2 := by
  unfold measure
  dsimp only
  rcases SloppyWalk.pays_start (S := S) forward phrase.groups ready with
    ⟨answer, terms, same, pays, made⟩ | ⟨failure, terms, same, spends⟩
  · simp only [same]
    cases answer with
    | none => exact charged_of_spends fun i => (pays i).mono (Nat.zero_le _)
    | some walk =>
      obtain rfl := made walk rfl
      have after := complete_keeps (fun _ _ pays => pays.read forward) phrase.groups phrase.relevance phrase.slop pays
      exact charged_of_spends fun i => (after i).mono (Nat.zero_le _)
  · simp only [same]
    exact charged_of_spends spends

theorem settle_rests (forward : OnlyForward holds) (moves : Nat) (leads : Leads holds least candidate phrase) :
    Rests holds least (settle moves phrase candidate).2 := by
  induction moves generalizing phrase candidate with
  | zero => exact leads.balanced
  | succ moves ih =>
    unfold settle
    split
    next => exact leads.balanced
    next live =>
      have lead := (leadLanded_iff.mp leads).1
      have real : candidate < noMoreDocs :=
        lt_of_le_of_ne (lead.doc ▸ forward.inside _ lead.affords.holds) live
      rcases ready_align forward real leads with ⟨answer, terms, same, left, ready⟩ | ⟨failure, terms, same, left⟩
      · rw [same]
        cases answer with
        | some beyond =>
          have rests : Rests holds least { phrase with terms } := left.balanced
          rcases moveLead_rests forward rests (forward.advance beyond) with
            ⟨reached, moved, movedSame, movedLeads⟩ | ⟨failure, moved, movedSame, movedRests⟩
          · dsimp only
            rw [show SloppyPhrase.moveLead _ (Cursor.advance · beyond) = _ from movedSame]
            exact ih movedLeads
          · dsimp only
            rw [show SloppyPhrase.moveLead _ (Cursor.advance · beyond) = _ from movedSame]
            exact movedRests
        | none =>
          have stops : Stops holds least candidate { phrase with terms, doc := candidate }.measure.2 :=
            stops_measure forward (ready rfl)
          dsimp only
          split
          next same =>
            rw [same] at stops
            exact stops.balanced
          next freq measured same =>
            rw [same] at stops
            split
            next => exact stops.balanced
            next =>
              have rests : Rests holds least { measured with freq } := stops.balanced
              rcases moveLead_rests forward rests forward.next with
                ⟨reached, moved, movedSame, movedLeads⟩ | ⟨failure, moved, movedSame, movedRests⟩
              · rw [show SloppyPhrase.moveLead _ Cursor.next = _ from movedSame]
                exact ih movedLeads
              · rw [show SloppyPhrase.moveLead _ Cursor.next = _ from movedSame]
                exact movedRests
      · rw [same]
        exact left.balanced

theorem moveAndSettle_rests (forward : OnlyForward holds) (rests : Rests holds least phrase) {run : P → Step P DocId}
    (movesOn : MovesOn holds run) : Rests holds least (phrase.moveAndSettle (Metered.move run)).2 := by
  unfold moveAndSettle
  rcases moveLead_rests forward rests movesOn with ⟨reached, moved, same, leads⟩ | ⟨failure, moved, same, rested⟩
  · rw [same]
    exact settle_rests forward moveLimit leads
  · rw [same]
    exact rested

/-- Whatever calls are made of a sloppy phrase and whatever its postings answer, no term is asked for more positions of
a document than its frequency there. -/
theorem reads_within_frequency (forward : OnlyForward holds) {count : Nat} {terms : Fin count → PhraseTerm P}
    (here : ∀ i, holds (terms i).postings) {slop : Int} {relevance : Relevance S}
    {phrase : SloppyPhrase (Metered P) S}
    (made : (ofTerms (List.ofFn fun i => (terms i).metered) slop relevance).outcome = .ok phrase)
    {after : SloppyPhrase (Metered P) S} (calls : Relation.ReflTransGen Called phrase after) :
    ∀ i, ∀ account ∈ (after.terms.get i).postings.accounts, account.reads ≤ account.granted.toNat := by
  have rests : Rests holds 0 after := by
    induction calls with
    | refl =>
      obtain ⟨unrefused, nonneg⟩ := unrefused_of_made made
      obtain ⟨last, place, arranged, same, outcome⟩ := ofTerms_outcome unrefused nonneg relevance
      obtain rfl := Except.ok.inj (made.symm.trans outcome)
      have fresh : ∀ i, ((arranged.map fun term => (⟨term.postings, term.position, 0, 0⟩ : SloppyTerm (Metered P))).get
          i).postings = .start (terms (place i)).postings := fun i => by
        simp only [Vector.get_eq_getElem, Vector.getElem_map]
        exact congrArg PhraseTerm.postings (same i)
      refine ⟨?_, ?_⟩
      · rw [fresh]
        exact affords_start (here _)
      · rintro _ ⟨i, rfl⟩
        rw [fresh i.succ]
        exact ⟨affords_start (here _), fun _ _ => fresh_start _⟩
    | tail _ call ih =>
      cases call with
      | next => exact moveAndSettle_rests forward ih forward.next
      | advance target => exact moveAndSettle_rests forward ih (forward.advance target)
  have within : ∀ account : Account, account.Within 0 → account.reads ≤ account.granted.toNat := fun account kept => by
    simpa only [Account.Within, Nat.max_zero] using kept
  exact Fin.cases (fun account member => within account (rests.within.1 account member)) fun i account member =>
    within account (rests.within.2 _ ⟨i, rfl⟩ account member)

/-- Two terms that share a document, where the first one has no positions. The phrase does not ask it for any. -/
theorem no_position_is_asked_for :
    ∃ (terms : Fin 2 → PhraseTerm PostingList) (phrase : SloppyPhrase (Metered PostingList) ℚ),
      (∀ i, ∃ docs, PostingList.ofPositions docs = .ok (terms i).postings) ∧
      (ofTerms (List.ofFn fun i => (terms i).metered) 0 (.constant 1 1)).outcome = .ok phrase ∧
      let after := (Cursor.next phrase).2
      after.terms.toList.map (·.postings.account) = [⟨0, 0⟩, ⟨1, 1⟩] ∧
        ∀ i, ∀ account ∈ (after.terms.get i).postings.accounts, account.reads ≤ account.granted.toNat := by
  let terms : Fin 2 → PhraseTerm PostingList :=
    ![⟨.fresh [.ofPositions 0 []], 0, none⟩, ⟨.fresh [.ofPositions 0 [1]], 1, none⟩]
  have made : (ofTerms (List.ofFn fun i => (terms i).metered) 0 (.constant (1 : ℚ) 1)).outcome = .ok _ := rfl
  have blank : Posting.Accepted [.ofPositions 0 []] := ⟨rfl, by decide⟩
  have single : Posting.Accepted [.ofPositions 0 [1]] := ⟨rfl, by decide⟩
  have here : ∀ i, Listed (terms i).postings :=
    Fin.forall_fin_two.mpr ⟨listed_of_made blank rfl, listed_of_made single rfl⟩
  exact ⟨terms, _, Fin.forall_fin_two.mpr ⟨⟨[(0, [])], rfl⟩, ⟨[(0, [1])], rfl⟩⟩, made, by decide +kernel,
    reads_within_frequency forward_listed here made (.single (.next _))⟩

end SloppyPhrase

end PostingQuery
