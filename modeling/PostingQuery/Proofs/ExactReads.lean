import Mathlib
import PostingQuery.Proofs.ExactPhrase
import PostingQuery.Proofs.MeteredPostings

/-!
How often an exact phrase reads positions. It asks for the first position of each document without looking at the
frequency, and for the others as often as the frequency says. So over any postings that never go back, whatever they
answer and wherever they fail, it keeps to the frequency in all documents where the frequency is positive.
-/

namespace PostingQuery

open Metered

variable {P S : Type} [PostingSource P] {holds : P → Prop} {least : Nat} {region : DocId → Prop} {candidate : DocId}

namespace ExactTerm

/-- A term with enough on the account of its postings for all positions that it still wants to read. -/
def Pays (holds : P → Prop) (least : Nat) (region : DocId → Prop) (term : ExactTerm (Metered P)) : Prop :=
  Spends holds least region term.unread term.postings

variable {term after : ExactTerm (Metered P)}

theorem pays_of_read (forward : OnlyForward holds) {outcome : Except Failure Unit} (same : term.read = (outcome, after))
    (spends : Spends holds least region (term.unread + 1) term.postings) :
    Pays holds least region after ∧ after.unread = term.unread := by
  have left := spends.nextPosition forward
  unfold read at same
  split at same
  next read =>
    rw [read] at left
    cases same
    exact ⟨left, rfl⟩
  next read =>
    rw [read] at left
    split at same
    next =>
      cases same
      exact ⟨left, rfl⟩
    next =>
      cases same
      exact ⟨left, rfl⟩

variable {α : Type} {size : Nat}

theorem Pays.look (pays : Pays holds least region term) (low : Int) (take : Fin size → α → α) (taken : α) :
    Pays holds least region (term.look low take taken).1 ∧ (term.look low take taken).1.unread = term.unread := by
  unfold ExactTerm.look
  split
  next =>
    split
    next => exact ⟨pays, rfl⟩
    next => exact ⟨pays, rfl⟩
  next => exact ⟨pays, rfl⟩

theorem Pays.visitWithin (forward : OnlyForward holds) (low : Int) (take : Fin size → α → α) (unread : Nat)
    (term : ExactTerm (Metered P)) (taken : α) (pays : Pays holds least region term)
    (counted : term.unread = unread) :
    Pays holds least region (visitWithin low take unread term taken).2.1 := by
  induction unread generalizing term taken with
  | zero =>
    unfold ExactTerm.visitWithin
    split
    next => exact (pays.look low take taken).1
    next => exact pays
  | succ unread ih =>
    unfold ExactTerm.visitWithin
    split
    next =>
      obtain ⟨paysLooked, same⟩ := pays.look low take taken
      rw [counted] at same
      have spends : Spends holds least region (unread + 1) (term.look low take taken).1.postings := same ▸ paysLooked
      dsimp only
      split
      next read => exact (pays_of_read forward read spends).1
      next read =>
        obtain ⟨left, kept⟩ := pays_of_read forward read spends
        exact ih _ _ left kept
    next => exact pays

theorem Pays.visit (forward : OnlyForward holds) (pays : Pays holds least region term) (low : Int)
    (take : Fin size → α → α) (taken : α) : Pays holds least region (term.visit low take taken).2.1 :=
  Pays.visitWithin forward low take term.unread term taken pays rfl

/-- The first position is read whatever the frequency is, so one reading has to be free. -/
theorem pays_begin (forward : OnlyForward holds) (free : 1 ≤ least) (ready : Ready holds least region term.postings) :
    term.begin.Tries (fun _ => Pays holds least region) fun after => Spends holds least region 0 after.postings := by
  unfold ExactTerm.begin
  split
  next => exact .inr ⟨_, term, rfl, ready.toSpends⟩
  next freq told =>
    have spends : Spends holds least region ((freq - 1).toNat + 1) term.postings :=
      (ready.grant told).mono (by lia)
    rcases same : ({ term with unread := (freq - 1).toNat, seen := -1 } : ExactTerm (Metered P)).read with
      ⟨failure | _, after⟩
    · exact .inr ⟨failure, after, rfl, (pays_of_read forward same spends).1.mono (Nat.zero_le _)⟩
    · exact .inl ⟨(), after, rfl, (pays_of_read forward same spends).1⟩

theorem landed_follow (forward : OnlyForward holds) (steps : Nat) {postings : Metered P}
    (untapped : Untapped holds least candidate postings) :
    (follow candidate steps postings).Tries (fun landing after => Landed holds least landing after)
      (Untapped holds least candidate) := by
  induction steps generalizing postings with
  | zero =>
    unfold follow
    split
    next behind => exact untapped.move behind (forward.advance candidate)
    next reached => exact .inl ⟨_, postings, rfl, untapped.landed (not_lt.mp reached)⟩
  | succ steps ih =>
    unfold follow
    split
    next behind =>
      rcases untapped.move behind forward.next with ⟨landing, after, same, landed⟩ | ⟨failure, after, same, left⟩
      · rw [show Cursor.next postings = (.ok landing, after) from same]
        exact ih landed.untapped
      · rw [show Cursor.next postings = (.error failure, after) from same]
        exact .inr ⟨failure, after, rfl, left⟩
    next reached => exact .inl ⟨_, postings, rfl, untapped.landed (not_lt.mp reached)⟩

end ExactTerm

namespace ExactPhrase

open ExactTerm

variable {terms : List (ExactTerm (Metered P))} {phrase : ExactPhrase (Metered P) S}

def termPostings (terms : List (ExactTerm (Metered P))) : Set (Metered P) :=
  {metered | ∃ term ∈ terms, term.postings = metered}

def Rests (holds : P → Prop) (least : Nat) (phrase : ExactPhrase (Metered P) S) : Prop :=
  Balanced holds least phrase.lead.postings (termPostings phrase.followers)

structure Paying (holds : P → Prop) (least : Nat) (candidate : DocId) (phrase : ExactPhrase (Metered P) S) : Prop where
  lead : Pays holds least (· = candidate) phrase.lead
  followers : ∀ term ∈ phrase.followers, Pays holds least (· ≤ candidate) term

def Stops (holds : P → Prop) (least : Nat) (candidate : DocId) (phrase : ExactPhrase (Metered P) S) : Prop :=
  Charged holds least candidate phrase.lead.postings (termPostings phrase.followers)

theorem charged_of_spends {lead : ExactTerm (Metered P)} (leads : Spends holds least (· = candidate) 0 lead.postings)
    (follow : ∀ term ∈ terms, Spends holds least (· ≤ candidate) 0 term.postings) :
    Charged holds least candidate lead.postings (termPostings terms) where
  lead := leads
  followers := by
    rintro _ ⟨term, member, rfl⟩
    exact follow term member

theorem Paying.stops (paying : Paying holds least candidate phrase) : Stops holds least candidate phrase :=
  charged_of_spends (paying.lead.mono (Nat.zero_le _)) fun term member =>
    (paying.followers term member).mono (Nat.zero_le _)

theorem pays_chain {size : Nat} (forward : OnlyForward holds) (low : Int) (length : Nat) (chains : Chains size)
    (ended : Bool) (pays : ∀ term ∈ terms, Pays holds least region term) :
    ∀ term ∈ (chain low length terms chains ended).2.1, Pays holds least region term := by
  induction terms generalizing length chains ended with
  | nil => exact pays
  | cons term rest ih =>
    obtain ⟨head, tail⟩ := List.forall_mem_cons.mp pays
    cases rest with
    | nil =>
      have visited := head.visit forward low
        (fun slot count => if chains.length? slot = some length then count + 1 else count) 0
      unfold chain
      dsimp only
      generalize term.visit low _ 0 = run at visited ⊢
      obtain ⟨failure | atEnd, after, completed⟩ := run
      all_goals exact List.forall_mem_cons.mpr ⟨visited, tail⟩
    | cons next others =>
      have visited := head.visit forward low (Chains.extend length) (chains, false)
      unfold chain
      generalize term.visit low (Chains.extend length) (chains, false) = run at visited ⊢
      obtain ⟨failure | atEnd, after, lengthened, goesOn⟩ := run
      · exact List.forall_mem_cons.mpr ⟨visited, tail⟩
      · cases goesOn with
        | false => exact List.forall_mem_cons.mpr ⟨visited, tail⟩
        | true => exact List.forall_mem_cons.mpr ⟨visited, ih _ _ _ tail⟩

theorem Paying.countFrom (forward : OnlyForward holds) (chunks : Nat) (low : Int) (count : Nat)
    (paying : Paying holds least candidate phrase) :
    Paying holds least candidate (countFrom chunks phrase low count).2 := by
  induction chunks generalizing phrase low count with
  | zero => exact paying
  | succ chunks ih =>
    have visited := paying.lead.visit forward low Chains.start phrase.chains.renew
    unfold ExactPhrase.countFrom
    split
    next same =>
      rw [same] at visited
      exact ⟨visited, paying.followers⟩
    next atEnd lead chains same =>
      rw [same] at visited
      have chained := pays_chain forward low 1 chains atEnd paying.followers
      split
      next same =>
        rw [same] at chained
        exact ⟨visited, chained⟩
      next same =>
        rw [same] at chained
        dsimp only
        split
        next => exact ⟨visited, chained⟩
        next => exact ih _ _ ⟨visited, chained⟩

theorem pays_begin_each (forward : OnlyForward holds) (free : 1 ≤ least)
    (ready : ∀ term ∈ terms, Ready holds least region term.postings) :
    (Step.each ExactTerm.begin terms).Tries (fun _ after => ∀ term ∈ after, Pays holds least region term)
      fun after => ∀ term ∈ after, Spends holds least region 0 term.postings := by
  induction terms with
  | nil => exact .inl ⟨[], [], rfl, fun _ member => absurd member List.not_mem_nil⟩
  | cons term rest ih =>
    obtain ⟨head, tail⟩ := List.forall_mem_cons.mp ready
    unfold Step.each
    rcases pays_begin forward free head with ⟨answer, after, same, pays⟩ | ⟨failure, after, same, spends⟩
    · simp only [same]
      rcases ih tail with ⟨answers, others, restSame, restPay⟩ | ⟨failure, others, restSame, restSpend⟩
      · simp only [restSame]
        exact .inl ⟨_, _, rfl, List.forall_mem_cons.mpr ⟨pays, restPay⟩⟩
      · simp only [restSame]
        exact .inr ⟨_, _, rfl, List.forall_mem_cons.mpr ⟨pays.mono (Nat.zero_le _), restSpend⟩⟩
    · simp only [same]
      exact .inr ⟨_, _, rfl, List.forall_mem_cons.mpr ⟨spends, fun other member => (tail other member).toSpends⟩⟩

theorem stops_count (forward : OnlyForward holds) (free : 1 ≤ least)
    (lead : Ready holds least (· = candidate) phrase.lead.postings)
    (followers : ∀ term ∈ phrase.followers, Ready holds least (· ≤ candidate) term.postings) :
    Stops holds least candidate phrase.count.2 := by
  unfold count
  rcases pays_begin forward free lead with ⟨answer, begun, same, pays⟩ | ⟨failure, begun, same, spends⟩
  · simp only [same]
    rcases pays_begin_each forward free followers with
      ⟨answers, others, restSame, restPay⟩ | ⟨failure, others, restSame, restSpend⟩
    · simp only [restSame]
      exact (Paying.countFrom forward moveLimit 0 0 ⟨pays, restPay⟩).stops
    · simp only [restSame]
      exact charged_of_spends (pays.mono (Nat.zero_le _)) restSpend
  · simp only [same]
    exact charged_of_spends spends fun term member => (followers term member).toSpends

theorem align_ready (forward : OnlyForward holds) (steps : Nat) (real : candidate < noMoreDocs)
    (untapped : ∀ term ∈ terms, Untapped holds least candidate term.postings) :
    (align candidate steps terms).Tries
      (fun answer after => (∀ term ∈ after, Untapped holds least candidate term.postings) ∧
        (answer = none → ∀ term ∈ after, Ready holds least (· ≤ candidate) term.postings))
      fun after => ∀ term ∈ after, Untapped holds least candidate term.postings := by
  induction terms with
  | nil =>
    exact .inl ⟨none, [], rfl, fun _ member => absurd member List.not_mem_nil,
      fun _ _ member => absurd member List.not_mem_nil⟩
  | cons term rest ih =>
    obtain ⟨head, tail⟩ := List.forall_mem_cons.mp untapped
    unfold align
    rcases landed_follow forward (if term.jumps then 0 else steps) head with
      ⟨reached, after, same, landed⟩ | ⟨failure, after, same, left⟩
    · simp only [same]
      split
      next => exact .inl ⟨_, _, rfl, List.forall_mem_cons.mpr ⟨landed.untapped, tail⟩, fun none => by cases none⟩
      next level =>
        have level : reached ≤ candidate := not_lt.mp level
        have ready : Ready holds least (· ≤ candidate) after := landed.ready level (level.trans_lt real).ne
        refine Step.Tries.within ((ih tail).mono (fun answer others both => ?_) fun others left => ?_)
        · exact ⟨List.forall_mem_cons.mpr ⟨landed.untapped, both.1⟩,
            fun none => List.forall_mem_cons.mpr ⟨ready, both.2 none⟩⟩
        · exact List.forall_mem_cons.mpr ⟨landed.untapped, left⟩
    · simp only [same]
      exact .inr ⟨failure, _, rfl, List.forall_mem_cons.mpr ⟨left, tail⟩⟩

theorem leadLanded_iff {lead : Metered P} : LeadLanded holds least candidate lead (termPostings terms) ↔
    Landed holds least candidate lead ∧ ∀ term ∈ terms, Untapped holds least candidate term.postings := by
  refine ⟨fun landed => ⟨landed.lead, fun term member => landed.followers _ ⟨term, member, rfl⟩⟩,
    fun both => ⟨both.1, ?_⟩⟩
  rintro _ ⟨term, member, rfl⟩
  exact both.2 term member

theorem moveLead_rests (forward : OnlyForward holds) (rests : Rests holds least phrase) {run : P → Step P DocId}
    (movesOn : MovesOn holds run) :
    (phrase.moveLead (Metered.move run)).Tries
      (fun landing after => LeadLanded holds least landing after.lead.postings (termPostings after.followers))
      (Rests holds least) :=
  Step.Tries.within (Balanced.move forward rests movesOn)

theorem settle_rests (forward : OnlyForward holds) (free : 1 ≤ least) (moves : Nat)
    (landed : LeadLanded holds least candidate phrase.lead.postings (termPostings phrase.followers)) :
    Rests holds least (settle moves phrase candidate).2 := by
  induction moves generalizing phrase candidate with
  | zero => exact landed.balanced
  | succ moves ih =>
    unfold settle
    split
    next => exact landed.balanced
    next live =>
      obtain ⟨lead, untapped⟩ := leadLanded_iff.mp landed
      have real : candidate < noMoreDocs :=
        lt_of_le_of_ne (lead.doc ▸ forward.inside _ lead.affords.holds) live
      have swept : ∀ others : List (ExactTerm (Metered P)),
          (∀ term ∈ others, Untapped holds least candidate term.postings) →
          Rests holds least { phrase with followers := others } := fun others left =>
        (leadLanded_iff.mpr ⟨lead, left⟩).balanced
      rcases align_ready forward phrase.steps real untapped with
        ⟨answer, others, same, left, ready⟩ | ⟨failure, others, same, left⟩
      · rw [same]
        cases answer with
        | some beyond =>
          dsimp only
          split
          next => exact swept others left
          next =>
            rcases moveLead_rests forward (swept others left) (forward.advance beyond) with
              ⟨reached, moved, movedSame, movedLanded⟩ | ⟨failure, moved, movedSame, movedRests⟩
            · rw [show ExactPhrase.moveLead _ (Cursor.advance · beyond) = _ from movedSame]
              exact ih movedLanded
            · rw [show ExactPhrase.moveLead _ (Cursor.advance · beyond) = _ from movedSame]
              exact movedRests
        | none =>
          have stops : Stops holds least candidate { phrase with followers := others, doc := candidate }.count.2 :=
            stops_count forward free (lead.ready rfl live) (ready rfl)
          dsimp only
          split
          next same =>
            rw [same] at stops
            exact stops.balanced
          next freq counted same =>
            rw [same] at stops
            split
            next => exact stops.balanced
            next =>
              have rests : Rests holds least { counted with freq } := stops.balanced
              rcases moveLead_rests forward rests forward.next with
                ⟨reached, moved, movedSame, movedLanded⟩ | ⟨failure, moved, movedSame, movedRests⟩
              · rw [show ExactPhrase.moveLead _ Cursor.next = _ from movedSame]
                exact ih movedLanded
              · rw [show ExactPhrase.moveLead _ Cursor.next = _ from movedSame]
                exact movedRests
      · rw [same]
        exact swept others left

theorem moveAndSettle_rests (forward : OnlyForward holds) (free : 1 ≤ least) (rests : Rests holds least phrase)
    {run : P → Step P DocId} (movesOn : MovesOn holds run) :
    Rests holds least (phrase.moveAndSettle (Metered.move run)).2 := by
  unfold moveAndSettle
  split
  next => exact rests
  next =>
    rcases moveLead_rests forward rests movesOn with ⟨reached, moved, same, landed⟩ | ⟨failure, moved, same, balanced⟩
    · rw [same]
      exact settle_rests forward free moveLimit landed
    · rw [same]
      exact balanced

theorem untapped_of_place (forward : OnlyForward holds) {low : DocId} {lacking : Bool}
    {after : List (ExactTerm (Metered P))}
    (fresh : ∀ term ∈ terms, Affords holds least 0 term.postings ∧ term.postings.Fresh)
    (placed : place terms = .ok (after, lacking)) : ∀ term ∈ after, Untapped holds least low term.postings := by
  induction terms generalizing after lacking with
  | nil =>
    obtain ⟨rfl, -⟩ := Prod.mk.inj (Except.ok.inj placed)
    exact fun _ member => absurd member List.not_mem_nil
  | cons term rest ih =>
    obtain ⟨head, tail⟩ := List.forall_mem_cons.mp fresh
    unfold place at placed
    rcases head.1.move forward.next with ⟨landing, postings, same, landed, -⟩ | ⟨failure, postings, same, -⟩
    · rw [show Cursor.next term.postings = (.ok landing, postings) from same] at placed
      dsimp only at placed
      split at placed
      next =>
        obtain ⟨rfl, -⟩ := Prod.mk.inj (Except.ok.inj placed)
        exact List.forall_mem_cons.mpr
          ⟨landed.untapped, fun other member => ⟨(tail other member).1, fun _ _ => (tail other member).2⟩⟩
      next =>
        cases others : place rest with
        | error failure =>
          rw [others] at placed
          cases placed
        | ok answer =>
          rw [others] at placed
          obtain ⟨rfl, -⟩ := Prod.mk.inj (Except.ok.inj placed)
          exact List.forall_mem_cons.mpr ⟨landed.untapped, ih tail others⟩
    · rw [show Cursor.next term.postings = (.error failure, postings) from same] at placed
      cases placed

theorem rests_of_made (forward : OnlyForward holds) {terms : List (PhraseTerm P)}
    (here : ∀ term ∈ terms, holds term.postings) {relevance : Relevance S} {settings : Settings}
    (made : ofTerms (terms.map PhraseTerm.metered) relevance settings = .ok phrase) : Rests holds least phrase := by
  obtain ⟨valid, unrefused⟩ := unrefused_of_made made
  have perm := StableSort.sort_perm PhraseTerm.mayLead (terms.map PhraseTerm.metered)
  change (PhraseTerm.arrange (terms.map PhraseTerm.metered)).Perm _ at perm
  have fresh : ∀ term ∈ PhraseTerm.arrange (terms.map PhraseTerm.metered),
      Affords holds least 0 term.postings ∧ term.postings.Fresh := by
    intro term member
    obtain ⟨source, listed, rfl⟩ := List.mem_map.mp (perm.mem_iff.mp member)
    exact ⟨affords_start (here source listed), fresh_start source.postings⟩
  cases arranged : PhraseTerm.arrange (terms.map PhraseTerm.metered) with
  | nil =>
    rw [arranged] at perm
    rw [List.nil_perm.mp perm] at unrefused
    cases unrefused
  | cons leadTerm followerTerms =>
    obtain ⟨bound, same⟩ := ofTerms_eq valid unrefused arranged rfl
    rw [arranged] at fresh
    obtain ⟨leads, follow⟩ := List.forall_mem_cons.mp fresh
    rw [same] at made
    cases placed : place (followerTerms.map (prepare _ bound)) with
    | error failure =>
      rw [placed] at made
      cases made
    | ok answer =>
      rw [placed] at made
      obtain rfl := Except.ok.inj made
      refine ⟨leads.1, ?_⟩
      rintro _ ⟨term, member, rfl⟩
      refine untapped_of_place forward (fun term member => ?_) placed term member
      obtain ⟨source, listed, rfl⟩ := List.mem_map.mp member
      exact follow source listed

/-- Whatever calls are made of an exact phrase and whatever its postings answer, no term is asked for more positions of
a document than its frequency there, or than one. -/
theorem reads_within_frequency_or_one (forward : OnlyForward holds) {terms : List (PhraseTerm P)}
    (here : ∀ term ∈ terms, holds term.postings) {relevance : Relevance S} {settings : Settings}
    (made : ofTerms (terms.map PhraseTerm.metered) relevance settings = .ok phrase)
    {after : ExactPhrase (Metered P) S} (calls : Relation.ReflTransGen Called phrase after) :
    ∀ term ∈ after.lead :: after.followers, ∀ account ∈ term.postings.accounts,
      account.reads ≤ max account.granted.toNat 1 := by
  have rests : Rests holds 1 after := by
    induction calls with
    | refl => exact rests_of_made forward here made
    | tail _ call ih =>
      cases call with
      | next => exact moveAndSettle_rests forward le_rfl ih forward.next
      | advance target => exact moveAndSettle_rests forward le_rfl ih (forward.advance target)
  exact List.forall_mem_cons.mpr ⟨rests.within.1, fun term member => rests.within.2 _ ⟨term, member, rfl⟩⟩

/-- Two terms that share a document, where the first one has no positions. The phrase asks for one all the same, so that
looking for the next document fails. -/
theorem first_position_is_asked_for :
    ∃ (terms : List (PhraseTerm PostingList)) (phrase : ExactPhrase (Metered PostingList) ℚ),
      (∀ term ∈ terms, ∃ docs, PostingList.ofPositions docs = .ok term.postings) ∧
      ofTerms (terms.map PhraseTerm.metered) (.constant 1 1) Settings.standard = .ok phrase ∧
      let after := Cursor.next phrase
      after.1 = .error (.posting (.positionsUsedUp 0)) ∧ after.2.lead.postings.account = ⟨0, 1⟩ ∧
        ∀ term ∈ after.2.lead :: after.2.followers, ∀ account ∈ term.postings.accounts,
          account.reads ≤ max account.granted.toNat 1 := by
  let terms : List (PhraseTerm PostingList) :=
    [⟨.fresh [.ofPositions 0 []], 0, none⟩, ⟨.fresh [.ofPositions 0 [1]], 1, none⟩]
  have lists : ∀ term ∈ terms, ∃ docs, PostingList.ofPositions docs = .ok term.postings :=
    List.forall_mem_cons.mpr ⟨⟨[(0, [])], rfl⟩, List.forall_mem_singleton.mpr ⟨[(0, [1])], rfl⟩⟩
  have made : ofTerms (terms.map PhraseTerm.metered) (.constant (1 : ℚ) 1) Settings.standard = .ok _ := rfl
  have blank : Posting.Accepted [.ofPositions 0 []] := ⟨rfl, by decide⟩
  have single : Posting.Accepted [.ofPositions 0 [1]] := ⟨rfl, by decide⟩
  have here : ∀ term ∈ terms, Listed term.postings :=
    List.forall_mem_cons.mpr ⟨listed_of_made blank rfl, List.forall_mem_singleton.mpr (listed_of_made single rfl)⟩
  exact ⟨terms, _, lists, made, by decide +kernel, by decide +kernel,
    reads_within_frequency_or_one forward_listed here made (.single (.next _))⟩

end ExactPhrase

end PostingQuery
