import Mathlib
import PostingQuery.Proofs.Occurrences
import PostingQuery.Proofs.Term
import PostingQuery.Score.SinglePrecision

/-!
The documents of an exact phrase: those that have all terms and at least one start that all terms share.
-/

namespace PostingQuery

namespace ExactTerm

variable {P : Type} [PostingSource P] {postings : List Posting} {source : P}

theorem follow_yields {low candidate : DocId} (steps : Nat) (lags : Lags postings low source)
    (accepted : Posting.Accepted postings) (le : low ≤ candidate) (real : IsReal candidate) :
    (follow candidate steps source).Yields fun landing after =>
      Lands (Posting.docs postings) candidate landing ∧ Opened postings landing after := by
  induction steps generalizing source low with
  | zero =>
    have reach := lags.reach accepted le real
    unfold Cursor.reach at reach
    unfold follow
    split at reach
    next behind =>
      rw [if_pos behind]
      exact reach
    next passed =>
      rw [if_neg passed]
      exact reach
  | succ steps ih =>
    unfold follow
    split
    next behind =>
      obtain ⟨place, stands⟩ := lags.stands
      have here := stands.doc
      obtain ⟨landing, after, same, lands, opened⟩ :=
        stands.next accepted (here ▸ behind.trans real.2)
      simp only [same]
      exact ih (opened.lags (lands.covers)) (by lia)
    next passed => exact ⟨_, source, rfl, lags.lands le real.1 (not_lt.mp passed)⟩

def Follows (part : PhrasePart) (first : Int) (low : DocId) (term : ExactTerm P) : Prop :=
  term.offset = first - part.position ∧ Lags part.postings low term.postings

variable {part : PhrasePart} {first : Int} {low : DocId} {term : ExactTerm P}

theorem Follows.mono {higher : DocId} (follows : Follows part first low term) (le : low ≤ higher) :
    Follows part first higher term :=
  ⟨follows.1, follows.2.mono le⟩

theorem On.follows {doc : DocId} (on : On StandsAt part first doc term) (behind : doc < low) :
    Follows part first low term := by
  obtain ⟨offset, place, stands, rfl⟩ := on
  exact ⟨offset, stands.lags behind⟩

def Begins (part : PhrasePart) (first : Int) (doc : DocId) (term : ExactTerm P) : Prop :=
  Opened part.postings doc term.postings ∧ term.offset = first - part.position

theorem Begins.follows {doc : DocId} (begins : Begins part first doc term)
    (covers : Covers (Posting.docs part.postings) low doc) : Follows part first low term :=
  ⟨begins.2, begins.1.lags covers⟩

theorem Begins.fresh {doc : DocId} (begins : Begins part first doc term) (live : doc ≠ noMoreDocs) :
    Fresh StandsAt part first doc term :=
  ⟨begins.2, begins.1.untouched live⟩

end ExactTerm

namespace ExactPhrase

open ExactTerm PhrasePart

variable {P S : Type} [PostingSource P]

noncomputable def docs (parts : List PhrasePart) (first : Int) : Finset DocId :=
  (commonDocs parts).filter fun doc => (occurrences parts first doc).Nonempty

variable {parts : List PhrasePart} {first : Int} {terms : List (ExactTerm P)} {candidate : DocId}

def Aligned (parts : List PhrasePart) (first : Int) (candidate : DocId) (terms : List (ExactTerm P)) :
    Option DocId → Prop
  | none => List.Forall₂ (fun part term => Begins part first candidate term) parts terms
  | some beyond => candidate < beyond ∧ beyond ≤ noMoreDocs ∧
      (∃ part ∈ parts, Covers (Posting.docs part.postings) candidate beyond) ∧
      List.Forall₂ (fun part term => Follows part first candidate term) parts terms

theorem align_yields {low : DocId} (steps : Nat)
    (follow : List.Forall₂ (fun part term => Follows part first low term) parts terms)
    (le : low ≤ candidate) (real : IsReal candidate) :
    (align candidate steps terms).Yields fun answer after => Aligned parts first candidate after answer := by
  induction follow with
  | nil => exact ⟨none, [], rfl, .nil⟩
  | @cons part term parts terms head tail ih =>
    obtain ⟨landing, postings, same, lands, opened⟩ :=
      follow_yields (if term.jumps then 0 else steps) head.2 part.positioned.toAccepted le real
    have begins : Begins part first landing { term with postings } := ⟨opened, head.1⟩
    simp only [align, same]
    split
    next overshot =>
      have inside := part.positioned.landing_le lands
      exact ⟨some landing, _, rfl, overshot, inside, ⟨part, List.mem_cons_self, lands.covers⟩,
        .cons (begins.follows lands.covers) (tail.imp fun _ _ follows => follows.mono le)⟩
    next level =>
      have here : landing = candidate := le_antisymm (not_lt.mp level) lands.reached
      subst here
      refine Step.Yields.within (ih.mono fun answer after aligned => ?_)
      cases answer with
      | none => exact .cons begins aligned
      | some beyond =>
        obtain ⟨further, inside, ⟨other, member, covers⟩, follow⟩ := aligned
        exact ⟨further, inside, ⟨other, List.mem_cons_of_mem part member, covers⟩,
          .cons (begins.follows lands.covers) follow⟩

variable {lead : PhrasePart} {followers : List PhrasePart} {relevance : Relevance S}

theorem docs_subset (parts : List PhrasePart) (first : Int) : docs parts first ⊆ commonDocs parts :=
  Finset.filter_subset _ _

structure Proposes (lead : PhrasePart) (followers : List PhrasePart) (first : Int)
    (relevance : Relevance S) (candidate : DocId) (phrase : ExactPhrase P S) : Prop where
  lead : Begins lead first candidate phrase.lead
  followers : List.Forall₂ (fun part term => Follows part first candidate term) followers phrase.followers
  relevance : phrase.relevance = relevance
  size : 1 ≤ phrase.chunkSize
  complete : phrase.lacksTerm = false

structure Sound (lead : PhrasePart) (followers : List PhrasePart) (first : Int)
    (relevance : Relevance S) (phrase : ExactPhrase P S) : Prop where
  place : phrase.doc = unpositioned ∨ phrase.doc ∈ docs (lead :: followers) first ∨
    phrase.doc = noMoreDocs
  freq : phrase.doc ∈ docs (lead :: followers) first →
    phrase.freq = (occurrences (lead :: followers) first phrase.doc).card
  relevance : phrase.relevance = relevance
  size : 1 ≤ phrase.chunkSize
  lacking : phrase.lacksTerm = true → docs (lead :: followers) first = ∅
  ready : phrase.doc ≠ noMoreDocs → phrase.lacksTerm = false →
    On StandsAt lead first phrase.doc phrase.lead ∧
      List.Forall₂ (fun part term => Follows part first (phrase.doc + 1) term) followers phrase.followers

theorem exhaust_yields {low : DocId} {phrase : ExactPhrase P S}
    (covers : Covers (docs (lead :: followers) first) low noMoreDocs) (inside : low ≤ noMoreDocs)
    (relevanceSame : phrase.relevance = relevance) (size : 1 ≤ phrase.chunkSize)
    (lacking : phrase.lacksTerm = true → docs (lead :: followers) first = ∅) :
    phrase.exhaust.Yields fun landing after =>
      (after.doc = landing ∧ Lands (docs (lead :: followers) first) low landing) ∧
        Sound lead followers first relevance after := by
  refine ⟨noMoreDocs, _, rfl, ⟨rfl, covers.lands inside (.inr rfl)⟩, .inr (.inr rfl), fun member => ?_,
    relevanceSame, size, lacking, fun live => absurd rfl live⟩
  have real := (mem_commonDocs.mp (docs_subset _ _ member)).1
  exact absurd rfl real.ne_noMoreDocs

theorem count_decides {stands : List Posting → P → PostingPlace → Prop} {failing : Prop}
    (standing : Standing stands failing) (least : IsFirst (lead :: followers) first) (several : followers ≠ [])
    (real : IsReal candidate) (phrase : ExactPhrase P S) (leadFresh : Fresh stands lead first candidate phrase.lead)
    (fresh : List.Forall₂ (fun part term => Fresh stands part first candidate term) followers phrase.followers)
    (size : 1 ≤ phrase.chunkSize) :
    phrase.count.Tries
      (fun freq after => freq = (occurrences (lead :: followers) first candidate).card ∧
        (0 < freq ↔ candidate ∈ docs (lead :: followers) first) ∧
        Counted stands lead followers first candidate phrase after)
      fun after => failing ∧ Counted stands lead followers first candidate phrase after := by
  have counts := count_tries standing least several real leadFresh fresh size
  refine counts.mono (fun freq after both => ⟨both.1, ?_, both.2⟩) fun _ stopped => stopped
  have common : candidate ∈ commonDocs (lead :: followers) := by
    refine mem_commonDocs.mpr ⟨real, fun part member => ?_⟩
    rcases List.mem_cons.mp member with same | later
    · exact same ▸ leadFresh.mem_docs
    · obtain ⟨term, -, partner⟩ := exists_partner fresh later
      exact partner.mem_docs
  rw [both.1, Finset.card_pos, docs, Finset.mem_filter]
  exact (and_iff_right common).symm

theorem lead_proposes {low : DocId} {phrase : ExactPhrase P S} {move : P → Step P DocId}
    (offset : phrase.lead.offset = first - lead.position)
    (moves : (move phrase.lead.postings).Yields fun landing after =>
      Lands (Posting.docs lead.postings) low landing ∧ Opened lead.postings landing after)
    (follow : List.Forall₂ (fun part term => Follows part first low term) followers phrase.followers)
    (relevanceSame : phrase.relevance = relevance) (size : 1 ≤ phrase.chunkSize)
    (complete : phrase.lacksTerm = false) :
    (phrase.moveLead move).Yields fun landing after =>
      Lands (Posting.docs lead.postings) low landing ∧ landing ≤ noMoreDocs ∧
        Proposes lead followers first relevance landing after := by
  refine Step.Yields.within (moves.mono fun landing postings moved => ?_)
  obtain ⟨lands, opened⟩ := moved
  exact ⟨lands, lead.positioned.landing_le lands, ⟨opened, offset⟩,
    follow.imp fun _ _ follows => follows.mono lands.reached, relevanceSame, size, complete⟩

theorem Proposes.meet_or_jump {phrase : ExactPhrase P S}
    (proposes : Proposes lead followers first relevance candidate phrase) (real : IsReal candidate) :
    (∃ swept, align candidate phrase.steps phrase.followers = (.ok none, swept) ∧
      List.Forall₂ (fun part term => Begins part first candidate term) followers swept) ∨
    ∃ beyond swept, align candidate phrase.steps phrase.followers = (.ok (some beyond), swept) ∧
      candidate < beyond ∧ (∃ part ∈ followers, Covers (Posting.docs part.postings) candidate beyond) ∧
      ({ phrase with followers := swept }.moveLead (Cursor.advance · beyond)).Yields fun landing after =>
        Lands (Posting.docs lead.postings) beyond landing ∧ landing ≤ noMoreDocs ∧
          Proposes lead followers first relevance landing after := by
  obtain ⟨answer, swept, same, aligned⟩ := align_yields phrase.steps proposes.followers le_rfl real
  cases answer with
  | none => exact .inl ⟨swept, same, aligned⟩
  | some beyond =>
    obtain ⟨further, inside, passed, follow⟩ := aligned
    obtain ⟨place, stands⟩ := proposes.lead.1.standsAt
    have here : place.doc = candidate := stands.doc.symm.trans proposes.lead.1.doc
    refine .inr ⟨beyond, swept, same, further, passed, lead_proposes proposes.lead.2 ?_
      (follow.imp fun _ _ follows => follows.mono further.le) proposes.relevance proposes.size proposes.complete⟩
    exact stands.advance lead.positioned.toAccepted (here ▸ further) inside

structure Judged (lead : PhrasePart) (followers : List PhrasePart) (first : Int) (relevance : Relevance S)
    (candidate : DocId) (phrase : ExactPhrase P S) : Prop where
  doc : phrase.doc = candidate
  freq : phrase.freq = (occurrences (lead :: followers) first candidate).card
  isDoc : 0 < phrase.freq ↔ candidate ∈ docs (lead :: followers) first
  lead : On StandsAt lead first candidate phrase.lead
  followers : List.Forall₂ (fun part term => Follows part first (candidate + 1) term) followers phrase.followers
  relevance : phrase.relevance = relevance
  size : 1 ≤ phrase.chunkSize
  complete : phrase.lacksTerm = false

theorem Proposes.judges {phrase : ExactPhrase P S} {swept : List (ExactTerm P)}
    (proposes : Proposes lead followers first relevance candidate phrase)
    (least : IsFirst (lead :: followers) first) (several : followers ≠ []) (real : IsReal candidate)
    (meet : List.Forall₂ (fun part term => Begins part first candidate term) followers swept) :
    { phrase with followers := swept, doc := candidate }.count.Yields fun freq counted =>
      Judged lead followers first relevance candidate { counted with freq } := by
  have live := real.ne_noMoreDocs
  have decides := count_decides standing_standsAt least several real
    { phrase with followers := swept, doc := candidate } (proposes.lead.fresh live)
    (meet.imp fun _ _ begins => begins.fresh live) proposes.size
  refine (decides.yields fun _ never => never.1).mono fun freq counted judged => ?_
  obtain ⟨total, isDoc, leadOn, followersOn, chains, frame⟩ := judged
  have sameSize : counted.chunkSize = phrase.chunkSize := by rw [frame]
  have sameLacking : counted.lacksTerm = phrase.lacksTerm := by rw [frame]
  exact {
    doc := congrArg ExactPhrase.doc frame
    freq := total
    isDoc := isDoc
    lead := leadOn
    followers := followersOn.imp fun _ _ on => on.follows (lt_add_one candidate)
    relevance := (congrArg ExactPhrase.relevance frame).trans proposes.relevance
    size := sameSize.symm ▸ proposes.size
    complete := sameLacking.trans proposes.complete }

theorem Judged.sound {phrase : ExactPhrase P S} (judged : Judged lead followers first relevance candidate phrase)
    (found : 0 < phrase.freq) : Sound lead followers first relevance phrase where
  place := .inr (.inl (judged.doc.symm ▸ judged.isDoc.mp found))
  freq _ := judged.doc.symm ▸ judged.freq
  relevance := judged.relevance
  size := judged.size
  lacking lacks := absurd (judged.complete.symm.trans lacks) Bool.false_ne_true
  ready _ _ := judged.doc.symm ▸ ⟨judged.lead, judged.followers⟩

theorem Judged.leaves {phrase : ExactPhrase P S} (judged : Judged lead followers first relevance candidate phrase)
    (real : IsReal candidate) :
    (phrase.moveLead Cursor.next).Yields fun landing after =>
      Lands (Posting.docs lead.postings) (candidate + 1) landing ∧ landing ≤ noMoreDocs ∧
        Proposes lead followers first relevance landing after := by
  obtain ⟨offset, place, stands, here⟩ := judged.lead
  have moves := stands.next lead.positioned.toAccepted (here ▸ real.2)
  rw [here] at moves
  exact lead_proposes offset moves judged.followers judged.relevance judged.size judged.complete

/-- From a proposed document on, settling finds the first document of the phrase. `low` is where the
search began. -/
theorem settle_yields {low : DocId} (least : IsFirst (lead :: followers) first) (several : followers ≠ []) (moves : Nat)
    (phrase : ExactPhrase P S) (proposes : Proposes lead followers first relevance candidate phrase)
    (covers : Covers (docs (lead :: followers) first) low candidate) (reached : low ≤ candidate)
    (nonneg : 0 ≤ candidate) (inside : candidate ≤ noMoreDocs) (enough : noMoreDocs < candidate + moves) :
    (settle moves phrase candidate).Yields fun landing after =>
      (after.doc = landing ∧ Lands (docs (lead :: followers) first) low landing) ∧
        Sound lead followers first relevance after := by
  induction moves generalizing phrase candidate with
  | zero => lia
  | succ moves ih =>
    have lacking : phrase.lacksTerm = true → docs (lead :: followers) first = ∅ := fun lacks =>
      absurd (proposes.complete.symm.trans lacks) Bool.false_ne_true
    unfold settle
    split
    next ended =>
      subst ended
      exact exhaust_yields covers reached proposes.relevance proposes.size lacking
    next live =>
      have real : IsReal candidate := ⟨nonneg, lt_of_le_of_ne inside live⟩
      rcases proposes.meet_or_jump real with
        ⟨swept, same, meet⟩ | ⟨beyond, swept, same, further, ⟨part, member, passed⟩, proposesNext⟩
      · obtain ⟨freq, counted, countSame, judged⟩ := proposes.judges least several real meet
        rw [same]
        simp only [countSame]
        split
        next found =>
          exact ⟨candidate, _, rfl, ⟨judged.doc, covers.lands reached (.inl (judged.isDoc.mp found))⟩,
            judged.sound found⟩
        next none =>
          obtain ⟨landing, after, moved, lands, landingInside, proposesAfter⟩ := judged.leaves real
          simp only [moved]
          have jumped := lands.reached
          -- The candidate is no document of the phrase, so the search goes on behind it.
          have behind := covers.succ fun member => none (judged.isDoc.mpr member)
          exact ih after proposesAfter
            (covers_landing (docs_subset _ first) List.mem_cons_self behind lands.covers) (by lia) (by lia)
            landingInside (by lia)
      · have coversBeyond :=
          covers_landing (docs_subset _ first) (List.mem_cons_of_mem lead member) covers passed
        rw [same]
        dsimp only
        split
        next ended =>
          rw [ended] at coversBeyond
          exact exhaust_yields coversBeyond (reached.trans inside) proposes.relevance proposes.size lacking
        next =>
          obtain ⟨landing, after, moved, lands, landingInside, proposesAfter⟩ := proposesNext
          simp only [moved]
          have jumped := lands.reached
          exact ih after proposesAfter
            (covers_landing (docs_subset _ first) List.mem_cons_self coversBeyond lands.covers) (by lia) (by lia)
            landingInside (by lia)

theorem moveAndSettle_yields {low : DocId} (least : IsFirst (lead :: followers) first) (several : followers ≠ [])
    {phrase : ExactPhrase P S} {move : P → Step P DocId}
    (sound : Sound lead followers first relevance phrase) (live : phrase.doc ≠ noMoreDocs)
    (beyond : phrase.doc < low) (nonneg : 0 ≤ low) (inside : low ≤ noMoreDocs)
    (moves : ∀ place, StandsAt lead.postings phrase.lead.postings place → place.doc = phrase.doc →
      (move phrase.lead.postings).Yields fun landing after =>
        Lands (Posting.docs lead.postings) low landing ∧ Opened lead.postings landing after) :
    (phrase.moveAndSettle move).Yields fun landing after =>
      (after.doc = landing ∧ Lands (docs (lead :: followers) first) low landing) ∧
        Sound lead followers first relevance after := by
  unfold moveAndSettle
  split
  next lacking =>
    refine exhaust_yields (fun doc member _ => ?_) inside sound.relevance sound.size sound.lacking
    rw [sound.lacking lacking] at member
    exact absurd member (Finset.notMem_empty doc)
  next complete =>
    have complete : phrase.lacksTerm = false := by simpa using complete
    obtain ⟨⟨offset, place, stands, here⟩, follow⟩ := sound.ready live complete
    obtain ⟨landing, after, moved, lands, landingInside, proposes⟩ := lead_proposes offset (moves place stands here)
      (follow.imp fun _ _ follows => follows.mono (Int.add_one_le_of_lt beyond)) sound.relevance sound.size complete
    have jumped := lands.reached
    simp only [moved]
    refine settle_yields least several moveLimit after proposes ?_ jumped (nonneg.trans jumped) landingInside ?_
    · intro doc member from_low
      exact lands.first doc ((mem_commonDocs.mp (docs_subset _ _ member)).2 lead List.mem_cons_self) from_low
    · unfold noMoreDocs moveLimit
      lia

variable [Score S]

noncomputable def meaning (parts : List PhrasePart) (first : Int) (relevance : Relevance S) : Meaning S :=
  .leaf (docs parts first) (fun _ member => (mem_commonDocs.mp (docs_subset parts first member)).1)
    fun doc => relevance.score doc (Score.ofNat (occurrences parts first doc).card)

theorem mem_docs {parts : List PhrasePart} (least : IsFirst parts first) {doc : DocId} :
    doc ∈ docs parts first ↔ IsReal doc ∧ ∃ start, OccursAt parts first doc start := by
  rw [docs, Finset.mem_filter, mem_commonDocs, and_assoc]
  refine and_congr_right fun _ => ?_
  constructor
  · rintro ⟨-, start, shared⟩
    exact ⟨start, (mem_occurrences_iff least).mp shared⟩
  · rintro ⟨start, occurs⟩
    refine ⟨fun part member => ?_, start, (mem_occurrences_iff least).mpr occurs⟩
    exact Posting.mem_docs_of_positionsIn (occurs part member)

omit [Score S] in
theorem Sound.le_doc {phrase : ExactPhrase P S} (sound : Sound lead followers first relevance phrase) :
    unpositioned ≤ phrase.doc := by
  rcases sound.place with fresh | member | ended
  · exact fresh.ge
  · exact le_trans (by decide) (mem_commonDocs.mp (docs_subset _ _ member)).1.1
  · rw [ended]
    decide

omit [Score S] in
theorem Sound.lt_noMoreDocs {phrase : ExactPhrase P S} (sound : Sound lead followers first relevance phrase)
    (live : phrase.doc ≠ noMoreDocs) : phrase.doc < noMoreDocs := by
  rcases sound.place with fresh | member | ended
  · rw [fresh]
    decide
  · exact (mem_commonDocs.mp (docs_subset _ _ member)).1.2
  · exact absurd ended live

theorem sound_invariant (least : IsFirst (lead :: followers) first) (several : followers ≠ []) (relevance : Relevance S) :
    Invariant (meaning (lead :: followers) first relevance)
      (Sound (P := P) lead followers first relevance) where
  place phrase sound := sound.place
  next phrase sound live := by
    change phrase.doc ≠ noMoreDocs at live
    have below := sound.lt_noMoreDocs live
    refine moveAndSettle_yields least several sound live (lt_add_one phrase.doc)
      (nonneg_of_unpositioned_lt (Int.lt_add_one_of_le sound.le_doc)) below fun place stands here => ?_
    have yields := stands.next lead.positioned.toAccepted (here ▸ below)
    rwa [here] at yields
  advance phrase target sound beyond inside := by
    change phrase.doc < target at beyond
    refine moveAndSettle_yields least several sound (by lia) beyond
      (nonneg_of_unpositioned_lt (sound.le_doc.trans_lt beyond)) inside fun place stands here => ?_
    exact stands.advance lead.positioned.toAccepted (here ▸ beyond) inside
  score phrase sound member := by
    refine ⟨_, phrase, rfl, ⟨?_, rfl⟩, sound⟩
    change phrase.relevance.score phrase.doc (Score.ofNat phrase.freq) = _
    rw [sound.relevance, sound.freq member]
    rfl
  tally phrase sound member := by
    refine ⟨_, phrase, rfl, ⟨?_, rfl⟩, sound⟩
    change (phrase.relevance.score phrase.doc (Score.ofNat phrase.freq), 0) = _
    rw [sound.relevance, sound.freq member]
    rfl
  count _ _ _ := rfl

omit [Score S] in
theorem docs_perm {parts others : List PhrasePart} (perm : parts.Perm others) (first : Int) :
    docs parts first = docs others first := by
  simp only [docs, commonDocs_perm perm, occurrences_perm perm]

theorem meaning_perm {parts others : List PhrasePart} (perm : parts.Perm others) (first : Int)
    (relevance : Relevance S) : meaning parts first relevance = meaning others first relevance := by
  simp only [meaning, docs_perm perm, occurrences_perm perm]

omit [Score S] in
theorem place_eq {terms : List (ExactTerm P)}
    (fresh : List.Forall₂ (fun part (term : ExactTerm P) => term.offset = first - part.position ∧
      StandsAt part.postings term.postings .unplaced) parts terms) :
    ∃ after lacking, place terms = .ok (after, lacking) ∧
      (lacking = true → ∃ part ∈ parts, Posting.docs part.postings = ∅) ∧
      (lacking = false → List.Forall₂ (fun part term => Follows part first 0 term) parts after) := by
  induction fresh with
  | nil => exact ⟨[], false, rfl, by simp, fun _ => .nil⟩
  | @cons part term parts terms head _ ih =>
    obtain ⟨landing, postings, same, lands, opened⟩ := head.2.next part.positioned.toAccepted (by decide)
    change Lands (Posting.docs part.postings) 0 landing at lands
    simp only [place, same]
    split
    next ended =>
      subst ended
      refine ⟨_, _, rfl, fun _ => ⟨part, List.mem_cons_self, Finset.eq_empty_of_forall_notMem fun doc member => ?_⟩,
        nofun⟩
      obtain ⟨posting, listed, here⟩ := Posting.mem_docs.mp member
      have real := part.positioned.real listed
      rw [here] at real
      exact absurd (lands.first doc member real.1) (not_le.mpr real.2)
    next =>
      obtain ⟨after, lacking, rest, lacks, follow⟩ := ih
      refine ⟨{ term with postings } :: after, lacking, by rw [rest]; rfl, fun some => ?_, fun none => ?_⟩
      · obtain ⟨other, member, empty⟩ := lacks some
        exact ⟨other, List.mem_cons_of_mem part member, empty⟩
      · have begins : Begins part first landing { term with postings } := ⟨opened, head.1⟩
        exact .cons (begins.follows lands.covers) (follow none)

omit [Score S] in
theorem one_le_chunkSize {settings : Settings} (valid : settings.validate = .ok ()) :
    1 ≤ settings.phraseChunkSize.toNat := by
  unfold Settings.validate at valid
  split at valid
  next => cases valid
  next unrefused =>
    unfold Settings.refusal at unrefused
    split at unrefused
    · cases unrefused
    · split at unrefused
      · cases unrefused
      · split at unrefused
        · cases unrefused
        · rename_i inRange
          refine Nat.one_le_iff_ne_zero.mpr fun zero => inRange (.inl ?_)
          exact UInt64.toNat_inj.mp zero

def prepare (first : Int) (bound : UInt64) (term : PhraseTerm P) : ExactTerm P :=
  ⟨term.postings, first - term.position, bound < Cursor.cost term.postings, 0, 0, -1⟩

omit [PostingSource P] in
theorem foldl_position_eq {parts : List PhrasePart} {terms : List (PhraseTerm P)}
    (same : List.Forall₂ (fun part term => term.position = part.position) parts terms) (start : Int) :
    terms.foldl (fun least term => min least term.position) start =
      parts.foldl (fun least part => min least part.position) start := by
  induction same generalizing start with
  | nil => rfl
  | cons position _ ih => rw [List.foldl_cons, List.foldl_cons, position, ih]

omit [Score S] in
theorem ofTerms_eq {terms followerTerms : List (PhraseTerm P)} {leadTerm : PhraseTerm P} {relevance : Relevance S}
    {settings : Settings} (valid : settings.validate = .ok ()) (unrefused : PhraseTerm.refusal terms = none)
    (arranged : PhraseTerm.arrange terms = leadTerm :: followerTerms)
    (leastPlace : followerTerms.foldl (fun least term => min least term.position) leadTerm.position = first) :
    ∃ bound, ofTerms terms relevance settings =
      (place (followerTerms.map (prepare first bound))).bind fun placed => .ok {
        lead := prepare first bound leadTerm, followers := placed.1, relevance
        chunkSize := settings.phraseChunkSize.toNat, chains := .empty, steps := settings.phraseMaxNextCalls.toNat - 1
        doc := unpositioned, freq := 0, lacksTerm := placed.2 } := by
  subst leastPlace
  refine ⟨boundedProduct (Cursor.cost leadTerm.postings) settings.phraseAdvanceRatio, ?_⟩
  unfold ofTerms
  rw [valid, unrefused, arranged]
  rfl

omit [Score S] in
theorem unrefused_of_made {terms : List (PhraseTerm P)} {relevance : Relevance S} {settings : Settings}
    {phrase : ExactPhrase P S} (made : ofTerms terms relevance settings = .ok phrase) :
    settings.validate = .ok () ∧ PhraseTerm.refusal terms = none := by
  unfold ofTerms at made
  cases valid : settings.validate with
  | error failure =>
    rw [valid] at made
    cases made
  | ok =>
    cases refused : PhraseTerm.refusal terms with
    | some why =>
      rw [valid, refused] at made
      cases made
    | none => exact ⟨rfl, rfl⟩

omit [Score S] in
theorem ofTerms_sound {parts : List PhrasePart} {terms : List (PhraseTerm P)} (makes : Makes parts terms)
    (relevance : Relevance S) {settings : Settings} (valid : settings.validate = .ok ()) :
    ∃ lead followers first phrase, (lead :: followers).Perm parts ∧ followers ≠ [] ∧
      IsFirst (lead :: followers) first ∧ ofTerms terms relevance settings = .ok phrase ∧ phrase.doc = unpositioned ∧
      Sound lead followers first relevance phrase := by
  obtain ⟨lead, followers, leadTerm, followerTerms, perm, several, arranged, leads, follow⟩ :=
    arrange_cons makes.describe makes.refusal_eq_none
  have leastPlace := foldl_position_eq (follow.imp fun _ _ describes => describes.position) leadTerm.position
  rw [leads.position] at leastPlace
  have least := isFirst_foldl lead followers
  generalize followers.foldl (fun least part => min least part.position) lead.position = first at least leastPlace
  rw [← leads.position] at leastPlace
  obtain ⟨bound, made⟩ := ofTerms_eq valid makes.refusal_eq_none arranged leastPlace
  have fresh : List.Forall₂ (fun part (term : ExactTerm P) => term.offset = first - part.position ∧
      StandsAt part.postings term.postings .unplaced) followers (followerTerms.map (prepare first bound)) := by
    rw [List.forall₂_map_right_iff]
    exact follow.imp fun part term describes => ⟨by rw [← describes.position]; rfl, describes.stands⟩
  obtain ⟨after, lacking, placed, lacks, trailing⟩ := place_eq fresh
  rw [placed] at made
  have nowhere : unpositioned ∉ docs (lead :: followers) first := fun member =>
    absurd (mem_commonDocs.mp (docs_subset _ _ member)).1 (by decide)
  refine ⟨lead, followers, first, _, perm, several, least, made, rfl,
    ⟨.inl rfl, fun member => absurd member nowhere, rfl, one_le_chunkSize valid, fun some => ?_,
      fun _ none => ⟨⟨?_, .unplaced, leads.stands, rfl⟩, trailing none⟩⟩⟩
  · obtain ⟨part, member, empty⟩ := lacks some
    refine Finset.eq_empty_of_forall_notMem fun doc listed => ?_
    have has := (mem_commonDocs.mp (docs_subset _ _ listed)).2 part (List.mem_cons_of_mem lead member)
    rw [empty] at has
    exact absurd has (Finset.notMem_empty doc)
  · change first - leadTerm.position = first - lead.position
    rw [leads.position]

theorem ofTerms_denotes {parts : List PhrasePart} {terms : List (PhraseTerm P)} (makes : Makes parts terms)
    (relevance : Relevance S) {settings : Settings} (valid : settings.validate = .ok ()) :
    ∃ first phrase, IsFirst parts first ∧ ofTerms terms relevance settings = .ok phrase ∧
      Denotes phrase (meaning parts first relevance) := by
  obtain ⟨lead, followers, first, phrase, perm, several, least, made, fresh, sound⟩ :=
    ofTerms_sound makes relevance valid
  refine ⟨first, phrase, (isFirst_perm perm).mp least, made, ?_⟩
  rw [← meaning_perm perm]
  exact .of_invariant (sound_invariant least several relevance) sound fresh

/-- An exact phrase lands on exactly the documents in which it occurs, from wherever a legal walk has led
it. On each of them its frequency is the number of starts that all its terms share. -/
theorem walk_lands_on_occurrences {parts : List PhrasePart} {terms : List (PhraseTerm P)}
    (makes : Makes parts terms) (relevance : Relevance S) {settings : Settings}
    (valid : settings.validate = .ok ()) :
    ∃ first phrase, IsFirst parts first ∧ ofTerms terms relevance settings = .ok phrase ∧
      Cursor.doc phrase = unpositioned ∧
      ∃ docs : Finset DocId, (∀ doc, doc ∈ docs ↔ IsReal doc ∧ ∃ start, OccursAt parts first doc start) ∧
        ∀ state, Reaches phrase state →
          (Cursor.doc state ≠ noMoreDocs →
            (Cursor.next state).Yields (Arrival docs (Cursor.doc state + 1))) ∧
          (∀ target, Cursor.doc state < target → target ≤ noMoreDocs →
            (Cursor.advance state target).Yields (Arrival docs target)) ∧
          (IsReal (Cursor.doc state) →
            state.freq = {start | OccursAt parts first (Cursor.doc state) start}.ncard) := by
  obtain ⟨lead, followers, first, phrase, perm, several, least, made, fresh, sound⟩ :=
    ofTerms_sound makes relevance valid
  have leastAll := (isFirst_perm perm).mp least
  have invariant := sound_invariant (P := P) least several relevance
  have denotes := Denotes.of_invariant invariant sound fresh
  refine ⟨first, phrase, leastAll, made, fresh, docs (lead :: followers) first, fun doc => ?_,
    fun state reached => ?_⟩
  · rw [docs_perm perm, mem_docs leastAll]
  · have behaves := denotes.refines state reached
    have soundState := invariant.holds_of_reaches sound reached
    refine ⟨behaves.next, behaves.advance, fun real => ?_⟩
    have member := invariant.member_of_real soundState real
    have same : {start | OccursAt parts first (Cursor.doc state) start} =
        (occurrences parts first (Cursor.doc state) : Set Int) := by
      ext start
      exact (mem_occurrences_iff leastAll).symm
    rw [same, Set.ncard_coe_finset, ← occurrences_perm perm]
    exact soundState.freq member

/-- Two terms, the second one place behind the first. They meet in document 4, and only apart in 2. -/
theorem adjacent_terms_meet :
    ∃ phrase after : ExactPhrase PostingList Float32,
      ofTerms [⟨.fresh [⟨2, 2, [0, 7]⟩, ⟨4, 3, [1, 5, 8]⟩], 3, none⟩,
        ⟨.fresh [⟨2, 1, [9]⟩, ⟨4, 2, [2, 9]⟩], 4, none⟩] (.constant Score.one Score.one)
        { Settings.standard with phraseChunkSize := 1 } = .ok phrase ∧
      Cursor.next phrase = (.ok 4, after) ∧ after.freq = 2 := by
  let early : PhrasePart := ⟨[⟨2, 2, [0, 7]⟩, ⟨4, 3, [1, 5, 8]⟩], 3, ⟨⟨rfl, by decide⟩, by decide⟩⟩
  let late : PhrasePart := ⟨[⟨2, 1, [9]⟩, ⟨4, 2, [2, 9]⟩], 4, ⟨⟨rfl, by decide⟩, by decide⟩⟩
  have makes : Makes [early, late]
      [⟨(.fresh early.postings : PostingList), 3, none⟩, ⟨.fresh late.postings, 4, none⟩] :=
    ⟨.cons ⟨PostingList.standsAt rfl, rfl⟩ (.cons ⟨PostingList.standsAt rfl, rfl⟩ .nil), by decide,
      by simp [early, late]⟩
  obtain ⟨first, phrase, least, made, fresh, docs, mem, walk⟩ := walk_lands_on_occurrences (S := Float32) makes
    (.constant Score.one Score.one)
    (show Settings.validate { Settings.standard with phraseChunkSize := 1 } = .ok () from rfl)
  have three : first = 3 := by
    refine least.unique ⟨⟨early, by simp, rfl⟩, ?_⟩
    rintro _ ⟨part, member, rfl⟩
    simp only [List.mem_cons, List.not_mem_nil, or_false] at member
    rcases member with rfl | rfl
    all_goals decide
  subst three
  obtain ⟨landing, after, answer, here, lands⟩ := (walk phrase .refl).1 (by rw [fresh]; decide)
  have occurs : ∀ start, OccursAt [early, late] 3 4 start ↔ start = 1 ∨ start = 8 := by
    intro start
    simp [OccursAt, early, late, Posting.positionsIn]
    lia
  have nowhere : ∀ doc, doc ≠ 4 → doc ∉ docs := by
    intro doc other member
    obtain ⟨-, start, both⟩ := (mem doc).mp member
    have first := both early (by simp)
    by_cases two : doc = 2
    · subst two
      have second := both late (by simp)
      simp [early, late, Posting.positionsIn] at first second
      lia
    · simp [early, Posting.positionsIn, Ne.symm other, Ne.symm two] at first
  have landed : landing = 4 := by
    have upper := lands.first 4 ((mem 4).mpr ⟨by decide, 1, (occurs 1).mpr (.inl rfl)⟩) (by rw [fresh]; decide)
    rcases lands.place with listed | ended
    · by_contra other
      exact nowhere landing other listed
    · rw [ended] at upper
      exact absurd upper (by decide)
  subst landed
  refine ⟨phrase, after, made, answer, ?_⟩
  have moved := LegalStep.next phrase (by rw [fresh]; decide)
  rw [answer] at moved
  have counted := (walk after (.single moved)).2.2 (by rw [here]; decide)
  rw [counted, here]
  have both : {start | OccursAt [early, late] 3 4 start} = {1, 8} := by
    ext start
    simpa using occurs start
  rw [both, Set.ncard_pair (by decide)]

end ExactPhrase

end PostingQuery
