import Mathlib
import PostingQuery.Proofs.FaultyPostings

/-!
Postings that keep accounts of their readings. For each document there is an account: the frequency that the source
gave on arrival, and how often a position of the document was asked for, with or without success. The contract of a
source allows as many readings as its frequency says. What a phrase does between two documents is the same for both
kinds of phrases: it moves its lead and brings the other terms up to it, so that no term is read twice on one document.
-/

namespace PostingQuery

variable {P : Type} [PostingSource P]

def MovesOn (holds : P → Prop) (move : P → Step P DocId) : Prop :=
  ∀ source, holds source → (move source).Tries
    (fun landing after => holds after ∧ Cursor.doc after = landing ∧
      (landing = noMoreDocs ∨ Cursor.doc source < landing))
    fun after => holds after ∧ Cursor.doc source ≤ Cursor.doc after

structure OnlyForward (holds : P → Prop) : Prop where
  inside : ∀ source, holds source → Cursor.doc source ≤ noMoreDocs
  next : MovesOn holds Cursor.next
  advance : ∀ target, MovesOn holds (Cursor.advance · target)
  nextPosition : ∀ source, holds source → holds (PostingSource.nextPosition source).2 ∧
    Cursor.doc (PostingSource.nextPosition source).2 = Cursor.doc source

structure Account where
  /-- The frequency in the document, as the source gave it on arrival. -/
  granted : Int
  /-- How often a position of the document was asked for. -/
  reads : Nat
  deriving DecidableEq

def Account.Within (least : Nat) (account : Account) : Prop := account.reads ≤ max account.granted.toNat least

structure Metered (P : Type) where
  source : P
  account : Account
  /-- The accounts of the documents before, the last one first. -/
  past : List Account

namespace Metered

def granted (source : P) : Int :=
  match PostingSource.freq source with
  | .ok freq => freq
  | .error _ => 0

def start (source : P) : Metered P := ⟨source, ⟨granted source, 0⟩, []⟩

def accounts (metered : Metered P) : List Account := metered.account :: metered.past

def arrive (metered : Metered P) (source : P) : Metered P :=
  if Cursor.doc source = Cursor.doc metered.source then { metered with source }
  else ⟨source, ⟨granted source, 0⟩, metered.account :: metered.past⟩

def move (run : P → Step P DocId) (metered : Metered P) : Step (Metered P) DocId :=
  (run metered.source).within metered.arrive

/-- Every reading is put on the account, even if it fails. -/
instance : PostingSource (Metered P) where
  doc metered := Cursor.doc metered.source
  next := move Cursor.next
  advance metered target := metered.move (Cursor.advance · target)
  cost metered := Cursor.cost metered.source
  freq metered := PostingSource.freq metered.source
  nextPosition metered := (PostingSource.nextPosition metered.source).within fun source =>
    { metered with source, account := { metered.account with reads := metered.account.reads + 1 } }

@[simp]
theorem doc_eq (metered : Metered P) : Cursor.doc metered = Cursor.doc metered.source := rfl

def Fresh (metered : Metered P) : Prop := metered.account = ⟨granted metered.source, 0⟩

/-- A source that has kept its accounts and may be asked for some more positions of its document. -/
structure Affords (holds : P → Prop) (least unread : Nat) (metered : Metered P) : Prop where
  holds : holds metered.source
  present : metered.account.reads + unread ≤ max metered.account.granted.toNat least
  past : ∀ account ∈ metered.past, account.Within least

structure Spends (holds : P → Prop) (least : Nat) (region : DocId → Prop) (unread : Nat) (metered : Metered P) : Prop
    extends Affords holds least unread metered where
  stands : region (Cursor.doc metered)

structure Ready (holds : P → Prop) (least : Nat) (region : DocId → Prop) (metered : Metered P) : Prop
    extends Spends holds least region 0 metered where
  fresh : metered.Fresh

structure Untapped (holds : P → Prop) (least : Nat) (low : DocId) (metered : Metered P) : Prop where
  affords : Affords holds least 0 metered
  fresh : low ≤ Cursor.doc metered → Cursor.doc metered ≠ noMoreDocs → metered.Fresh

structure Landed (holds : P → Prop) (least : Nat) (landing : DocId) (metered : Metered P) : Prop where
  affords : Affords holds least 0 metered
  doc : Cursor.doc metered = landing
  fresh : landing ≠ noMoreDocs → metered.Fresh

variable {holds : P → Prop} {least unread : Nat} {region : DocId → Prop} {low candidate landing : DocId}
  {metered : Metered P}

omit [PostingSource P] in
theorem Affords.within (affords : Affords holds least unread metered) :
    ∀ account ∈ metered.accounts, account.Within least :=
  List.forall_mem_cons.mpr ⟨(Nat.le_add_right _ _).trans affords.present, affords.past⟩

omit [PostingSource P] in
theorem Affords.mono {fewer : Nat} (affords : Affords holds least unread metered) (le : fewer ≤ unread) :
    Affords holds least fewer metered where
  holds := affords.holds
  present := (Nat.add_le_add_left le _).trans affords.present
  past := affords.past

theorem Spends.mono {fewer : Nat} (spends : Spends holds least region unread metered) (le : fewer ≤ unread) :
    Spends holds least region fewer metered :=
  ⟨spends.toAffords.mono le, spends.stands⟩

theorem Spends.nextPosition (forward : OnlyForward holds) (spends : Spends holds least region (unread + 1) metered) :
    Spends holds least region unread (PostingSource.nextPosition metered).2 := by
  obtain ⟨after, stays⟩ := forward.nextPosition metered.source spends.holds
  have present := spends.present
  refine ⟨⟨after, ?_, spends.past⟩, ?_⟩
  · change metered.account.reads + 1 + unread ≤ max metered.account.granted.toNat least
    lia
  · change region (Cursor.doc (PostingSource.nextPosition metered.source).2)
    exact stays ▸ spends.stands

theorem Ready.grant (ready : Ready holds least region metered) {freq : Int}
    (told : PostingSource.freq metered = .ok freq) : Spends holds least region (max freq.toNat least) metered := by
  have same : granted metered.source = freq := by
    change PostingSource.freq metered.source = .ok freq at told
    rw [granted, told]
  refine ⟨⟨ready.holds, ?_, ready.past⟩, ready.stands⟩
  rw [ready.fresh, same, Nat.zero_add]

theorem fresh_start (source : P) : (start source).Fresh := rfl

theorem affords_start {source : P} (here : holds source) : Affords holds least 0 (start source) where
  holds := here
  present := Nat.zero_le _
  past := fun _ member => absurd member List.not_mem_nil

section Moves

theorem Affords.arrive (affords : Affords holds least 0 metered) {source : P} (here : holds source) :
    Affords holds least 0 (metered.arrive source) := by
  unfold Metered.arrive
  split
  next => exact ⟨here, affords.present, affords.past⟩
  next => exact ⟨here, Nat.zero_le _, affords.within⟩

theorem source_arrive (metered : Metered P) (source : P) : (metered.arrive source).source = source := by
  unfold arrive
  split
  next => rfl
  next => rfl

theorem doc_arrive (metered : Metered P) (source : P) : Cursor.doc (metered.arrive source) = Cursor.doc source := by
  rw [doc_eq, source_arrive]

theorem fresh_arrive {source : P} (moved : Cursor.doc source ≠ Cursor.doc metered.source) :
    (metered.arrive source).Fresh := by
  rw [arrive, if_neg moved]
  rfl

theorem Affords.move (affords : Affords holds least 0 metered) {run : P → Step P DocId} (movesOn : MovesOn holds run) :
    (metered.move run).Tries
      (fun landing after => Landed holds least landing after ∧ (landing = noMoreDocs ∨ Cursor.doc metered < landing))
      fun after => Affords holds least 0 after ∧ Cursor.doc metered ≤ Cursor.doc after ∧
        (Cursor.doc metered < Cursor.doc after → after.Fresh) := by
  refine Step.Tries.within ((movesOn metered.source affords.holds).mono (fun landing after told => ?_)
    fun after told => ?_)
  · obtain ⟨here, rfl, further⟩ := told
    refine ⟨⟨affords.arrive here, doc_arrive metered after, fun live => ?_⟩, further⟩
    exact fresh_arrive (further.resolve_left live).ne'
  · obtain ⟨here, notBack⟩ := told
    rw [doc_arrive]
    exact ⟨affords.arrive here, notBack, fun further => fresh_arrive further.ne'⟩

theorem Landed.untapped (landed : Landed holds least landing metered) : Untapped holds least low metered :=
  ⟨landed.affords, fun _ live => landed.fresh (landed.doc ▸ live)⟩

theorem Untapped.mono {higher : DocId} (untapped : Untapped holds least low metered) (le : low ≤ higher) :
    Untapped holds least higher metered :=
  ⟨untapped.affords, fun reached => untapped.fresh (le.trans reached)⟩

theorem Affords.untapped (affords : Affords holds least 0 metered) (behind : Cursor.doc metered < low) :
    Untapped holds least low metered :=
  ⟨affords, fun reached => absurd behind (not_lt.mpr reached)⟩

theorem Untapped.landed (untapped : Untapped holds least low metered) (reached : low ≤ Cursor.doc metered) :
    Landed holds least (Cursor.doc metered) metered :=
  ⟨untapped.affords, rfl, untapped.fresh reached⟩

theorem Landed.ready (landed : Landed holds least landing metered) (here : region landing)
    (live : landing ≠ noMoreDocs) : Ready holds least region metered where
  toAffords := landed.affords
  stands := landed.doc ▸ here
  fresh := landed.fresh live

theorem Untapped.move (untapped : Untapped holds least low metered) (behind : Cursor.doc metered < low)
    {run : P → Step P DocId} (movesOn : MovesOn holds run) :
    (metered.move run).Tries (fun landing after => Landed holds least landing after) (Untapped holds least low) :=
  (untapped.affords.move movesOn).mono (fun _ _ told => told.1) fun _ told =>
    ⟨told.1, fun reached _ => told.2.2 (behind.trans_le reached)⟩

theorem Untapped.reach (forward : OnlyForward holds) (untapped : Untapped holds least candidate metered) :
    (Cursor.reach metered candidate).Tries (fun landing after => Landed holds least landing after)
      (Untapped holds least candidate) := by
  unfold Cursor.reach
  split
  next behind => exact untapped.move behind (forward.advance candidate)
  next reached => exact .inl ⟨_, metered, rfl, untapped.landed (not_lt.mp reached)⟩

end Moves

section Calls

variable {head : Metered P} {rest : Set (Metered P)}

/-- The postings of a phrase between two calls. No follower has read anything beyond the document of the lead. -/
structure Balanced (holds : P → Prop) (least : Nat) (head : Metered P) (rest : Set (Metered P)) : Prop where
  lead : Affords holds least 0 head
  followers : ∀ follower ∈ rest, Untapped holds least (Cursor.doc head + 1) follower

structure LeadLanded (holds : P → Prop) (least : Nat) (candidate : DocId) (head : Metered P)
    (rest : Set (Metered P)) : Prop where
  lead : Landed holds least candidate head
  followers : ∀ follower ∈ rest, Untapped holds least candidate follower

structure Charged (holds : P → Prop) (least : Nat) (candidate : DocId) (head : Metered P)
    (rest : Set (Metered P)) : Prop where
  lead : Spends holds least (· = candidate) 0 head
  followers : ∀ follower ∈ rest, Spends holds least (· ≤ candidate) 0 follower

theorem LeadLanded.balanced (landed : LeadLanded holds least candidate head rest) : Balanced holds least head rest where
  lead := landed.lead.affords
  followers := fun follower member => (landed.followers follower member).mono (by
    rw [landed.lead.doc]
    exact (lt_add_one candidate).le)

theorem Charged.balanced (charged : Charged holds least candidate head rest) : Balanced holds least head rest where
  lead := charged.lead.toAffords
  followers := fun follower member => by
    have read := charged.followers follower member
    refine read.toAffords.untapped ?_
    rw [charged.lead.stands]
    exact Int.lt_add_one_of_le read.stands

theorem Balanced.move (forward : OnlyForward holds) (balanced : Balanced holds least head rest) {run : P → Step P DocId}
    (movesOn : MovesOn holds run) :
    (head.move run).Tries (fun landing after => LeadLanded holds least landing after rest)
      fun after => Balanced holds least after rest := by
  refine (balanced.lead.move movesOn).mono (fun landing after told => ?_) fun after told => ?_
  · refine ⟨told.1, fun follower member => ?_⟩
    have untapped := balanced.followers follower member
    rcases told.2 with ended | further
    · refine ⟨untapped.affords, fun reached live => absurd ?_ live⟩
      exact le_antisymm (forward.inside _ untapped.affords.holds) (ended ▸ reached)
    · exact untapped.mono further
  · exact ⟨told.1, fun follower member => (balanced.followers follower member).mono (by lia)⟩

theorem Balanced.within (balanced : Balanced holds least head rest) :
    (∀ account ∈ head.accounts, account.Within least) ∧
      ∀ follower ∈ rest, ∀ account ∈ follower.accounts, account.Within least :=
  ⟨balanced.lead.within, fun follower member => (balanced.followers follower member).affords.within⟩

end Calls

end Metered

def PhraseTerm.metered (term : PhraseTerm P) : PhraseTerm (Metered P) := { term with postings := .start term.postings }

section Lists

variable {postings : List Posting} {source : P} {place : PostingPlace}

theorem PostingStream.nextPosition_place {stream : PostingStream} (ahead : Ahead postings stream.place stream.ahead) :
    Ahead postings stream.nextPosition.2.place stream.nextPosition.2.ahead ∧
      stream.nextPosition.2.place.doc = stream.place.doc := by
  obtain ⟨place, remaining⟩ := stream
  cases ahead with
  | unplaced => exact ⟨.unplaced, rfl⟩
  | usedUp => exact ⟨.usedUp, rfl⟩
  | reading passed posting unread _ split =>
    cases unread with
    | nil => exact ⟨.reading passed posting [] _ split, rfl⟩
    | cons position unread => exact ⟨.reading passed posting unread _ split, rfl⟩

theorem FaltersAt.nextPosition (falters : FaltersAt postings source place) :
    ∃ after, FaltersAt postings (PostingSource.nextPosition source).2 after ∧ after.doc = place.doc := by
  obtain ⟨stream, holds, rfl, ahead⟩ := falters
  obtain ⟨aheadAfter, same⟩ := stream.nextPosition_place ahead
  have read : Falters (PostingSource.nextPosition source).2 stream ∨
      Falters (PostingSource.nextPosition source).2 stream.nextPosition.2 := by
    rcases faltering_falters.nextPosition source stream holds with
      ⟨outcome, after, moved, answered, streamAnswered, fallen⟩ | ⟨failure, after, answered, left⟩
    · rw [answered, streamAnswered]
      exact .inr fallen
    · rw [answered]
      exact left
  rcases read with stays | moved
  · exact ⟨_, ⟨stream, stays, rfl, ahead⟩, rfl⟩
  · exact ⟨_, ⟨_, moved, rfl, aheadAfter⟩, same⟩

def Listed (source : P) : Prop := ∃ postings place, Posting.Accepted postings ∧ FaltersAt postings source place

theorem Step.Agrees.within {σ τ ω α : Type} {step : Step σ α} {other : Step ω α} {rebuild : σ → τ}
    {related : τ → ω → Prop} {broken : τ → Prop}
    (agrees : step.Agrees (fun state mirror => related (rebuild state) mirror)
      (fun state => broken (rebuild state)) other) :
    (step.within rebuild).Agrees related broken other := by
  rcases agrees with ⟨outcome, state, mirror, rfl, otherSame, holds⟩ | ⟨failure, state, rfl, stopped⟩
  · exact .inl ⟨outcome, rebuild state, mirror, rfl, otherSame, holds⟩
  · exact .inr ⟨failure, rebuild state, rfl, stopped⟩

/-- Keeping accounts changes no answer: a source that answers like a stream or fails still does so. -/
theorem Metered.falters {metered : Metered P} {stream : PostingStream} (falters : Falters metered.source stream) :
    Falters metered stream := by
  obtain ⟨related, faltering, here⟩ := falters
  refine ⟨fun after => related after.source, ⟨?_, ?_, ?_, ?_, ?_⟩, here⟩
  · exact fun metered => faltering.doc metered.source
  · exact fun metered => faltering.freq metered.source
  · refine fun metered stream holds => Step.Agrees.within ?_
    simp only [Strays, source_arrive]
    exact faltering.next metered.source stream holds
  · refine fun metered stream target holds => Step.Agrees.within ?_
    simp only [Strays, source_arrive]
    exact faltering.advance metered.source stream target holds
  · exact fun metered stream holds => Step.Agrees.within (faltering.nextPosition metered.source stream holds)

theorem PostingList.faltering : Faltering PostingList.Shows where
  doc _ _ shows := shows.doc
  freq _ _ shows := .inl shows.freq
  next _ _ shows := .inl ⟨_, _, _, rfl, Prod.ext shows.next.1.symm rfl, shows.next.2⟩
  advance _ _ target shows :=
    .inl ⟨_, _, _, rfl, Prod.ext (shows.advance target).1.symm rfl, (shows.advance target).2⟩
  nextPosition _ _ shows := .inl ⟨_, _, _, rfl, Prod.ext shows.nextPosition.1.symm rfl, shows.nextPosition.2⟩

theorem listed_of_made (accepted : Posting.Accepted postings) {list : PostingList}
    (made : PostingList.ofPostings postings = .ok list) : Listed list := by
  unfold PostingList.ofPostings at made
  split at made
  next => cases made
  next =>
    obtain rfl := Except.ok.inj made
    exact ⟨postings, .unplaced, accepted, _, ⟨_, PostingList.faltering, PostingList.shows_fresh accepted.sorted⟩, rfl,
      .unplaced⟩

theorem Beyond.movesOn {doc landing : DocId} (accepted : Posting.Accepted postings)
    (beyond : Beyond postings doc landing source) :
    Listed source ∧ Cursor.doc source = landing ∧ (landing = noMoreDocs ∨ doc < landing) := by
  obtain ⟨place, falters, same⟩ := beyond.1.faltersAt
  exact ⟨⟨postings, place, accepted, falters⟩, falters.doc.trans same, beyond.2⟩

theorem Travels.movesOn {run : P → Step P DocId}
    (travels : ∀ postings, Posting.Accepted postings → Travels postings run) : MovesOn Listed run := by
  rintro source ⟨postings, place, accepted, falters⟩
  rw [falters.doc]
  refine (travels postings accepted source place falters).mono (fun landing after beyond => beyond.movesOn accepted)
    fun after left => ?_
  rcases left with stays | ⟨landing, beyond⟩
  · exact ⟨⟨postings, place, accepted, stays⟩, stays.doc.ge⟩
  · obtain ⟨listed, same, -⟩ := beyond.movesOn accepted
    exact ⟨listed, same ▸ beyond.le (falters.doc_le accepted)⟩

theorem forward_listed : OnlyForward (Listed (P := P)) where
  inside := by
    rintro source ⟨postings, place, accepted, falters⟩
    rw [falters.doc]
    exact falters.doc_le accepted
  next := Travels.movesOn fun _ accepted => travels_next accepted
  advance target := Travels.movesOn fun _ accepted => travels_advance accepted target
  nextPosition := by
    rintro source ⟨postings, place, accepted, falters⟩
    obtain ⟨after, fallen, same⟩ := falters.nextPosition
    exact ⟨⟨postings, after, accepted, fallen⟩, by rw [fallen.doc, falters.doc, same]⟩

end Lists

end PostingQuery
