import Mathlib
import PostingQuery.Proofs.Faults
import PostingQuery.Proofs.PhraseTerm

/-!
Postings that may fail at any call. A source answers as a posting list does, or it fails: a failed move leaves it
where it was or on a document ahead, and a failed reading leaves it on its document. So a source that has just
arrived on a document has all positions of it unread, whatever failed before.
-/

namespace PostingQuery

section Calls

variable {σ : Type} [Cursor σ]

inductive Called : σ → σ → Prop where
  | next (state : σ) : Called state (Cursor.next state).2
  | advance (state : σ) (target : DocId) : Called state (Cursor.advance state target).2

def Moves (state : σ) (landing : DocId) (after : σ) : Prop :=
  Cursor.next state = (.ok landing, after) ∨ ∃ target, Cursor.advance state target = (.ok landing, after)

theorem moves_next {state : σ} {landing : DocId} (same : (Cursor.next state).1 = .ok landing) :
    Moves state landing (Cursor.next state).2 :=
  .inl (Prod.ext same rfl)

structure Withstands (holds : σ → Prop) (post : DocId → σ → Prop) : Prop where
  next : ∀ state, holds state →
    (Cursor.next state).Tries (fun landing after => post landing after ∧ holds after) holds
  advance : ∀ state target, holds state →
    (Cursor.advance state target).Tries (fun landing after => post landing after ∧ holds after) holds

variable {holds : σ → Prop} {post : DocId → σ → Prop} {state : σ}

omit [Cursor σ] in
theorem Step.Tries.kept {step : Step σ DocId}
    (tries : step.Tries (fun landing after => post landing after ∧ holds after) holds) : holds step.2 := by
  rcases tries with ⟨landing, after, rfl, -, kept⟩ | ⟨failure, after, rfl, kept⟩
  · exact kept
  · exact kept

omit [Cursor σ] in
theorem Step.Tries.post_of_eq {step : Step σ DocId} {landing : DocId} {after : σ}
    (tries : step.Tries (fun landing after => post landing after ∧ holds after) holds)
    (same : step = (.ok landing, after)) : post landing after := by
  rcases tries with ⟨_, _, answered, told, -⟩ | ⟨_, _, failed, -⟩
  · obtain ⟨answer, rfl⟩ := Prod.mk.inj (answered.symm.trans same)
    exact Except.ok.inj answer ▸ told
  · cases failed.symm.trans same

theorem Withstands.holds_of_calls (withstands : Withstands holds post) {start : σ} (here : holds start)
    (calls : Relation.ReflTransGen Called start state) : holds state := by
  induction calls with
  | refl => exact here
  | tail _ call ih =>
    cases call with
    | next => exact (withstands.next _ ih).kept
    | advance target => exact (withstands.advance _ target ih).kept

theorem Withstands.post_of_moves (withstands : Withstands holds post) (here : holds state) {landing : DocId}
    {after : σ} (moves : Moves state landing after) : post landing after := by
  rcases moves with same | ⟨target, same⟩
  · exact (withstands.next state here).post_of_eq same
  · exact (withstands.advance state target here).post_of_eq same

end Calls

variable {P : Type} [PostingSource P]

/-- Where a move that fails leaves a source: where it was, or on one of the postings that lay ahead. -/
def Strays (related : P → PostingStream → Prop) (stream : PostingStream) (source : P) : Prop :=
  related source stream ∨ ∃ rest, rest <:+ stream.ahead ∧ related source (PostingStream.moveTo rest).2

/-- A relation of sources to posting streams that every call preserves, with the same answer unless it fails. -/
structure Faltering (related : P → PostingStream → Prop) : Prop where
  doc : ∀ source stream, related source stream → Cursor.doc source = stream.place.doc
  freq : ∀ source stream, related source stream →
    PostingSource.freq source = stream.freq ∨ ∃ failure, PostingSource.freq source = .error failure
  next : ∀ source stream, related source stream →
    (Cursor.next source).Agrees related (Strays related stream) stream.next
  advance : ∀ source stream target, related source stream →
    (Cursor.advance source target).Agrees related (Strays related stream) (stream.advance target)
  nextPosition : ∀ source stream, related source stream →
    (PostingSource.nextPosition source).Agrees related
      (fun after => related after stream ∨ related after stream.nextPosition.2) stream.nextPosition

def Falters (source : P) (stream : PostingStream) : Prop := ∃ related, Faltering related ∧ related source stream

theorem faltering_falters : Faltering (Falters (P := P)) where
  doc := fun source list ⟨_, faltering, holds⟩ => faltering.doc source list holds
  freq := fun source list ⟨_, faltering, holds⟩ => faltering.freq source list holds
  next := fun source list ⟨related, faltering, holds⟩ =>
    (faltering.next source list holds).mono (fun _ _ after => ⟨related, faltering, after⟩) fun _ strays =>
      strays.imp (fun stays => ⟨related, faltering, stays⟩) fun ⟨rest, suffix, moved⟩ =>
        ⟨rest, suffix, related, faltering, moved⟩
  advance := fun source list target ⟨related, faltering, holds⟩ =>
    (faltering.advance source list target holds).mono (fun _ _ after => ⟨related, faltering, after⟩) fun _ strays =>
      strays.imp (fun stays => ⟨related, faltering, stays⟩) fun ⟨rest, suffix, moved⟩ =>
        ⟨rest, suffix, related, faltering, moved⟩
  nextPosition := fun source list ⟨related, faltering, holds⟩ =>
    (faltering.nextPosition source list holds).mono (fun _ _ after => ⟨related, faltering, after⟩) fun _ left =>
      left.imp (fun stays => ⟨related, faltering, stays⟩) fun moved => ⟨related, faltering, moved⟩

namespace Stumbling

instance : PostingSource (Stumbling PostingList) where
  doc stumbling := Cursor.doc stumbling.scorer
  next := step Cursor.next
  advance stumbling target := step (Cursor.advance · target) stumbling
  cost stumbling := Cursor.cost stumbling.scorer
  freq stumbling := PostingSource.freq stumbling.scorer
  nextPosition := step PostingSource.nextPosition

theorem step_agrees {α : Type} {run : PostingList → Step PostingList α} (stumbling : Stumbling PostingList)
    {stream : PostingStream} {streamed : Step PostingStream α} (shows : stumbling.scorer.Shows stream)
    (alike : (run stumbling.scorer).1 = streamed.1 ∧ (run stumbling.scorer).2.Shows streamed.2) :
    (step run stumbling).Agrees (fun after stream => after.scorer.Shows stream)
      (fun after => after.scorer.Shows stream ∨ after.scorer.Shows streamed.2) streamed := by
  rcases step_cases run stumbling with ⟨same, after⟩ | ⟨⟨failure, failed⟩, after⟩
  · refine .inl ⟨_, _, _, Prod.ext same rfl, Prod.ext alike.1.symm rfl, ?_⟩
    change (step run stumbling).2.scorer.Shows streamed.2
    rw [after]
    exact alike.2
  · refine .inr ⟨failure, _, Prod.ext failed rfl, ?_⟩
    rcases after with moved | stays
    · exact .inr (by rw [moved]; exact alike.2)
    · exact .inl (by rw [stays]; exact shows)

theorem faltering : Faltering fun (stumbling : Stumbling PostingList) stream => stumbling.scorer.Shows stream where
  doc _ _ shows := shows.doc
  freq _ _ shows := .inl shows.freq
  next stumbling _ shows :=
    (step_agrees stumbling shows shows.next).mono (fun _ _ same => same) fun _ left =>
      left.imp_right fun moved => ⟨_, List.suffix_refl _, moved⟩
  advance stumbling _ target shows :=
    (step_agrees stumbling shows (shows.advance target)).mono (fun _ _ same => same) fun _ left =>
      left.imp_right fun moved => ⟨_, List.dropWhile_suffix _, moved⟩
  nextPosition stumbling _ shows := step_agrees stumbling shows shows.nextPosition

end Stumbling

def FaltersAt (postings : List Posting) (source : P) (place : PostingPlace) : Prop :=
  ∃ stream, Falters source stream ∧ stream.place = place ∧ Ahead postings place stream.ahead

def Arrived (postings : List Posting) (landing : DocId) (source : P) : Prop :=
  (landing = noMoreDocs ∧ FaltersAt postings source .usedUp) ∨ Untouched FaltersAt postings landing source

def Beyond (postings : List Posting) (doc landing : DocId) (source : P) : Prop :=
  Arrived postings landing source ∧ (landing = noMoreDocs ∨ doc < landing)

def Travels (postings : List Posting) (move : P → Step P DocId) : Prop :=
  ∀ source place, FaltersAt postings source place →
    (move source).Tries (fun landing after => Beyond postings place.doc landing after)
      fun after => FaltersAt postings after place ∨ ∃ landing, Beyond postings place.doc landing after

/-- A source that has read no position of any document from `low` on. -/
def UnreadFrom (postings : List Posting) (low : DocId) (source : P) : Prop :=
  ∃ place, FaltersAt postings source place ∧ (low ≤ place.doc → Arrived postings place.doc source)

section Moves

variable {postings : List Posting} {source : P} {place : PostingPlace} {low candidate landing : DocId}

theorem FaltersAt.doc (falters : FaltersAt postings source place) : Cursor.doc source = place.doc := by
  obtain ⟨stream, holds, here, -⟩ := falters
  rw [faltering_falters.doc source stream holds, here]

theorem Arrived.faltersAt (arrived : Arrived postings landing source) :
    ∃ place, FaltersAt postings source place ∧ place.doc = landing := by
  rcases arrived with ⟨ended, falters⟩ | ⟨posting, -, here, falters⟩
  · exact ⟨_, falters, ended.symm⟩
  · exact ⟨_, falters, here⟩

theorem Arrived.untouched (arrived : Arrived postings landing source) (live : landing ≠ noMoreDocs) :
    Untouched FaltersAt postings landing source := by
  rcases arrived with ⟨ended, -⟩ | untouched
  · exact absurd ended live
  · exact untouched

theorem Arrived.unreadFrom (arrived : Arrived postings landing source) : UnreadFrom postings low source := by
  obtain ⟨place, falters, rfl⟩ := arrived.faltersAt
  exact ⟨place, falters, fun _ => arrived⟩

theorem Arrived.mem_docs (arrived : Arrived postings landing source) (live : landing ≠ noMoreDocs) :
    landing ∈ Posting.docs postings := by
  obtain ⟨posting, listed, here, -⟩ := arrived.untouched live
  exact Posting.mem_docs.mpr ⟨posting, listed, here⟩

theorem Beyond.le {doc : DocId} (beyond : Beyond postings doc landing source) (inside : doc ≤ noMoreDocs) :
    doc ≤ landing := by
  rcases beyond.2 with ended | further
  · exact ended ▸ inside
  · exact further.le

theorem FaltersAt.unreadFrom (falters : FaltersAt postings source place) (behind : place.doc < low) :
    UnreadFrom postings low source :=
  ⟨place, falters, fun reached => absurd behind (not_lt.mpr reached)⟩

theorem UnreadFrom.mono {higher : DocId} (unread : UnreadFrom postings low source) (le : low ≤ higher) :
    UnreadFrom postings higher source := by
  obtain ⟨place, falters, arrived⟩ := unread
  exact ⟨place, falters, fun reached => arrived (le.trans reached)⟩

theorem FaltersAt.doc_le (falters : FaltersAt postings source place) (accepted : Posting.Accepted postings) :
    place.doc ≤ noMoreDocs := by
  obtain ⟨stream, -, -, ahead⟩ := falters
  generalize stream.ahead = remaining at ahead
  cases ahead with
  | unplaced => decide
  | reading passed posting unread later split => exact (accepted.real (by simp [split])).2.le
  | usedUp => exact le_rfl

theorem beyond_of_moveTo (accepted : Posting.Accepted postings) {stream : PostingStream}
    (ahead : Ahead postings place stream.ahead) {rest : List Posting} (suffix : rest <:+ stream.ahead)
    (falters : Falters source (PostingStream.moveTo rest).2) :
    ∃ landing, (PostingStream.moveTo rest).1 = .ok landing ∧ Beyond postings place.doc landing source ∧
      (landing = noMoreDocs ∨ ∃ posting ∈ rest, posting.doc = landing) := by
  cases rest with
  | nil => exact ⟨noMoreDocs, rfl, ⟨.inl ⟨rfl, _, falters, rfl, .usedUp⟩, .inl rfl⟩, .inl rfl⟩
  | cons posting rest =>
    obtain ⟨skipped, split⟩ := suffix
    have further : place.doc < posting.doc ∧ ∃ passed, postings = passed ++ posting :: rest := by
      generalize stream.ahead = remaining at ahead split
      cases ahead with
      | unplaced =>
        have listed : posting ∈ postings := by simp [← split]
        exact ⟨lt_of_lt_of_le (by decide) (accepted.real listed).1, skipped, split.symm⟩
      | reading passed current unread later whole =>
        have sorted := accepted.sorted
        rw [whole, ← split, List.pairwise_append, List.pairwise_cons] at sorted
        exact ⟨sorted.2.1.1 posting (by simp), passed ++ current :: skipped, by simp [whole, ← split]⟩
      | usedUp => exact absurd split (by simp)
    obtain ⟨beyond, passed, whole⟩ := further
    have arrived : Arrived postings posting.doc source :=
      .inr ⟨posting, by simp [whole], rfl, _, falters, rfl, .reading passed posting _ rest whole⟩
    exact ⟨posting.doc, rfl, ⟨arrived, .inr beyond⟩, .inr ⟨posting, List.mem_cons_self, rfl⟩⟩

theorem tries_of_agrees (accepted : Posting.Accepted postings) {stream : PostingStream} (here : stream.place = place)
    (ahead : Ahead postings place stream.ahead) {rest : List Posting} (suffix : rest <:+ stream.ahead)
    {step : Step P DocId} (agrees : step.Agrees Falters (Strays Falters stream) (PostingStream.moveTo rest)) :
    step.Tries (fun landing after => Beyond postings place.doc landing after ∧
        (landing = noMoreDocs ∨ ∃ posting ∈ rest, posting.doc = landing))
      (fun after => FaltersAt postings after place ∨ ∃ landing, Beyond postings place.doc landing after) := by
  rcases agrees with ⟨outcome, after, moved, same, streamSame, falters⟩ | ⟨failure, after, same, strays⟩
  · have fallen : Falters after (PostingStream.moveTo rest).2 := by rwa [streamSame]
    obtain ⟨landing, answer, beyond⟩ := beyond_of_moveTo accepted ahead suffix fallen
    rw [streamSame] at answer
    exact .inl ⟨landing, after, same.trans (congrArg (·, after) answer), beyond⟩
  · refine .inr ⟨failure, after, same, ?_⟩
    rcases strays with stays | ⟨other, otherSuffix, moved⟩
    · exact .inl ⟨stream, stays, here, ahead⟩
    · obtain ⟨landing, -, beyond, -⟩ := beyond_of_moveTo accepted ahead otherSuffix moved
      exact .inr ⟨landing, beyond⟩

theorem travels_next (accepted : Posting.Accepted postings) : Travels postings (Cursor.next (σ := P)) := by
  rintro source place ⟨stream, holds, here, ahead⟩
  exact (tries_of_agrees accepted here ahead (List.suffix_refl _) (faltering_falters.next source stream holds)).mono
    (fun _ _ both => both.1) fun _ left => left

theorem FaltersAt.advance (falters : FaltersAt postings source place) (accepted : Posting.Accepted postings)
    (target : DocId) :
    (Cursor.advance source target).Tries
      (fun landing after => Beyond postings place.doc landing after ∧ (landing = noMoreDocs ∨ target ≤ landing))
      (fun after => FaltersAt postings after place ∨ ∃ landing, Beyond postings place.doc landing after) := by
  obtain ⟨stream, holds, here, ahead⟩ := falters
  have sorted : stream.ahead.Pairwise fun a b => a.doc < b.doc := by
    have all := accepted.sorted
    generalize stream.ahead = remaining at ahead
    cases ahead with
    | unplaced => exact all
    | reading passed posting unread later whole =>
      rw [whole, List.pairwise_append, List.pairwise_cons] at all
      exact all.2.1.2
    | usedUp => exact .nil
  refine (tries_of_agrees accepted here ahead (List.dropWhile_suffix _)
    (faltering_falters.advance source stream target holds)).mono
      (fun landing after both => ⟨both.1, both.2.imp_right ?_⟩) fun _ left => left
  rintro ⟨posting, member, same⟩
  exact same ▸ le_of_mem_dropWhile sorted member

theorem travels_advance (accepted : Posting.Accepted postings) (target : DocId) :
    Travels postings (Cursor.advance (σ := P) · target) :=
  fun _ _ falters => (falters.advance accepted target).mono (fun _ _ both => both.1) fun _ left => left

theorem UnreadFrom.reach (unread : UnreadFrom postings candidate source) (accepted : Posting.Accepted postings)
    (inside : candidate ≤ noMoreDocs) :
    (Cursor.reach source candidate).Tries (fun landing after => Arrived postings landing after ∧ candidate ≤ landing)
      (UnreadFrom postings candidate) := by
  obtain ⟨place, falters, arrived⟩ := unread
  unfold Cursor.reach
  rw [falters.doc]
  split
  next behind =>
    refine (falters.advance accepted candidate).mono (fun landing after both => ⟨both.1.1, ?_⟩) fun after left => ?_
    · exact both.2.elim (fun ended => ended ▸ inside) id
    · rcases left with stays | ⟨landing, beyond⟩
      · exact stays.unreadFrom behind
      · exact beyond.1.unreadFrom
  next passed => exact .inl ⟨_, source, rfl, arrived (not_lt.mp passed), not_lt.mp passed⟩

end Moves

structure PhrasePart.Promises (part : PhrasePart) (term : PhraseTerm P) : Prop where
  falters : FaltersAt part.postings term.postings .unplaced
  position : term.position = part.position

theorem Stumbling.faltersAt {postings : List Posting} {list : PostingList}
    (made : PostingList.ofPostings postings = .ok list) (script : List (Option Stumble)) :
    FaltersAt postings (⟨list, script⟩ : Stumbling PostingList) .unplaced := by
  unfold PostingList.ofPostings at made
  split at made
  next => cases made
  next unrefused =>
    obtain rfl := Except.ok.inj made
    have sorted := (Posting.pairwise_of_firstRefusal unrefused).2
    exact ⟨_, ⟨_, faltering, PostingList.shows_fresh sorted⟩, rfl, .unplaced⟩

theorem standing_faltersAt : Standing (FaltersAt (P := P)) True where
  freq := by
    rintro postings source posting unread ⟨stream, falters, here, -⟩ -
    rcases faltering_falters.freq source stream falters with same | failed
    · refine .inl (same.trans ?_)
      rw [PostingStream.freq, here]
    · exact .inr ⟨trivial, failed⟩
  nextPosition := by
    rintro postings source posting position unread ⟨stream, falters, here, ahead⟩
    have answered : stream.nextPosition = (.ok position, { stream with place := .reading posting unread }) := by
      rw [PostingStream.nextPosition, here]
    have aheadAfter : Ahead postings (.reading posting unread) stream.ahead := by
      generalize stream.ahead = remaining at ahead
      cases ahead with
      | reading passed _ _ later split => exact .reading passed posting unread _ split
    rcases faltering_falters.nextPosition source stream falters with
      ⟨outcome, after, moved, same, streamSame, fallenAfter⟩ | ⟨failure, after, same, left⟩
    · rw [answered] at streamSame
      obtain ⟨rfl, rfl⟩ := Prod.mk.inj streamSame
      exact .inl ⟨position, after, same, rfl, _, fallenAfter, rfl, aheadAfter⟩
    · refine .inr ⟨failure, after, same, trivial, ?_⟩
      rcases left with stays | moved
      · exact ⟨_, stream, stays, here, ahead⟩
      · rw [answered] at moved
        exact ⟨unread, _, moved, rfl, aheadAfter⟩

end PostingQuery
