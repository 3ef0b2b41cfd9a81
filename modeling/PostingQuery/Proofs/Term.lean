import Mathlib
import PostingQuery.Proofs.Posting
import PostingQuery.Scorer.Term

/-!
The scorers that hold no other scorers and match single terms or nothing.
-/

namespace PostingQuery

def Meaning.leaf {S : Type} (docs : Finset DocId) (real : ∀ doc ∈ docs, IsReal doc)
    (value : DocId → S) : Meaning S where
  docs := docs
  real := real
  scores doc answer := answer = value doc
  tallies doc answer := answer = (value doc, 0)
  counts _ count := count = 1

def Posting.freqIn (postings : List Posting) (doc : DocId) : Int :=
  ((postings.find? fun posting => posting.doc == doc).map (·.freq)).getD 0

theorem Posting.Accepted.freqIn_eq {postings : List Posting} (accepted : Accepted postings)
    {posting : Posting} (member : posting ∈ postings) :
    freqIn postings posting.doc = posting.freq := by
  rw [freqIn, accepted.find?_doc member]
  rfl

namespace TermScorer

variable {P S : Type} [PostingSource P] [Score S]

def meaning {postings : List Posting} (accepted : Posting.Accepted postings)
    (relevance : Relevance S) : Meaning S :=
  .leaf (Posting.docs postings)
    (fun doc member => by
      obtain ⟨posting, listed, same⟩ := Posting.mem_docs.mp member
      exact same ▸ accepted.real listed)
    fun doc => relevance.score doc (Score.ofInt (Posting.freqIn postings doc))

def Sound (postings : List Posting) (relevance : Relevance S) (term : TermScorer P S) : Prop :=
  term.relevance = relevance ∧ ∃ place, StandsAt postings term.postings place

variable {postings : List Posting} {relevance : Relevance S}

theorem Sound.scored {term : TermScorer P S} (sound : Sound postings relevance term)
    (accepted : Posting.Accepted postings) (member : Cursor.doc term ∈ Posting.docs postings) :
    term.score = (.ok (relevance.score (Cursor.doc term)
      (Score.ofInt (Posting.freqIn postings (Cursor.doc term)))), term) := by
  obtain ⟨relevanceSame, place, stands⟩ := sound
  have here : Cursor.doc term = place.doc := stands.doc
  have real : IsReal place.doc := here ▸ (meaning accepted relevance).real _ member
  obtain ⟨posting, listed, unread, rfl⟩ := stands.reading_of_real real
  have freq : term.freq = .ok posting.freq := stands.freq real
  have same : Posting.freqIn postings (Cursor.doc term) = posting.freq :=
    here ▸ accepted.freqIn_eq listed
  rw [score, freq, same, relevanceSame]
  rfl

theorem sound_invariant (accepted : Posting.Accepted postings) (relevance : Relevance S) :
    Invariant (meaning accepted relevance) (Sound (P := P) postings relevance) where
  place term sound := by
    obtain ⟨-, place, stands⟩ := sound
    have here : Cursor.doc term = place.doc := stands.doc
    rw [here]
    exact stands.place_cases
  next term sound live := by
    obtain ⟨relevanceSame, place, stands⟩ := sound
    have here : Cursor.doc term = place.doc := stands.doc
    rw [here] at live ⊢
    obtain ⟨landing, after, same, lands, opened⟩ :=
      stands.next accepted (stands.lt_noMoreDocs accepted live)
    refine ⟨landing, { term with postings := after }, ?_, ⟨opened.doc, lands⟩, relevanceSame,
      opened.standsAt⟩
    exact congrArg (Step.within · fun postings => { term with postings }) same
  advance term target sound beyond inside := by
    obtain ⟨relevanceSame, place, stands⟩ := sound
    have here : Cursor.doc term = place.doc := stands.doc
    rw [here] at beyond
    obtain ⟨landing, after, same, lands, opened⟩ := stands.advance accepted beyond inside
    refine ⟨landing, { term with postings := after }, ?_, ⟨opened.doc, lands⟩, relevanceSame,
      opened.standsAt⟩
    exact congrArg (Step.within · fun postings => { term with postings }) same
  score term sound member :=
    ⟨_, term, sound.scored accepted member, ⟨rfl, rfl⟩, sound⟩
  tally term sound member := by
    have scored := sound.scored accepted member
    exact ⟨_, term, by simp only [Scorer.scoreCounting, scored]; rfl, ⟨rfl, rfl⟩, sound⟩
  count _ _ _ := rfl

theorem denotes (accepted : Posting.Accepted postings) (relevance : Relevance S) {source : P}
    (fresh : StandsAt postings source .unplaced) :
    Denotes (TermScorer.mk source relevance) (meaning accepted relevance) :=
  .of_invariant (sound_invariant accepted relevance) ⟨rfl, .unplaced, fresh⟩ fresh.doc

theorem denotes_of_ofPostings {list : PostingList} (made : PostingList.ofPostings postings = .ok list)
    (accepted : Posting.Accepted postings) (relevance : Relevance S) :
    Denotes (TermScorer.mk list relevance) (meaning accepted relevance) :=
  denotes accepted relevance (PostingList.standsAt made)

end TermScorer

namespace EmptyScorer

variable {S : Type} [Score S]

omit [Score S] in
theorem cursor_doc (scorer : EmptyScorer S) :
    Cursor.doc scorer = unpositioned ∨ Cursor.doc scorer = noMoreDocs := by
  change (if scorer.cursor.exhausted then noMoreDocs else unpositioned) = unpositioned ∨
    (if scorer.cursor.exhausted then noMoreDocs else unpositioned) = noMoreDocs
  split
  next => exact .inr rfl
  next => exact .inl rfl

theorem denotes {meaning : Meaning S} (none : meaning.docs = ∅) :
    Denotes ({} : EmptyScorer S) meaning := by
  have ends : ∀ low : DocId, low ≤ noMoreDocs → Lands meaning.docs low noMoreDocs := fun low inside =>
    ⟨.inr rfl, inside, fun doc member => absurd member (none ▸ Finset.notMem_empty doc)⟩
  have nowhere : ∀ scorer : EmptyScorer S, Cursor.doc scorer ∉ meaning.docs := fun scorer =>
    none ▸ Finset.notMem_empty _
  refine .of_invariant (show Invariant meaning fun _ : EmptyScorer S => True from
    ⟨fun scorer _ => ?_, fun scorer _ live => ?_,
    fun scorer target _ _ inside => ⟨noMoreDocs, ⟨⟨true⟩⟩, rfl, ⟨rfl, ends target inside⟩, trivial⟩,
    fun scorer _ member => absurd member (nowhere scorer),
    fun scorer _ member => absurd member (nowhere scorer),
    fun scorer _ member => absurd member (nowhere scorer)⟩) trivial rfl
  · rcases cursor_doc scorer with fresh | ended
    · exact .inl fresh
    · exact .inr (.inr ended)
  · have fresh := (cursor_doc scorer).resolve_right live
    refine ⟨noMoreDocs, ⟨⟨true⟩⟩, rfl, ⟨rfl, ends _ ?_⟩, trivial⟩
    rw [fresh]
    decide

end EmptyScorer

end PostingQuery
