import Mathlib
import PostingQuery.Phrase.Term
import PostingQuery.Proofs.Gather
import PostingQuery.Proofs.Posting

/-!
The terms of a phrase. One of them leads from document to document, and the others trail behind it: none
of them has passed a document that is still to be looked at, or read a position of it.
-/

namespace PostingQuery

namespace Posting

structure Positioned (postings : List Posting) : Prop extends Accepted postings where
  placed : ∀ posting ∈ postings, posting.positions ≠ []

structure Counted (postings : List Posting) : Prop extends Accepted postings where
  counted : ∀ posting ∈ postings, posting.freq = posting.positions.length

def positionsIn (postings : List Posting) (doc : DocId) : List Int :=
  ((postings.find? fun posting => posting.doc == doc).map (·.positions)).getD []

variable {postings : List Posting} {posting : Posting}

theorem Accepted.positionsIn_eq (accepted : Accepted postings) (member : posting ∈ postings) :
    positionsIn postings posting.doc = posting.positions := by
  rw [positionsIn, accepted.find?_doc member]
  rfl

theorem mem_docs_of_positionsIn {doc : DocId} {position : Int} (listed : position ∈ positionsIn postings doc) :
    doc ∈ docs postings := by
  rw [positionsIn] at listed
  cases found : postings.find? fun posting => posting.doc == doc with
  | none =>
    rw [found] at listed
    cases listed
  | some posting =>
    have here := List.find?_some found
    exact mem_docs.mpr ⟨posting, List.mem_of_find?_eq_some found, by simpa using here⟩

theorem Positioned.indexes (positioned : Positioned postings) (member : posting ∈ postings) :
    posting.Indexed :=
  positioned.indexed member (positioned.placed posting member)

theorem Positioned.counted (positioned : Positioned postings) : Counted postings :=
  ⟨positioned.toAccepted, fun _ member => (positioned.indexes member).freq⟩

theorem Counted.indexes (counted : Counted postings) (member : posting ∈ postings) : posting.Indexed := by
  by_cases placed : posting.positions = []
  · refine ⟨counted.counted posting member, ?_, ?_⟩
    · rw [placed]
      exact .nil
    · rw [placed]
      exact fun position listed => absurd listed List.not_mem_nil
  · exact counted.indexed member placed

theorem Positioned.bounds (positioned : Positioned postings) (member : posting ∈ postings)
    {position : Int} (listed : position ∈ posting.positions) : 0 ≤ position ∧ position ≤ 2147483647 :=
  ⟨(positioned.indexes member).nonneg position listed, (positioned.fits posting member).2 position listed⟩

end Posting

section Moves

variable {P : Type} [PostingSource P] {postings : List Posting} {source : P} {low : DocId}

structure Lags (postings : List Posting) (low : DocId) (source : P) : Prop where
  stands : ∃ place, StandsAt postings source place
  covers : Covers (Posting.docs postings) low (Cursor.doc source)
  opened : low ≤ Cursor.doc source → Opened postings (Cursor.doc source) source

theorem Lags.mono {higher : DocId} (lags : Lags postings low source) (le : low ≤ higher) :
    Lags postings higher source :=
  ⟨lags.stands, lags.covers.mono le, fun reached => lags.opened (le.trans reached)⟩

theorem StandsAt.lags {place : PostingPlace} (stands : StandsAt postings source place)
    (behind : place.doc < low) : Lags postings low source := by
  have here := stands.doc
  refine ⟨⟨place, stands⟩, Covers.of_le (here ▸ behind.le), fun reached => ?_⟩
  rw [here] at reached
  exact absurd behind (not_lt.mpr reached)

theorem Opened.lags {landing : DocId} (opened : Opened postings landing source)
    (covers : Covers (Posting.docs postings) low landing) : Lags postings low source := by
  have here := opened.doc
  exact ⟨opened.standsAt, here.symm ▸ covers, fun _ => here.symm ▸ opened⟩

theorem Opened.mem_docs {landing : DocId} (opened : Opened postings landing source)
    (live : landing ≠ noMoreDocs) : landing ∈ Posting.docs postings := by
  rcases opened with ⟨ended, -⟩ | ⟨posting, listed, here, -⟩
  · exact absurd ended live
  · exact Posting.mem_docs.mpr ⟨posting, listed, here⟩

theorem Lags.lands {candidate : DocId} (lags : Lags postings low source) (le : low ≤ candidate)
    (nonneg : 0 ≤ candidate) (reached : candidate ≤ Cursor.doc source) :
    Lands (Posting.docs postings) candidate (Cursor.doc source) ∧
      Opened postings (Cursor.doc source) source := by
  obtain ⟨place, stands⟩ := lags.stands
  have here := stands.doc
  refine ⟨(lags.covers.mono le).lands reached ?_, lags.opened (le.trans reached)⟩
  rcases stands.place_cases with fresh | placed
  · rw [here, fresh, unpositioned] at reached
    lia
  · rwa [here]

theorem Posting.Accepted.landing_le (accepted : Posting.Accepted postings) {landing : DocId}
    (lands : Lands (Posting.docs postings) low landing) : landing ≤ noMoreDocs := by
  rcases lands.place with listed | ended
  · obtain ⟨posting, member, here⟩ := Posting.mem_docs.mp listed
    exact here ▸ (accepted.real member).2.le
  · exact ended.le

theorem Lags.reach {candidate : DocId} (lags : Lags postings low source)
    (accepted : Posting.Accepted postings) (le : low ≤ candidate) (real : IsReal candidate) :
    (Cursor.reach source candidate).Yields fun landing after =>
      Lands (Posting.docs postings) candidate landing ∧ Opened postings landing after := by
  unfold Cursor.reach
  split
  next behind =>
    obtain ⟨place, stands⟩ := lags.stands
    exact stands.advance accepted (stands.doc ▸ behind) real.2.le
  next passed => exact ⟨_, source, rfl, lags.lands le real.1 (not_lt.mp passed)⟩

end Moves

section Standing

variable {P : Type} [PostingSource P]

/-- A way of telling where sources stand among their postings. The positions of a document are read one after the
other, unless reading fails. -/
structure Standing (stands : List Posting → P → PostingPlace → Prop) (failing : Prop) : Prop where
  freq : ∀ {postings source posting unread}, stands postings source (.reading posting unread) → IsReal posting.doc →
    PostingSource.freq source = .ok posting.freq ∨
      failing ∧ ∃ failure, PostingSource.freq source = .error failure
  nextPosition : ∀ {postings source posting position unread},
    stands postings source (.reading posting (position :: unread)) →
    (PostingSource.nextPosition source).Tries
      (fun answer after => answer = position ∧ stands postings after (.reading posting unread))
      (fun after => failing ∧ ∃ rest, stands postings after (.reading posting rest))

theorem standing_standsAt : Standing (StandsAt (P := P)) False where
  freq stands real := .inl (stands.freq real)
  nextPosition stands := .inl stands.nextPosition

def Untouched (stands : List Posting → P → PostingPlace → Prop) (postings : List Posting) (doc : DocId) (source : P) :
    Prop :=
  ∃ posting ∈ postings, posting.doc = doc ∧ stands postings source (.reading posting posting.positions)

theorem Opened.untouched {postings : List Posting} {landing : DocId} {source : P}
    (opened : Opened postings landing source) (live : landing ≠ noMoreDocs) :
    Untouched StandsAt postings landing source := by
  rcases opened with ⟨ended, -⟩ | untouched
  · exact absurd ended live
  · exact untouched

end Standing

structure PhrasePart where
  postings : List Posting
  position : Int
  positioned : Posting.Positioned postings

namespace PhrasePart

noncomputable def commonDocs (parts : List PhrasePart) : Finset DocId :=
  allDocs.filter fun doc => ∀ part ∈ parts, doc ∈ Posting.docs part.postings

theorem mem_commonDocs {parts : List PhrasePart} {doc : DocId} :
    doc ∈ commonDocs parts ↔ IsReal doc ∧ ∀ part ∈ parts, doc ∈ Posting.docs part.postings := by
  rw [commonDocs, Finset.mem_filter, mem_allDocs]

theorem covers_landing {parts : List PhrasePart} {docs : Finset DocId} (within : docs ⊆ commonDocs parts)
    {part : PhrasePart} (member : part ∈ parts) {low candidate landing : DocId}
    (covers : Covers docs low candidate)
    (passed : Covers (Posting.docs part.postings) candidate landing) : Covers docs low landing := by
  intro doc listed from_low
  exact passed doc ((mem_commonDocs.mp (within listed)).2 part member) (covers doc listed from_low)

theorem commonDocs_perm {parts others : List PhrasePart} (perm : parts.Perm others) :
    commonDocs parts = commonDocs others := by
  ext doc
  rw [mem_commonDocs, mem_commonDocs]
  exact and_congr_right fun _ => forall_congr' fun part => imp_congr_left perm.mem_iff

structure Describes {P : Type} [PostingSource P] (part : PhrasePart) (term : PhraseTerm P) : Prop where
  stands : StandsAt part.postings term.postings .unplaced
  position : term.position = part.position

structure Makes {P : Type} [PostingSource P] (parts : List PhrasePart) (terms : List (PhraseTerm P)) : Prop where
  describe : List.Forall₂ (fun part term => part.Describes term) parts terms
  several : 2 ≤ parts.length
  nonneg : ∀ part ∈ parts, 0 ≤ part.position

variable {P : Type} [PostingSource P] {parts : List PhrasePart} {terms : List (PhraseTerm P)}

theorem Makes.describes {count : Nat} {parts : Fin count → PhrasePart} {terms : Fin count → PhraseTerm P}
    (makes : Makes (List.ofFn parts) (List.ofFn terms)) (i : Fin count) : (parts i).Describes (terms i) := by
  have each := (List.forall₂_iff_get.mp makes.describe).2 i (by simp) (by simp)
  simpa using each

omit [PostingSource P] in
theorem refusal_eq_none_iff :
    PhraseTerm.refusal terms = none ↔ 2 ≤ terms.length ∧ ∀ term ∈ terms, 0 ≤ term.position := by
  have found : (terms.find? fun term => decide (term.position < 0)) = none ↔ ∀ term ∈ terms, 0 ≤ term.position := by
    rw [List.find?_eq_none]
    simp
  rw [← found, PhraseTerm.refusal]
  by_cases few : terms.length < 2
  · rw [if_pos few]
    exact iff_of_false nofun fun both => absurd few (not_lt.mpr both.1)
  · rw [if_neg few, and_iff_right (not_lt.mp few)]
    cases terms.find? fun term => decide (term.position < 0) with
    | none => exact iff_of_true rfl rfl
    | some term => exact iff_of_false nofun nofun

theorem Makes.refusal_eq_none (makes : Makes parts terms) : PhraseTerm.refusal terms = none := by
  refine refusal_eq_none_iff.mpr ⟨makes.describe.length_eq ▸ makes.several, fun term member => ?_⟩
  obtain ⟨part, listed, describes⟩ := exists_partner makes.describe.flip member
  rw [describes.position]
  exact makes.nonneg part listed

omit [PostingSource P] in
theorem two_le_of_refusal_eq_none (unrefused : PhraseTerm.refusal terms = none) : 2 ≤ terms.length := by
  unfold PhraseTerm.refusal at unrefused
  split at unrefused
  next => cases unrefused
  next enough => exact not_lt.mp enough

theorem arrange_cons {describes : PhrasePart → PhraseTerm P → Prop} (describe : List.Forall₂ describes parts terms)
    (unrefused : PhraseTerm.refusal terms = none) :
    ∃ lead followers leadTerm followerTerms, (lead :: followers).Perm parts ∧ followers ≠ [] ∧
      PhraseTerm.arrange terms = leadTerm :: followerTerms ∧ describes lead leadTerm ∧
      List.Forall₂ describes followers followerTerms := by
  have several : 2 ≤ parts.length := describe.length_eq ▸ two_le_of_refusal_eq_none unrefused
  obtain ⟨order, perm, sorted⟩ := forall₂_sort PhraseTerm.mayLead describe
  change List.Forall₂ _ order (PhraseTerm.arrange terms) at sorted
  generalize PhraseTerm.arrange terms = arranged at sorted
  cases sorted with
  | nil =>
    rw [List.nil_perm.mp perm] at describe
    cases describe
    cases unrefused
  | @cons lead leadTerm followers followerTerms leads follow =>
    refine ⟨lead, followers, leadTerm, followerTerms, perm, fun none => ?_, rfl, leads, follow⟩
    rw [← perm.length_eq, none, List.length_singleton] at several
    exact absurd several (by decide)

end PhrasePart

end PostingQuery
