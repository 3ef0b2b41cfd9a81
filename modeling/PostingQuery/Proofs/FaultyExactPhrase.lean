import Mathlib
import PostingQuery.Proofs.ExactPhrase
import PostingQuery.Proofs.FaultyPostings

/-!
Exact phrases over postings that may fail. As long as a move fails the phrase may stand on a document whose positions
have not been compared, with the number of occurrences of another one. A move that succeeds has compared them.
-/

namespace PostingQuery

variable {P S : Type} [PostingSource P]

namespace ExactTerm

variable {postings : List Posting} {source : P} {part : PhrasePart} {first : Int} {low candidate : DocId}
  {term : ExactTerm P}

theorem follow_tries (steps : Nat) (unread : UnreadFrom postings candidate source)
    (accepted : Posting.Accepted postings) (inside : candidate ≤ noMoreDocs) :
    (follow candidate steps source).Tries (fun landing after => Arrived postings landing after ∧ candidate ≤ landing)
      (UnreadFrom postings candidate) := by
  induction steps generalizing source with
  | zero =>
    have reach := unread.reach accepted inside
    unfold Cursor.reach at reach
    unfold follow
    split at reach
    next behind =>
      rw [if_pos behind]
      exact reach
    next passed =>
      rw [if_neg passed]
      exact reach
  | succ steps ih =>
    obtain ⟨place, falters, arrived⟩ := unread
    unfold follow
    rw [falters.doc]
    split
    next behind =>
      rcases travels_next accepted source place falters with
        ⟨landing, after, same, beyond⟩ | ⟨failure, after, same, left⟩
      · simp only [same]
        exact ih beyond.1.unreadFrom
      · simp only [same]
        refine .inr ⟨failure, after, rfl, ?_⟩
        rcases left with stays | ⟨landing, beyond⟩
        · exact stays.unreadFrom behind
        · exact beyond.1.unreadFrom
    next passed => exact .inl ⟨_, source, rfl, arrived (not_lt.mp passed), not_lt.mp passed⟩

def Behind (part : PhrasePart) (first : Int) (low : DocId) (term : ExactTerm P) : Prop :=
  term.offset = first - part.position ∧ UnreadFrom part.postings low term.postings

def Aboard (part : PhrasePart) (first : Int) (doc : DocId) (term : ExactTerm P) : Prop :=
  term.offset = first - part.position ∧ Arrived part.postings doc term.postings

theorem Behind.mono {higher : DocId} (behind : Behind part first low term) (le : low ≤ higher) :
    Behind part first higher term :=
  ⟨behind.1, behind.2.mono le⟩

theorem Aboard.behind {doc : DocId} (aboard : Aboard part first doc term) : Behind part first low term :=
  ⟨aboard.1, aboard.2.unreadFrom⟩

theorem Aboard.on {doc : DocId} (aboard : Aboard part first doc term) : On FaltersAt part first doc term :=
  ⟨aboard.1, aboard.2.faltersAt⟩

theorem Aboard.fresh {doc : DocId} (aboard : Aboard part first doc term) (live : doc ≠ noMoreDocs) :
    Fresh FaltersAt part first doc term :=
  ⟨aboard.1, aboard.2.untouched live⟩

theorem On.behind {doc : DocId} (on : On FaltersAt part first doc term) (before : doc < low) :
    Behind part first low term := by
  obtain ⟨offset, place, falters, rfl⟩ := on
  exact ⟨offset, falters.unreadFrom before⟩

end ExactTerm

namespace ExactPhrase

open ExactTerm PhrasePart

variable {parts : List PhrasePart} {first : Int} {terms : List (ExactTerm P)} {candidate : DocId}

theorem align_tries (steps : Nat)
    (behind : List.Forall₂ (fun part term => Behind part first candidate term) parts terms)
    (inside : candidate ≤ noMoreDocs) :
    (align candidate steps terms).Tries
      (fun answer after => List.Forall₂ (fun part term => Behind part first candidate term) parts after ∧
        (answer = none → List.Forall₂ (fun part term => Aboard part first candidate term) parts after))
      (fun after => List.Forall₂ (fun part term => Behind part first candidate term) parts after) := by
  induction behind with
  | nil => exact .inl ⟨none, [], rfl, .nil, fun _ => .nil⟩
  | @cons part term parts terms head tail ih =>
    rcases follow_tries (if term.jumps then 0 else steps) head.2 part.positioned.toAccepted inside with
      ⟨landing, postings, same, arrived, reached⟩ | ⟨failure, postings, same, unread⟩
    · simp only [align, same]
      split
      next overshot =>
        exact .inl ⟨some landing, _, rfl, .cons ⟨head.1, arrived.unreadFrom⟩ tail, fun none => by cases none⟩
      next level =>
        have here : landing = candidate := le_antisymm (not_lt.mp level) reached
        subst here
        have aboard : Aboard part first landing { term with postings } := ⟨head.1, arrived⟩
        refine Step.Tries.within (ih.mono (fun answer after both => ?_) fun after rest => .cons aboard.behind rest)
        exact ⟨.cons aboard.behind both.1, fun none => .cons aboard (both.2 none)⟩
    · simp only [align, same]
      exact .inr ⟨failure, _, rfl, .cons ⟨head.1, unread⟩ tail⟩

/-- The terms of a phrase between two calls, whatever has failed before: no follower has read a position of a document
beyond that of the lead. -/
def Idle (lead : PhrasePart) (followers : List PhrasePart) (first : Int) (phrase : ExactPhrase P S) : Prop :=
  ∃ doc, On FaltersAt lead first doc phrase.lead ∧
    List.Forall₂ (fun part term => Behind part first (doc + 1) term) followers phrase.followers

structure Rested (lead : PhrasePart) (followers : List PhrasePart) (first : Int) (phrase : ExactPhrase P S) : Prop where
  size : 1 ≤ phrase.chunkSize
  idle : phrase.lacksTerm = false → Idle lead followers first phrase

/-- What a move that succeeds says: the phrase is on the document that it answers, which is one of the phrase unless
the documents are used up, and has the number of occurrences there. -/
def Verified (parts : List PhrasePart) (first : Int) (landing : DocId) (after : ExactPhrase P S) : Prop :=
  after.doc = landing ∧
    (landing = noMoreDocs ∨ landing ∈ docs parts first ∧ after.freq = (occurrences parts first landing).card)

variable {lead : PhrasePart} {followers : List PhrasePart} {phrase : ExactPhrase P S}

structure Heads (lead : PhrasePart) (followers : List PhrasePart) (first : Int) (candidate : DocId)
    (phrase : ExactPhrase P S) : Prop where
  aboard : Aboard lead first candidate phrase.lead
  behind : candidate ≠ noMoreDocs →
    List.Forall₂ (fun part term => Behind part first candidate term) followers phrase.followers
  idle : Idle lead followers first phrase
  size : 1 ≤ phrase.chunkSize
  complete : phrase.lacksTerm = false

theorem Heads.rested (heads : Heads lead followers first candidate phrase) : Rested lead followers first phrase :=
  ⟨heads.size, fun _ => heads.idle⟩

theorem moveLead_tries (idle : Idle lead followers first phrase) (size : 1 ≤ phrase.chunkSize)
    (complete : phrase.lacksTerm = false) {move : P → Step P DocId} (travels : Travels lead.postings move) :
    (phrase.moveLead move).Tries (fun landing after => Heads lead followers first landing after)
      (Rested lead followers first) := by
  obtain ⟨before, ⟨offset, place, falters, rfl⟩, behind⟩ := idle
  have idleAt : ∀ postings doc, (∃ place, FaltersAt lead.postings postings place ∧ place.doc = doc) →
      place.doc ≤ doc → Idle lead followers first { phrase with lead := { phrase.lead with postings } } :=
    fun postings doc stands le => ⟨doc, ⟨offset, stands⟩, behind.imp fun _ _ holds => holds.mono (by lia)⟩
  have idleBeyond : ∀ landing postings, Beyond lead.postings place.doc landing postings →
      Idle lead followers first { phrase with lead := { phrase.lead with postings } } := fun landing postings beyond =>
    idleAt postings landing beyond.1.faltersAt (beyond.le (falters.doc_le lead.positioned.toAccepted))
  refine Step.Tries.within ((travels _ place falters).mono (fun landing postings beyond => ?_) fun postings left => ?_)
  · refine ⟨⟨offset, beyond.1⟩, fun live => ?_, idleBeyond landing postings beyond, size, complete⟩
    have further := beyond.2.resolve_left live
    exact behind.imp fun _ _ holds => holds.mono (by lia)
  · refine ⟨size, fun _ => ?_⟩
    rcases left with stays | ⟨landing, beyond⟩
    · exact idleAt postings place.doc ⟨place, stays, rfl⟩ le_rfl
    · exact idleBeyond landing postings beyond

theorem Heads.real (heads : Heads lead followers first candidate phrase) (live : candidate ≠ noMoreDocs) :
    IsReal candidate := by
  obtain ⟨posting, listed, here⟩ := Posting.mem_docs.mp (heads.aboard.2.mem_docs live)
  exact here ▸ lead.positioned.real listed

theorem Heads.followers_try (heads : Heads lead followers first candidate phrase) (live : candidate ≠ noMoreDocs) :
    (align candidate phrase.steps phrase.followers).Tries
      (fun answer swept => Idle lead followers first { phrase with followers := swept } ∧
        (answer = none → List.Forall₂ (fun part term => Aboard part first candidate term) followers swept))
      (fun swept => Idle lead followers first { phrase with followers := swept }) := by
  have idle : ∀ swept : List (ExactTerm P),
      List.Forall₂ (fun part term => Behind part first candidate term) followers swept →
      Idle lead followers first { phrase with followers := swept } := fun swept behind =>
    ⟨candidate, heads.aboard.on, behind.imp fun _ _ holds => holds.mono (lt_add_one candidate).le⟩
  exact (align_tries phrase.steps (heads.behind live) (heads.real live).2.le).mono
    (fun _ swept both => ⟨idle swept both.1, both.2⟩) idle

theorem Heads.counts {swept : List (ExactTerm P)} (heads : Heads lead followers first candidate phrase)
    (least : IsFirst (lead :: followers) first) (several : followers ≠ []) (live : candidate ≠ noMoreDocs)
    (aboard : List.Forall₂ (fun part term => Aboard part first candidate term) followers swept) :
    { phrase with followers := swept, doc := candidate }.count.Tries
      (fun freq counted => counted.doc = candidate ∧
        freq = (occurrences (lead :: followers) first candidate).card ∧
        (0 < freq ↔ candidate ∈ docs (lead :: followers) first) ∧
        Idle lead followers first { counted with freq } ∧ 1 ≤ counted.chunkSize ∧ counted.lacksTerm = false)
      (Rested lead followers first) := by
  have decides := count_decides standing_faltersAt least several (heads.real live)
    { phrase with followers := swept, doc := candidate } (heads.aboard.fresh live)
    (aboard.imp fun _ _ holds => holds.fresh live) heads.size
  have idle : ∀ counted : ExactPhrase P S, On FaltersAt lead first candidate counted.lead →
      List.Forall₂ (fun part term => On FaltersAt part first candidate term) followers counted.followers →
      Idle lead followers first counted := fun counted leadOn followersOn =>
    ⟨candidate, leadOn, followersOn.imp fun _ _ on => on.behind (lt_add_one candidate)⟩
  refine decides.mono (fun freq counted judged => ?_) fun counted stopped => ?_
  · obtain ⟨total, isDoc, leadOn, followersOn, chains, frame⟩ := judged
    have sameSize : counted.chunkSize = phrase.chunkSize := by rw [frame]
    have sameLacking : counted.lacksTerm = phrase.lacksTerm := by rw [frame]
    exact ⟨congrArg ExactPhrase.doc frame, total, isDoc, idle { counted with freq } leadOn followersOn,
      sameSize.symm ▸ heads.size, sameLacking.trans heads.complete⟩
  · obtain ⟨-, leadOn, followersOn, chains, frame⟩ := stopped
    have sameSize : counted.chunkSize = phrase.chunkSize := by rw [frame]
    exact ⟨sameSize.symm ▸ heads.size, fun _ => idle counted leadOn followersOn⟩

theorem settle_tries (least : IsFirst (lead :: followers) first) (several : followers ≠ []) (moves : Nat)
    (phrase : ExactPhrase P S)
    (heads : Heads lead followers first candidate phrase) :
    (settle moves phrase candidate).Tries
      (fun landing after => Verified (lead :: followers) first landing after ∧ Rested lead followers first after)
      (Rested lead followers first) := by
  induction moves generalizing phrase candidate with
  | zero => exact .inr ⟨_, phrase, rfl, heads.rested⟩
  | succ moves ih =>
    unfold settle
    split
    next ended => exact .inl ⟨noMoreDocs, _, rfl, ⟨rfl, .inl rfl⟩, heads.size, fun _ => heads.idle⟩
    next live =>
      rcases heads.followers_try live with ⟨answer, swept, same, idle, aboard⟩ | ⟨failure, swept, same, idle⟩
      · rw [same]
        cases answer with
        | some beyond =>
          dsimp only
          split
          next ended => exact .inl ⟨noMoreDocs, _, rfl, ⟨rfl, .inl rfl⟩, heads.size, fun _ => idle⟩
          next =>
            rcases moveLead_tries idle heads.size heads.complete
                (travels_advance lead.positioned.toAccepted beyond) with
              ⟨landing, moved, movedSame, headsMoved⟩ | ⟨failure, moved, movedSame, rested⟩
            · rw [movedSame]
              exact ih moved headsMoved
            · rw [movedSame]
              exact .inr ⟨failure, moved, rfl, rested⟩
        | none =>
          rcases heads.counts least several live (aboard rfl) with
            ⟨freq, counted, countSame, sameDoc, total, isDoc, countedIdle, size, complete⟩ |
            ⟨failure, counted, countSame, rested⟩
          · simp only [countSame]
            split
            next found =>
              exact .inl ⟨candidate, _, rfl, ⟨sameDoc, .inr ⟨isDoc.mp found, total⟩⟩, size, fun _ => countedIdle⟩
            next none =>
              rcases moveLead_tries countedIdle size complete (travels_next lead.positioned.toAccepted) with
                ⟨landing, moved, movedSame, headsMoved⟩ | ⟨failure, moved, movedSame, rested⟩
              · rw [movedSame]
                exact ih moved headsMoved
              · rw [movedSame]
                exact .inr ⟨failure, moved, rfl, rested⟩
          · simp only [countSame]
            exact .inr ⟨failure, counted, rfl, rested⟩
      · rw [same]
        exact .inr ⟨failure, _, rfl, heads.size, fun _ => idle⟩

theorem moveAndSettle_tries (least : IsFirst (lead :: followers) first) (several : followers ≠ [])
    (rested : Rested lead followers first phrase)
    {move : P → Step P DocId} (travels : Travels lead.postings move) :
    (phrase.moveAndSettle move).Tries
      (fun landing after => Verified (lead :: followers) first landing after ∧ Rested lead followers first after)
      (Rested lead followers first) := by
  unfold moveAndSettle
  split
  next lacking =>
    refine .inl ⟨noMoreDocs, _, rfl, ⟨rfl, .inl rfl⟩, rested.size, fun complete => ?_⟩
    exact absurd (lacking.symm.trans complete) (by decide)
  next complete =>
    have complete : phrase.lacksTerm = false := by simpa using complete
    rcases moveLead_tries (rested.idle complete) rested.size complete travels with
      ⟨landing, moved, same, heads⟩ | ⟨failure, moved, same, rested⟩
    · rw [same]
      exact settle_tries least several moveLimit moved heads
    · rw [same]
      exact .inr ⟨failure, moved, rfl, rested⟩

theorem withstands (least : IsFirst (lead :: followers) first) (several : followers ≠ []) :
    Withstands (Rested (P := P) (S := S) lead followers first) (Verified (lead :: followers) first) where
  next _ rested := moveAndSettle_tries least several rested (travels_next lead.positioned.toAccepted)
  advance _ target rested := moveAndSettle_tries least several rested (travels_advance lead.positioned.toAccepted target)

theorem behind_of_place {after : List (ExactTerm P)}
    (fresh : List.Forall₂ (fun part (term : ExactTerm P) => term.offset = first - part.position ∧
      FaltersAt part.postings term.postings .unplaced) parts terms)
    (placed : place terms = .ok (after, false)) :
    List.Forall₂ (fun part term => Behind part first 0 term) parts after := by
  induction fresh generalizing after with
  | nil =>
    obtain ⟨rfl, -⟩ := Prod.mk.inj (Except.ok.inj placed)
    exact .nil
  | @cons part term parts terms head tail ih =>
    unfold place at placed
    rcases travels_next part.positioned.toAccepted _ _ head.2 with
      ⟨landing, postings, same, beyond⟩ | ⟨failure, postings, same, -⟩
    · rw [same] at placed
      dsimp only at placed
      split at placed
      next => cases (Prod.mk.inj (Except.ok.inj placed)).2
      next =>
        cases rest : place terms with
        | error failure =>
          rw [rest] at placed
          cases placed
        | ok answer =>
          rw [rest] at placed
          obtain ⟨rfl, lacks⟩ := Prod.mk.inj (Except.ok.inj placed)
          refine .cons ⟨head.1, beyond.1.unreadFrom⟩ (ih ?_)
          rw [rest, ← lacks]
    · rw [same] at placed
      cases placed

/-- Whatever has failed before, a move of an exact phrase that succeeds ends on a document of the phrase with the
number of occurrences there, or behind all documents. -/
theorem moves_verify_occurrences {parts : List PhrasePart} {terms : List (PhraseTerm P)}
    (promises : List.Forall₂ (fun part term => part.Promises term) parts terms) {relevance : Relevance S}
    {settings : Settings} {phrase : ExactPhrase P S} (made : ofTerms terms relevance settings = .ok phrase) :
    ∃ first, IsFirst parts first ∧
      ∀ state landing after, Relation.ReflTransGen Called phrase state → Moves state landing after →
        Verified parts first landing after := by
  obtain ⟨valid, unrefused⟩ := unrefused_of_made made
  obtain ⟨lead, followers, leadTerm, followerTerms, perm, several, arranged, leads, follow⟩ :=
    arrange_cons promises unrefused
  have leastPlace := foldl_position_eq (follow.imp fun _ _ promises => promises.position) leadTerm.position
  rw [leads.position] at leastPlace
  have least := isFirst_foldl lead followers
  generalize followers.foldl (fun least part => min least part.position) lead.position = first at least leastPlace
  rw [← leads.position] at leastPlace
  obtain ⟨bound, same⟩ := ofTerms_eq valid unrefused arranged leastPlace
  rw [same] at made
  have fresh : List.Forall₂ (fun part (term : ExactTerm P) => term.offset = first - part.position ∧
      FaltersAt part.postings term.postings .unplaced) followers (followerTerms.map (prepare first bound)) := by
    rw [List.forall₂_map_right_iff]
    exact follow.imp fun part term promises => ⟨by rw [← promises.position]; rfl, promises.falters⟩
  cases placed : place (followerTerms.map (prepare first bound)) with
  | error failure =>
    rw [placed] at made
    cases made
  | ok answer =>
    obtain ⟨after, lacking⟩ := answer
    rw [placed] at made
    obtain rfl := Except.ok.inj made
    refine ⟨first, (isFirst_perm perm).mp least, fun state landing after calls moves => ?_⟩
    rw [Verified, ← docs_perm perm, ← occurrences_perm perm]
    refine (withstands least several).post_of_moves ((withstands least several).holds_of_calls ?_ calls) moves
    refine ⟨one_le_chunkSize valid, fun complete => ⟨unpositioned, ⟨?_, .unplaced, leads.falters, rfl⟩, ?_⟩⟩
    · rw [← leads.position]
      rfl
    · cases complete
      exact behind_of_place fresh placed

/-- Two terms, the second one place behind the first. Reading its position in document 2 fails. The phrase then stands
on this document, which is none of its own, with the number of occurrences in document 1. The next move succeeds and
ends on document 3, a document of the phrase. -/
theorem failed_move_leaves_unverified_document :
    ∃ (parts : List PhrasePart) (terms : List (PhraseTerm (Stumbling PostingList)))
      (phrase : ExactPhrase (Stumbling PostingList) ℚ),
      List.Forall₂ (fun part term => part.Promises term) parts terms ∧ IsFirst parts 0 ∧
      ofTerms terms (.constant 1 1) Settings.standard = .ok phrase ∧
      let first := Cursor.next phrase
      let second := Cursor.next first.2
      let third := Cursor.next second.2
      first.1 = .ok 1 ∧ second.1 = .error (.posting .notOnDocument) ∧ second.2.doc = 2 ∧ second.2.freq = 1 ∧
        2 ∉ docs parts 0 ∧ third.1 = .ok 3 ∧ Verified parts 0 3 third.2 := by
  let early : PhrasePart := ⟨[⟨1, 1, [0]⟩, ⟨2, 1, [0]⟩, ⟨3, 1, [4]⟩], 0, ⟨⟨rfl, by decide⟩, by decide⟩⟩
  let late : PhrasePart := ⟨[⟨1, 1, [1]⟩, ⟨2, 1, [5]⟩, ⟨3, 1, [5]⟩], 1, ⟨⟨rfl, by decide⟩, by decide⟩⟩
  let terms : List (PhraseTerm (Stumbling PostingList)) :=
    [⟨⟨.fresh early.postings, []⟩, 0, none⟩,
      ⟨⟨.fresh late.postings, [none, none, none, some ⟨.posting .notOnDocument, false⟩]⟩, 1, none⟩]
  have promises : List.Forall₂ (fun part term => part.Promises term) [early, late] terms :=
    .cons ⟨Stumbling.faltersAt rfl _, rfl⟩ (.cons ⟨Stumbling.faltersAt rfl _, rfl⟩ .nil)
  have made : ofTerms terms (.constant (1 : ℚ) 1) Settings.standard = .ok _ := rfl
  obtain ⟨least, isFirst, verified⟩ := moves_verify_occurrences promises made
  have zero : least = 0 := by
    refine isFirst.unique ⟨⟨early, by simp, rfl⟩, ?_⟩
    rintro _ ⟨part, member, rfl⟩
    simp only [List.mem_cons, List.not_mem_nil, or_false] at member
    rcases member with rfl | rfl
    all_goals decide
  subst zero
  have apart : 2 ∉ docs [early, late] 0 := by
    intro member
    obtain ⟨-, start, both⟩ := (mem_docs isFirst).mp member
    have first := both early (by simp)
    have second := both late (by simp)
    simp [early, late, Posting.positionsIn] at first second
    lia
  refine ⟨[early, late], terms, _, promises, isFirst, made, ?_⟩
  intro first second third
  have landed : third.1 = .ok 3 := by decide +kernel
  have calls : Relation.ReflTransGen Called _ second.2 := .tail (.single (Called.next _)) (Called.next first.2)
  exact ⟨by decide +kernel, by decide +kernel, by decide +kernel, by decide +kernel, apart, landed,
    verified second.2 3 third.2 calls (moves_next landed)⟩

end ExactPhrase

end PostingQuery
