import Mathlib
import PostingQuery.Proofs.TermOrder

/-!
What a sloppy phrase carries from one document to the next. A term keeps its last position until it reads another
one, and a document in which it has none reads none. Wherever all terms have a position, every one of them is read
anew, so nothing is left of the documents that were measured before: the phrase judges such a document as a fresh
phrase does that knows no other document.
-/

namespace PostingQuery

namespace Posting

def only (doc : DocId) (postings : List Posting) : List Posting := postings.filter fun posting => posting.doc == doc

variable {postings some : List Posting} {posting : Posting} {doc last higher : DocId}

theorem refusal_mono (le : last ≤ higher) (unrefused : posting.refusal higher = none) :
    posting.refusal last = none := by
  have after := (refusal_eq_none unrefused).1
  have live := (refusal_eq_none unrefused).2.1
  have inOrder : ∀ before, before < posting.doc → ¬(posting.doc ≤ before ∨ posting.doc = noMoreDocs) := by
    rintro before less (more | ended)
    · exact absurd less (not_lt.mpr more)
    · exact live ended
  unfold refusal at unrefused ⊢
  rw [if_neg (inOrder higher after)] at unrefused
  rw [if_neg (inOrder last (lt_of_le_of_lt le after))]
  exact unrefused

theorem firstRefusal_mono (le : last ≤ higher) (unrefused : firstRefusal higher postings = none) :
    firstRefusal last postings = none := by
  cases postings with
  | nil => rfl
  | cons first rest =>
    obtain ⟨head, tail⟩ := firstRefusal_cons_eq_none unrefused
    rw [firstRefusal, refusal_mono le head]
    exact tail

theorem firstRefusal_sublist (sublist : some.Sublist postings) (unrefused : firstRefusal last postings = none) :
    firstRefusal last some = none := by
  induction sublist generalizing last with
  | slnil => rfl
  | cons first _ ih =>
    obtain ⟨head, tail⟩ := firstRefusal_cons_eq_none unrefused
    exact firstRefusal_mono (refusal_eq_none head).1.le (ih tail)
  | cons_cons first _ ih =>
    obtain ⟨head, tail⟩ := firstRefusal_cons_eq_none unrefused
    rw [firstRefusal, head]
    exact ih tail

theorem Counted.only (counted : Counted postings) (doc : DocId) : Counted (only doc postings) where
  unrefused := firstRefusal_sublist List.filter_sublist counted.unrefused
  fits posting member := counted.fits posting (List.mem_filter.mp member).1
  counted posting member := counted.counted posting (List.mem_filter.mp member).1

theorem positionsIn_only : positionsIn (only doc postings) doc = positionsIn postings doc := by
  rw [positionsIn, positionsIn, only, List.find?_filter]
  simp only [and_self, Bool.decide_eq_true]

theorem mem_docs_only {other : DocId} (member : other ∈ docs (only doc postings)) : other = doc := by
  obtain ⟨posting, listed, rfl⟩ := mem_docs.mp member
  simpa using (List.mem_filter.mp listed).2

def ofAll (docs : List (DocId × List Int)) : List Posting :=
  docs.map fun (doc, positions) => ofPositions doc positions

theorem counted_ofAll {docs : List (DocId × List Int)} {list : PostingList}
    (made : PostingList.ofPositions docs = .ok list) (fits : ∀ posting ∈ ofAll docs, posting.Fits) :
    Counted (ofAll docs) := by
  refine ⟨⟨?_, fits⟩, fun posting member => ?_⟩
  · unfold PostingList.ofPositions PostingList.ofPostings at made
    split at made
    next => cases made
    next unrefused => exact unrefused
  · obtain ⟨⟨doc, positions⟩, -, rfl⟩ := List.mem_map.mp member
    rfl

end Posting

variable {P Q S : Type} [PostingSource P] [PostingSource Q] [Score S]

namespace SloppyCast

open SloppyTerm SloppyWalk

variable {last : Nat} (cast : SloppyCast S last)

def Complete (doc : DocId) : Prop := ∀ i, Posting.positionsIn (cast.postings i) doc ≠ []

def streams (doc : DocId) : Vector (SloppyTerm PositionStream) (last + 1) :=
  .ofFn fun i => ⟨⟨Posting.positionsIn (cast.postings i) doc⟩, cast.position i, 0, 0⟩

def Tells (doc : DocId) (freq : S) (occurrences : Nat) : Prop :=
  ∃ mirror, (cast.phrase (cast.streams doc) doc Score.zero 0).measure = (.ok freq, mirror) ∧
    mirror.occurrences = occurrences

def JudgesComplete (doc : DocId) (freq : S) (occurrences : Nat) : Prop :=
  cast.Complete doc → cast.Tells doc freq occurrences

variable {cast} {doc : DocId}

theorem Tells.unique {freq otherFreq : S} {occurrences otherOccurrences : Nat} (tells : cast.Tells doc freq occurrences)
    (other : cast.Tells doc otherFreq otherOccurrences) : freq = otherFreq ∧ occurrences = otherOccurrences := by
  obtain ⟨mirror, same, rfl⟩ := tells
  obtain ⟨otherMirror, otherSame, rfl⟩ := other
  obtain ⟨freqs, rfl⟩ := Prod.mk.inj (same.symm.trans otherSame)
  exact ⟨Except.ok.inj freqs, rfl⟩

omit [Score S] in
theorem streams_get (i : Fin (last + 1)) : (cast.streams doc).get i =
    ⟨⟨Posting.positionsIn (cast.postings i) doc⟩, cast.position i, 0, 0⟩ := by
  simp [streams]

omit [Score S] in
theorem Complete.common (complete : cast.Complete doc) : cast.Common doc := by
  have member : ∀ i, doc ∈ Posting.docs (cast.postings i) := by
    intro i
    obtain ⟨position, listed⟩ := List.exists_mem_of_ne_nil _ (complete i)
    exact Posting.mem_docs_of_positionsIn listed
  obtain ⟨posting, listed, rfl⟩ := Posting.mem_docs.mp (member 0)
  exact ⟨(cast.accepted 0).real listed, member⟩

omit [Score S] in
theorem Complete.begins (complete : cast.Complete doc) (i : Fin (last + 1)) :
    ((cast.streams doc).get i).begin.1 = .ok () := by
  obtain ⟨posting, listed, rfl⟩ := Posting.mem_docs.mp (complete.common.2 i)
  have nonneg := ((cast.counted i).indexes listed).nonneg
  have placed := complete i
  rw [(cast.counted i).positionsIn_eq listed] at placed
  rw [streams_get, (cast.counted i).positionsIn_eq listed]
  cases positions : posting.positions with
  | nil => exact absurd positions placed
  | cons position unread =>
    rw [positions] at nonneg
    rw [begin_stream rfl (nonneg position List.mem_cons_self)]

theorem measures_complete : cast.Measures P cast.JudgesComplete := by
  intro terms doc freq occurrences real begins
  -- A term without positions goes on from where it was, and so must its stream.
  let leftover (i : Fin (last + 1)) : Int :=
    if Posting.positionsIn (cast.postings i) doc = [] then (terms.get i).shifted else 0
  let streams : Vector (SloppyTerm PositionStream) (last + 1) :=
    .ofFn fun i => ⟨⟨Posting.positionsIn (cast.postings i) doc⟩, cast.position i, 0, leftover i⟩
  have get : ∀ i : Fin (last + 1), streams.get i =
      ⟨⟨Posting.positionsIn (cast.postings i) doc⟩, cast.position i, 0, leftover i⟩ := by
    simp [streams]
  have fresh : ∀ i : Fin (last + 1),
      Fresh StandsAt (cast.postings i) (cast.position i) doc (terms.get i) (streams.get i) := by
    intro i
    rw [get]
    exact ⟨⟨(begins i).2, rfl⟩, (begins i).1.untouched real.ne_noMoreDocs, rfl, fun none => (if_pos none).symm⟩
  have tries := cast.measure_tries standing_standsAt fresh real freq occurrences
  refine (tries.yields fun _ never => never.1).mono ?_
  rintro value _ ⟨after, mirror, measured, rfl, onDoc⟩
  refine ⟨after, mirror.occurrences, rfl, fun complete => ⟨mirror, ?_, rfl⟩, onDoc⟩
  have same : streams = cast.streams doc := by
    have none : leftover = fun _ => 0 := funext fun i => if_neg (complete i)
    simp only [streams, SloppyCast.streams, none]
  rw [← same]
  exact measured

open Classical in
noncomputable def docs (cast : SloppyCast S last) : Finset DocId :=
  allDocs.filter fun doc => cast.Complete doc ∧
    ∃ freq occurrences, cast.Tells doc freq occurrences ∧ Score.isPositive freq = true

theorem mem_docs : doc ∈ cast.docs ↔
    cast.Complete doc ∧ ∃ freq occurrences, cast.Tells doc freq occurrences ∧ Score.isPositive freq = true := by
  classical
  refine Finset.mem_filter.trans ?_
  rw [mem_allDocs, and_iff_right_of_imp]
  exact fun complete => complete.1.common.1

theorem wanted_docs : cast.Wanted cast.JudgesComplete cast.docs where
  common doc member := (mem_docs.mp member).1.common
  positive doc member freq occurrences judged := by
    obtain ⟨complete, told, number, tells, positive⟩ := mem_docs.mp member
    rw [((judged complete).unique tells).1]
    exact positive

theorem tells_iff {freq : S} {occurrences : Nat} : cast.Tells doc freq occurrences ↔
    (cast.phrase (cast.streams doc) doc Score.zero 0).measure.1 = .ok freq ∧
      (cast.phrase (cast.streams doc) doc Score.zero 0).measure.2.occurrences = occurrences := by
  constructor
  · rintro ⟨mirror, same, rfl⟩
    rw [same]
    exact ⟨rfl, rfl⟩
  · rintro ⟨same, counted⟩
    exact ⟨_, Prod.ext same rfl, counted⟩

theorem Finds.here {low landing : DocId} {after : SloppyPhrase P S} {wanted : Finset DocId}
    (finds : cast.Finds cast.JudgesComplete wanted low landing after) (nonneg : 0 ≤ low) :
    landing = noMoreDocs ∨ cast.Common landing ∧ Score.isPositive after.freq = true ∧
      (cast.Complete landing → cast.Tells landing after.freq after.occurrences) := by
  obtain ⟨terms, doc, freq, occurrences, same, rests⟩ := finds.sound
  have here := finds.doc
  have reached := finds.reached
  subst same
  change doc = landing at here
  subst here
  rcases rests.place with fresh | ⟨common, judged, positive⟩ | ended
  · rw [fresh, unpositioned] at reached
    lia
  · exact .inr ⟨common, positive, judged⟩
  · exact .inl ended

theorem Finds.settles {low landing : DocId} {after : SloppyPhrase P S}
    (finds : cast.Finds cast.JudgesComplete cast.docs low landing after) (nonneg : 0 ≤ low)
    (complete : cast.Complete doc) (from_low : low ≤ doc) (within : doc ≤ landing) :
    (landing = doc ↔ doc ∈ cast.docs) ∧ (landing = doc → cast.Tells doc after.freq after.occurrences) := by
  have told : landing = doc →
      Score.isPositive after.freq = true ∧ cast.Tells doc after.freq after.occurrences := by
    rintro rfl
    obtain ⟨-, positive, tells⟩ := (finds.here nonneg).resolve_left complete.common.1.ne_noMoreDocs
    exact ⟨positive, tells complete⟩
  refine ⟨⟨fun here => ?_, fun member => ?_⟩, fun here => (told here).2⟩
  · exact mem_docs.mpr ⟨complete, _, _, (told here).2, (told here).1⟩
  · exact le_antisymm (finds.covers doc member from_low) within

theorem Sound.next_of_only {state : SloppyPhrase P S} (sound : cast.Sound cast.JudgesComplete state)
    (fresh : state.doc = unpositioned) (only : ∀ other, cast.Common other → other = doc)
    (complete : cast.Complete doc) :
    (Cursor.next state).Yields fun found after => (found = doc ∨ found = noMoreDocs) ∧
      (found = doc ↔ doc ∈ cast.docs) ∧ (found = doc → cast.Tells doc after.freq after.occurrences) := by
  have real := complete.common.1
  refine (sound.next measures_complete wanted_docs (by rw [fresh]; decide)).mono fun found after finds => ?_
  rw [fresh] at finds
  have either : found = doc ∨ found = noMoreDocs :=
    (finds.here le_rfl).symm.imp_left fun here => only found here.1
  have within : doc ≤ found := by
    rcases either with rfl | rfl
    · exact le_rfl
    · exact real.2.le
  exact ⟨either, finds.settles le_rfl complete real.1 within⟩

end SloppyCast

namespace SloppyPhrase

open SloppyCast

variable {count last other : Nat} {listing : Fin count → List Posting} {terms : Fin count → PhraseTerm P}
  {alone : Fin count → PhraseTerm Q} {doc : DocId} {slop : Int} {relevance : Relevance S}

structure Casts (listing : Fin count → List Posting) (terms : Fin count → PhraseTerm P) (slop : Int)
    (relevance : Relevance S) (place : Fin (last + 1) ≃ Fin count) (arranged : Vector (PhraseTerm P) (last + 1))
    (cast : SloppyCast S last) : Prop where
  same : ∀ i, arranged.get i = terms (place i)
  ordered : (List.finRange (last + 1)).map place =
    StableSort.sort (fun i j => PhraseTerm.mayLead (terms i) (terms j)) (List.finRange count)
  postings : ∀ i, cast.postings i = listing (place i)
  position : ∀ i, cast.position i = (terms (place i)).position
  groups : cast.groups = repeatGroups arranged
  scores : cast.relevance = relevance
  width : cast.slop = slop

theorem ofTerms_casts (counted : ∀ i, Posting.Counted (listing i))
    (stands : ∀ i, StandsAt (listing i) (terms i).postings .unplaced)
    (unrefused : PhraseTerm.refusal (List.ofFn terms) = none) (nonneg : 0 ≤ slop) (relevance : Relevance S) :
    ∃ (last : Nat) (place : Fin (last + 1) ≃ Fin count) (arranged : Vector (PhraseTerm P) (last + 1))
      (cast : SloppyCast S last) (phrase : SloppyPhrase P S),
      Casts listing terms slop relevance place arranged cast ∧
      (ofTerms (List.ofFn terms) slop relevance).outcome = .ok phrase ∧ phrase.doc = unpositioned ∧
      cast.Sound cast.JudgesComplete phrase := by
  obtain ⟨last, place, arranged, same, ordered, made⟩ := ofTerms_ordered unrefused nonneg relevance
  let cast : SloppyCast S last := ⟨fun i => listing (place i), fun i => counted (place i),
    fun i => (terms (place i)).position, repeatGroups arranged, relevance, slop⟩
  refine ⟨last, place, arranged, cast, _, ⟨same, ordered, fun _ => rfl, fun _ => rfl, rfl, rfl, rfl⟩, made, rfl,
    SloppyCast.sound_of_fresh fun i => ?_⟩
  have here : (arranged.map fun term => (⟨term.postings, term.position, 0, 0⟩ : SloppyTerm P)).get i =
      ⟨(terms (place i)).postings, (terms (place i)).position, 0, 0⟩ := by
    rw [← same i]
    simp only [Vector.get_eq_getElem, Vector.getElem_map]
  rw [here]
  exact ⟨rfl, stands (place i)⟩

section Casts

variable {place : Fin (last + 1) ≃ Fin count} {arranged : Vector (PhraseTerm P) (last + 1)} {cast : SloppyCast S last}

omit [Score S] in
theorem Casts.complete_iff (casts : Casts listing terms slop relevance place arranged cast) :
    cast.Complete doc ↔ ∀ i, Posting.positionsIn (listing i) doc ≠ [] := by
  rw [Complete, ← place.forall_congr_right]
  simp only [casts.postings]

omit [Score S] in
theorem Casts.mem_docs (casts : Casts listing terms slop relevance place arranged cast) (common : cast.Common doc)
    (i : Fin count) : doc ∈ Posting.docs (listing i) := by
  have member := common.2 (place.symm i)
  rwa [casts.postings, place.apply_symm_apply] at member

end Casts

structure Alone (doc : DocId) (listing : Fin count → List Posting) (terms : Fin count → PhraseTerm P)
    (alone : Fin count → PhraseTerm Q) : Prop where
  stands : ∀ i, StandsAt (Posting.only doc (listing i)) (alone i).postings .unplaced
  position : ∀ i, (alone i).position = (terms i).position
  text : ∀ i, (alone i).text = (terms i).text
  order : Function.Injective (fun i => (terms i).position) ∨
    ∀ i j, PhraseTerm.mayLead (alone i) (alone j) = PhraseTerm.mayLead (terms i) (terms j)

/-- Of two terms at one place the cheaper one is moved first. A posting of another document makes the first term the
dearer one, and then the second one has matched twice before it is its turn. -/
theorem cost_orders_terms_at_one_place :
    let matchesIn (first : PhraseTerm PostingList) :=
      (ofTerms [first, ⟨.fresh [⟨0, 2, [5, 6]⟩], 0, some "b"⟩] 10
        (Relevance.constant Score.one Score.one : Relevance Float32)).outcome.toOption.map
          fun phrase => ((Cursor.next phrase).1.toOption, (Cursor.next phrase).2.occurrences)
    matchesIn ⟨.fresh [⟨0, 1, [5]⟩, ⟨1, 1, [9]⟩], 0, some "a"⟩ = some (some 0, 2) ∧
      matchesIn ⟨.fresh [⟨0, 1, [5]⟩], 0, some "a"⟩ = some (some 0, 1) := by
  decide +kernel

namespace Alone

variable (isolates : Alone doc listing terms alone)
include isolates

theorem unrefused (unrefused : PhraseTerm.refusal (List.ofFn terms) = none) :
    PhraseTerm.refusal (List.ofFn alone) = none := by
  rw [PhrasePart.refusal_eq_none_iff, List.forall_mem_ofFn_iff, List.length_ofFn] at unrefused ⊢
  simpa only [isolates.position] using unrefused

variable {place : Fin (last + 1) ≃ Fin count} {arranged : Vector (PhraseTerm P) (last + 1)}
  {cast : SloppyCast S last} {placeAlone : Fin (other + 1) ≃ Fin count}
  {arrangedAlone : Vector (PhraseTerm Q) (other + 1)} {own : SloppyCast S other}
  (casts : Casts listing terms slop relevance place arranged cast)
  (castsAlone : Casts (fun i => Posting.only doc (listing i)) alone slop relevance placeAlone arrangedAlone own)
include casts castsAlone

theorem exists_number {streams : Vector (SloppyTerm PositionStream) (last + 1)}
    (seats : ∀ i, (streams.get i).offset = (terms (place i)).position)
    (begins : ∀ i, (streams.get i).begin.1 = .ok ()) :
    ∃ number : Fin (last + 1) ≃ Fin (other + 1), (∀ i, placeAlone (number i) = place i) ∧
      (own.phrase (renumber number streams) doc Score.zero 0).measure.1 =
        (cast.phrase streams doc Score.zero 0).measure.1 ∧
      (own.phrase (renumber number streams) doc Score.zero 0).measure.2.occurrences =
        (cast.phrase streams doc Score.zero 0).measure.2.occurrences := by
  simp only [SloppyCast.phrase, casts.groups, casts.scores, casts.width, castsAlone.groups, castsAlone.scores,
    castsAlone.width]
  -- Either the places tell the terms apart, or both phrases list them in one order.
  rcases isolates.order with distinct | order
  · let number := place.trans placeAlone.symm
    have back : ∀ i, placeAlone (number i) = place i := fun i => placeAlone.apply_symm_apply (place i)
    have texts : ∀ i, (arrangedAlone.get (number i)).text = (arranged.get i).text := fun i => by
      rw [castsAlone.same, casts.same, back, isolates.text]
    have positions : ∀ i, (arrangedAlone.get (number i)).position = (arranged.get i).position := fun i => by
      rw [castsAlone.same, casts.same, back, isolates.position]
    have places : Function.Injective fun i => (terms (place i)).position := distinct.comp place.injective
    have groups := repeatGroups_renumber texts (by simpa only [casts.same] using places) positions
    refine ⟨number, back, ?_⟩
    rw [groups]
    exact measure_renumber number places seats begins (repeatGroups arranged) relevance slop doc Score.zero 0
  · have ordered := castsAlone.ordered
    simp only [order] at ordered
    rw [← casts.ordered] at ordered
    have lengths : other = last := by simpa using congrArg List.length ordered
    subst lengths
    have back : ∀ i, placeAlone i = place i := fun i => List.map_inj_left.mp ordered i (List.mem_finRange i)
    have groups : repeatGroups arrangedAlone = repeatGroups arranged := repeatGroups_congr
      (fun i => by rw [castsAlone.same, casts.same, back, isolates.text])
      fun i => by rw [castsAlone.same, casts.same, back, isolates.position]
    have same : renumber (Equiv.refl (Fin (other + 1))) streams = streams :=
      (eq_renumber (Equiv.refl _) streams fun _ => rfl).symm
    refine ⟨Equiv.refl _, back, ?_⟩
    rw [groups, same]
    exact ⟨rfl, rfl⟩

theorem tells_iff (complete : cast.Complete doc) {freq : S} {occurrences : Nat} :
    own.Tells doc freq occurrences ↔ cast.Tells doc freq occurrences := by
  obtain ⟨number, back, outcome, counts⟩ := isolates.exists_number casts castsAlone
    (fun i => by rw [streams_get]; exact casts.position i) complete.begins
  have streams : own.streams doc = renumber number (cast.streams doc) := by
    refine eq_renumber number _ fun i => ?_
    rw [streams_get, streams_get]
    simp only [castsAlone.postings, castsAlone.position, casts.postings, casts.position, back, isolates.position,
      Posting.positionsIn_only]
  rw [SloppyCast.tells_iff, SloppyCast.tells_iff, streams]
  exact and_congr (Eq.congr_left outcome) (Eq.congr_left counts)

theorem mem_docs_iff (complete : cast.Complete doc) (completeAlone : own.Complete doc) :
    doc ∈ own.docs ↔ doc ∈ cast.docs := by
  rw [SloppyCast.mem_docs, SloppyCast.mem_docs, and_iff_right completeAlone, and_iff_right complete]
  simp only [isolates.tells_iff casts castsAlone complete]

end Alone

/-- A move from `low` on that judges every document in which all terms have a position as a fresh phrase does that
knows no other document. -/
structure JudgesAlone (listing : Fin count → List Posting) (terms : Fin count → PhraseTerm P) (slop : Int)
    (relevance : Relevance S) (low landing : DocId) (after : SloppyPhrase P S) : Prop where
  doc : after.doc = landing
  reached : low ≤ landing
  place : landing = noMoreDocs ∨ ∀ i, landing ∈ Posting.docs (listing i)
  /-- The fresh phrase finds the document on which the move lands, with the same matches in it, and none of the
  documents that the move passes. -/
  alone : ∀ doc, low ≤ doc → doc ≤ landing → (∀ i, Posting.positionsIn (listing i) doc ≠ []) →
    ∀ {Q : Type} [PostingSource Q] (alone : Fin count → PhraseTerm Q), Alone doc listing terms alone →
      ∃ own, (ofTerms (List.ofFn alone) slop relevance).outcome = .ok own ∧ own.doc = unpositioned ∧
        (Cursor.next own).Yields fun found ownAfter => found = (if landing = doc then doc else noMoreDocs) ∧
          (landing = doc → ownAfter.freq = after.freq ∧ ownAfter.occurrences = after.occurrences)

theorem judgesAlone_of_finds (counted : ∀ i, Posting.Counted (listing i))
    (unrefused : PhraseTerm.refusal (List.ofFn terms) = none) (slopNonneg : 0 ≤ slop)
    {place : Fin (last + 1) ≃ Fin count} {arranged : Vector (PhraseTerm P) (last + 1)} {cast : SloppyCast S last}
    (casts : Casts listing terms slop relevance place arranged cast) {low landing : DocId} {after : SloppyPhrase P S}
    (nonneg : 0 ≤ low) (finds : cast.Finds cast.JudgesComplete cast.docs low landing after) :
    JudgesAlone listing terms slop relevance low landing after where
  doc := finds.doc
  reached := finds.reached
  place := (finds.here nonneg).imp_right fun here => casts.mem_docs here.1
  alone := by
    intro doc from_low within everywhere Q _ alone isolates
    have complete := casts.complete_iff.mpr everywhere
    obtain ⟨landed, told⟩ := finds.settles nonneg complete from_low within
    obtain ⟨other, placeAlone, arrangedAlone, ownCast, own, castsAlone, made, fresh, sound⟩ :=
      ofTerms_casts (fun i => (counted i).only doc) isolates.stands (isolates.unrefused unrefused) slopNonneg relevance
    have completeAlone : ownCast.Complete doc :=
      castsAlone.complete_iff.mpr (by simpa only [Posting.positionsIn_only] using everywhere)
    refine ⟨own, made, fresh, (sound.next_of_only fresh (fun other common => ?_) completeAlone).mono ?_⟩
    · exact Posting.mem_docs_only (castsAlone.mem_docs common (placeAlone 0))
    · rintro found ownAfter ⟨either, foundIff, ownTold⟩
      have same : found = doc ↔ landing = doc :=
        foundIff.trans ((isolates.mem_docs_iff casts castsAlone complete completeAlone).trans landed.symm)
      refine ⟨?_, fun here => ?_⟩
      · split
        next here => exact same.mpr here
        next passed => exact either.resolve_left fun here => passed (same.mp here)
      · exact ((isolates.tells_iff casts castsAlone complete).mp (ownTold (same.mpr here))).unique (told here)

/-- Wherever a legal walk has led a sloppy phrase, it judges each further document in which all terms have a position
by these positions alone, whatever it has measured before. -/
theorem walk_judges_by_own_positions (counted : ∀ i, Posting.Counted (listing i))
    (stands : ∀ i, StandsAt (listing i) (terms i).postings .unplaced) {phrase : SloppyPhrase P S}
    (made : (ofTerms (List.ofFn terms) slop relevance).outcome = .ok phrase) :
    phrase.doc = unpositioned ∧ ∀ state, Reaches phrase state →
      (state.doc ≠ noMoreDocs →
        (Cursor.next state).Yields (JudgesAlone listing terms slop relevance (state.doc + 1))) ∧
      ∀ target, state.doc < target → target ≤ noMoreDocs →
        (Cursor.advance state target).Yields (JudgesAlone listing terms slop relevance target) := by
  obtain ⟨unrefused, slopNonneg⟩ := unrefused_of_made made
  obtain ⟨last, place, arranged, cast, whole, casts, wholeMade, fresh, sound⟩ :=
    ofTerms_casts counted stands unrefused slopNonneg relevance
  obtain rfl : whole = phrase := Except.ok.inj (wholeMade.symm.trans made)
  refine ⟨fresh, fun state reached => ?_⟩
  have held := sound.after_walk measures_complete reached
  refine ⟨fun live => ?_, fun target beyond inside => ?_⟩
  · exact (held.next measures_complete wanted_docs live).mono fun _ _ =>
      judgesAlone_of_finds counted unrefused slopNonneg casts
        (nonneg_of_unpositioned_lt (Int.lt_add_one_of_le held.le_doc))
  · exact (held.advance measures_complete wanted_docs beyond inside).mono fun _ _ =>
      judgesAlone_of_finds counted unrefused slopNonneg casts (nonneg_of_unpositioned_lt (held.le_doc.trans_lt beyond))

def adjacent (listing : Fin 2 → List Posting) (i : Fin 2) : PhraseTerm PostingList :=
  ⟨.fresh (listing i), i.val, none⟩

theorem adjacent_stands {listing : Fin 2 → List Posting} {i : Fin 2} (counted : Posting.Counted (listing i)) :
    StandsAt (listing i) (adjacent listing i).postings .unplaced := by
  refine PostingList.standsAt ?_
  rw [PostingList.ofPostings, counted.unrefused]
  rfl

def pausing (i : Fin 2) : List Posting :=
  Posting.ofAll (![[(0, [5]), (1, [5]), (2, [5, 9])], [(0, [6]), (1, []), (2, [6, 10])]] i)

/-- The phrase judges document 2 as a fresh phrase does, although it has stopped on a document before in which the
second term does not occur. -/
theorem document_judged_afresh :
    ∃ phrase own : SloppyPhrase PostingList Float32,
      (ofTerms (List.ofFn (adjacent pausing)) 0 (Relevance.constant Score.one Score.one)).outcome = .ok phrase ∧
      (ofTerms (List.ofFn (adjacent fun i => Posting.only 2 (pausing i))) 0
        (Relevance.constant Score.one Score.one)).outcome = .ok own ∧
      let before := (Cursor.next (Cursor.next phrase).2).2
      before.doc = 1 ∧ (Cursor.next before).2.doc = 2 ∧ (Cursor.next own).2.freq = (Cursor.next before).2.freq ∧
        (Cursor.next own).2.occurrences = (Cursor.next before).2.occurrences := by
  have counted : ∀ i, Posting.Counted (pausing i) := by
    intro i
    fin_cases i <;> exact Posting.counted_ofAll rfl (by decide)
  have stands : ∀ i, StandsAt (pausing i) (adjacent pausing i).postings .unplaced :=
    fun i => adjacent_stands (counted i)
  have isolates : Alone 2 pausing (adjacent pausing) (adjacent fun i => Posting.only 2 (pausing i)) :=
    ⟨fun i => adjacent_stands ((counted i).only 2), fun _ => rfl, fun _ => rfl,
      .inl fun i j same => Fin.val_injective (Int.ofNat_inj.mp same)⟩
  obtain ⟨-, -, -, -, phrase, -, made, -⟩ := ofTerms_casts counted stands (by decide) le_rfl
    (Relevance.constant Score.one Score.one : Relevance Float32)
  obtain ⟨fresh, judges⟩ := walk_judges_by_own_positions counted stands made
  have ran : (ofTerms (List.ofFn (adjacent pausing)) 0
      (Relevance.constant Score.one Score.one : Relevance Float32)).outcome.toOption.map (fun phrase =>
        ((Cursor.next phrase).2.doc, (Cursor.next (Cursor.next phrase).2).2.doc,
          (Cursor.next (Cursor.next (Cursor.next phrase).2).2).2.doc)) = some (0, 1, 2) := by
    decide +kernel
  rw [made] at ran
  obtain ⟨first, rest⟩ := Prod.mk.inj (Option.some.inj ran)
  obtain ⟨second, third⟩ := Prod.mk.inj rest
  have started : LegalStep phrase (Cursor.next phrase).2 :=
    .next phrase (show phrase.doc ≠ noMoreDocs by rw [fresh]; decide)
  have stopped : LegalStep (Cursor.next phrase).2 (Cursor.next (Cursor.next phrase).2).2 :=
    .next _ (show (Cursor.next phrase).2.doc ≠ noMoreDocs by rw [first]; decide)
  obtain ⟨landing, after, same, judged⟩ := (judges _ (.tail (.single started) stopped)).1 (by rw [second]; decide)
  rw [same] at third
  have here : landing = 2 := judged.doc.symm.trans third
  obtain ⟨own, ownMade, -, found, ownAfter, ownSame, -, told⟩ :=
    judged.alone 2 (by rw [second]; decide) here.ge (by decide) _ isolates
  refine ⟨phrase, own, made, ownMade, second, ?_⟩
  rw [same, ownSame]
  exact ⟨third, told here⟩

/-- A term without a position in a document keeps the one that it has read last. The phrase finds document 1 behind
document 0, where the second term does not occur and a fresh phrase finds nothing. -/
theorem leftover_position_takes_part :
    let listing : Fin 2 → List Posting := ![[⟨0, 1, [5]⟩, ⟨1, 1, [5]⟩], [⟨0, 1, [6]⟩, ⟨1, 0, []⟩]]
    (ofTerms (List.ofFn (adjacent listing)) 0
        (Relevance.constant Score.one Score.one : Relevance Float32)).outcome.toOption.map (fun phrase =>
          ((Cursor.next phrase).1.toOption, (Cursor.next (Cursor.next phrase).2).1.toOption)) =
        some (some 0, some 1) ∧
      (ofTerms (List.ofFn (adjacent fun i => Posting.only 1 (listing i))) 0
        (Relevance.constant Score.one Score.one : Relevance Float32)).outcome.toOption.map (fun own =>
          (Cursor.next own).1.toOption) = some (some noMoreDocs) ∧
      Posting.positionsIn (listing 1) 1 = [] := by
  decide +kernel

end SloppyPhrase

end PostingQuery
