import Mathlib
import PostingQuery.Proofs.RepeatGroups
import PostingQuery.Proofs.SloppyPhrase

/-!
Sloppy phrases with repeated terms. Terms with one text but different places form one repeat group, so a phrase
never takes one position of a document for two of them.
-/

namespace PostingQuery

namespace SloppyPhrase

variable {P : Type} {n : Nat} {terms : Vector (PhraseTerm P) n}

def SameText (terms : Fin n → PhraseTerm P) (i j : Fin n) : Prop :=
  i ≠ j ∧ ∃ text, (terms i).text = some text ∧ (terms j).text = some text

theorem nodup_eraseDups (texts : List String) : texts.eraseDups.Nodup := by
  induction length : texts.length using Nat.strong_induction_on generalizing texts with
  | _ count ih =>
    subst length
    cases texts with
    | nil => exact List.nodup_nil
    | cons first rest =>
      rw [List.eraseDups_cons, List.nodup_cons]
      refine ⟨fun member => ?_, ih _ (Nat.lt_succ_of_le (List.length_filter_le _ _)) _ rfl⟩
      simpa using (List.mem_filter.mp (List.mem_eraseDups.mp member)).2

theorem mem_of_groupOf {text : String} {group : List (Fin n)} (formed : groupOf terms text = some group) :
    group.Nodup ∧ ∀ i ∈ group, (terms.get i).text = some text := by
  have within : ∀ i ∈ (List.finRange n).filter fun i => (terms.get i).text == some text,
      (terms.get i).text = some text := fun i member => by simpa using (List.mem_filter.mp member).2
  have distinct := (List.nodup_finRange n).filter fun i => (terms.get i).text == some text
  unfold groupOf at formed
  simp only [SloppyWalk.getElem_eq_get] at formed
  generalize (List.finRange n).filter (fun i => (terms.get i).text == some text) = members at *
  cases members with
  | nil => cases formed
  | cons first rest =>
    simp only at formed
    have kept : (rest.filter fun i => (terms.get i).position != (terms.get first).position).Sublist rest :=
      List.filter_sublist
    generalize (rest.filter fun i => (terms.get i).position != (terms.get first).position) = others at formed kept
    cases others with
    | nil => cases formed
    | cons second others =>
      obtain rfl := Option.some.inj formed
      have perm := StableSort.sort_perm
        (fun a b => decide ((terms.get a).position ≤ (terms.get b).position)) (first :: second :: others)
      refine ⟨perm.nodup_iff.mpr (distinct.sublist (kept.cons_cons first)), fun i member => ?_⟩
      exact within i ((kept.cons_cons first).subset (perm.mem_iff.mp member))

theorem exists_groupOf {text : String} {i j : Fin n} (other : i ≠ j) (first : (terms.get i).text = some text)
    (second : (terms.get j).text = some text)
    (differ : ∀ i j, SameText terms.get i j → (terms.get i).position ≠ (terms.get j).position) :
    ∃ group, groupOf terms text = some group ∧ i ∈ group ∧ j ∈ group := by
  have within : ∀ k, k ∈ (List.finRange n).filter (fun k => (terms.get k).text == some text) ↔
      (terms.get k).text = some text := fun k => by simp
  have distinct := (List.nodup_finRange n).filter fun k => (terms.get k).text == some text
  have left := (within i).mpr first
  have right := (within j).mpr second
  unfold groupOf
  simp only [SloppyWalk.getElem_eq_get]
  generalize (List.finRange n).filter (fun k => (terms.get k).text == some text) = members at *
  cases members with
  | nil => cases left
  | cons lead rest =>
    rw [List.nodup_cons] at distinct
    -- No member has the place of the first one, so none is left out.
    have all : (rest.filter fun k => (terms.get k).position != (terms.get lead).position) = rest := by
      refine List.filter_eq_self.mpr fun k member => bne_iff_ne.mpr ?_
      exact differ k lead ⟨fun same => distinct.1 (same ▸ member), text,
        (within k).mp (List.mem_cons_of_mem lead member), (within lead).mp List.mem_cons_self⟩
    simp only [all]
    cases rest with
    | nil => exact absurd ((List.mem_singleton.mp left).trans (List.mem_singleton.mp right).symm) other
    | cons next others =>
      exact ⟨_, rfl, (StableSort.sort_perm _ _).mem_iff.mpr left, (StableSort.sort_perm _ _).mem_iff.mpr right⟩

theorem nodup_repeatGroups (terms : Vector (PhraseTerm P) n) : (repeatGroups terms).flatten.Nodup := by
  have texts : (StableSort.sort (fun a b => decide (a ≤ b)) (terms.toList.filterMap (·.text)).eraseDups).Nodup :=
    (StableSort.sort_perm _ _).nodup_iff.mpr (nodup_eraseDups _)
  refine List.nodup_flatten.mpr ⟨fun group member => ?_, List.pairwise_filterMap.mpr (texts.imp ?_)⟩
  · obtain ⟨text, -, formed⟩ := List.mem_filterMap.mp member
    exact (mem_of_groupOf formed).1
  · intro text other differ group formed another alsoFormed i member also
    have here := (mem_of_groupOf formed).2 i member
    rw [(mem_of_groupOf alsoFormed).2 i also] at here
    exact differ (Option.some.inj here).symm

theorem paired_iff (differ : ∀ i j, SameText terms.get i j → (terms.get i).position ≠ (terms.get j).position)
    {i j : Fin n} : SloppyWalk.Paired (repeatGroups terms) i j ↔ SameText terms.get i j := by
  constructor
  · rintro ⟨other, group, listed, first, second⟩
    obtain ⟨text, -, formed⟩ := List.mem_filterMap.mp listed
    exact ⟨other, text, (mem_of_groupOf formed).2 i first, (mem_of_groupOf formed).2 j second⟩
  · rintro ⟨other, text, first, second⟩
    obtain ⟨group, formed, left, right⟩ := exists_groupOf other first second differ
    refine ⟨other, group, List.mem_filterMap.mpr ⟨text, ?_, formed⟩, left, right⟩
    rw [(StableSort.sort_perm _ _).mem_iff, List.mem_eraseDups, List.mem_filterMap]
    exact ⟨terms.get i, by simp [Vector.get_eq_getElem], first⟩

end SloppyPhrase

theorem Posting.nodup_positionsIn {postings : List Posting}
    (inOrder : ∀ posting ∈ postings, posting.positions.Pairwise (· < ·)) (doc : DocId) :
    (positionsIn postings doc).Nodup := by
  unfold positionsIn
  cases found : postings.find? fun posting => posting.doc == doc with
  | none => exact List.nodup_nil
  | some posting => exact (inOrder posting (List.mem_of_find?_eq_some found)).imp ne_of_lt

namespace SloppyShape

open SloppyWalk PhrasePart

variable {S : Type} [Score S] [Score.SumsUp S] {last : Nat} {shape : SloppyShape S last} {doc : DocId}

omit [Score S] [Score.SumsUp S] in
theorem Placed.inDocument {part : PhrasePart} {term : SloppyTerm PositionStream} (placed : Placed part doc term) :
    SloppyWalk.inDocument term = Posting.positionsIn part.postings doc := by
  rw [SloppyWalk.inDocument, placed.choices, placed.offset, shiftedIn, List.map_map]
  exact (List.map_congr_left fun position _ => sub_add_cancel position part.position).trans (List.map_id _)

theorem exists_choice_of_mem_docs (distinct : shape.groups.flatten.Nodup)
    (same : ∀ i j, Paired shape.groups i j → (shape.parts i).postings = (shape.parts j).postings)
    (once : ∀ i j, Paired shape.groups i j → (Posting.positionsIn (shape.parts i).postings doc).Nodup)
    (member : doc ∈ shape.docs) :
    ∃ choice : Fin (last + 1) → Int, (∀ i, choice i ∈ Posting.positionsIn (shape.parts i).postings doc) ∧
      (∀ i j, (choice i - (shape.parts i).position) - (choice j - (shape.parts j).position) ≤ shape.slop) ∧
      ∀ i j, Paired shape.groups i j → choice i ≠ choice j := by
  obtain ⟨⟨-, common⟩, positive⟩ := mem_docs.mp member
  obtain ⟨placed, all, ⟨-, none⟩ | ⟨walk, current, spreads, turn, fresh, -, measured⟩⟩ := measured_from_spread common
  · rw [none, Score.SumsUp.zero] at positive
    cases positive
  · have readable : Readable placed := fun i => (all i).readable
    obtain ⟨enough, terms, again, -, onward, -, -⟩ := spread_yields (shape.groups.flatMap List.zipIdx) readable
    rw [spreads] at again
    obtain ⟨-, rfl⟩ := Prod.mk.inj again
    have apart : Apart shape.groups walk.terms := by
      refine apart_of_spread distinct readable (fun i j paired => ?_) (fun i j paired => ?_) spreads
      · rw [(all i).inDocument, (all j).inDocument, same i j paired]
      · rw [(all i).inDocument]
        exact once i j paired
    obtain ⟨⟨⟩, after, ran, close⟩ := run_closeApart shape.relevance distinct (left walk.terms + 1) walk current _
      (nextShifted walk.queue) turn (fun _ => turn.waits.nextShifted_le) apart onward (turn.closeApart apart onward)
      (fun counted => by rw [fresh, Score.SumsUp.zero] at counted; cases counted) (Nat.lt_succ_self _)
    rw [(measured after ran).1] at positive
    obtain ⟨shifted, listed, near, differ⟩ := close positive
    have offset : ∀ i : Fin (last + 1), (placed.get i).offset = (shape.parts i).position := fun i => (all i).offset
    refine ⟨fun i => shifted i + (shape.parts i).position, fun i => ?_, fun i j => ?_, fun i j paired => ?_⟩
    · change shifted i + (shape.parts i).position ∈ _
      rw [← (all i).inDocument, ← offset i]
      exact List.mem_map_of_mem (listed i)
    · have := near i j
      lia
    · have := differ i j paired
      rwa [offset i, offset j] at this

end SloppyShape

namespace SloppyPhrase

open SloppyShape

variable {P S : Type} [PostingSource P] [Score S] [Score.SumsUp S]

/-- Terms of which those with one text have different places and the same postings, with the positions of each
document strictly in order. -/
structure Repeats {count : Nat} (parts : Fin count → PhrasePart) (terms : Fin count → PhraseTerm P) : Prop where
  places : ∀ i j, SameText terms i j → (parts i).position ≠ (parts j).position
  postings : ∀ i j, SameText terms i j → (parts i).postings = (parts j).postings
  inOrder : ∀ i j, SameText terms i j → ∀ posting ∈ (parts i).postings, posting.positions.Pairwise (· < ·)

/-- Wherever a legal walk has led a sloppy phrase, its document has a position of each term such that all are
close to their places and no two terms with one text share one. -/
theorem walk_keeps_repeats_apart {count : Nat} {parts : Fin count → PhrasePart} {terms : Fin count → PhraseTerm P}
    (makes : PhrasePart.Makes (List.ofFn parts) (List.ofFn terms)) (repeats : Repeats parts terms) {slop : Int}
    (nonneg : 0 ≤ slop) (relevance : Relevance S) :
    ∃ phrase, (ofTerms (List.ofFn terms) slop relevance).outcome = .ok phrase ∧ Cursor.doc phrase = unpositioned ∧
      ∀ state, Reaches phrase state → IsReal (Cursor.doc state) →
        ∃ choice : Fin count → Int, (∀ i, choice i ∈ Posting.positionsIn (parts i).postings (Cursor.doc state)) ∧
          (∀ i j, (choice i - (parts i).position) - (choice j - (parts j).position) ≤ slop) ∧
          ∀ i j, SameText terms i j → choice i ≠ choice j := by
  obtain ⟨last, place, arranged, phrase, same, made, fresh, sound⟩ := ofTerms_places makes nonneg relevance
  have repeated : ∀ {i j}, SameText arranged.get i j → SameText terms (place i) (place j) := by
    rintro i j ⟨other, text, first, second⟩
    exact ⟨place.injective.ne other, text, same i ▸ first, same j ▸ second⟩
  have paired : ∀ {i j}, SloppyWalk.Paired (repeatGroups arranged) i j ↔ SameText arranged.get i j := by
    refine paired_iff fun i j texts => ?_
    rw [same i, same j, (makes.describes (place i)).position, (makes.describes (place j)).position]
    exact repeats.places _ _ (repeated texts)
  refine ⟨phrase, made, fresh, fun state reached real => ?_⟩
  have member := (sound_invariant _).member_of_real ((sound_invariant _).holds_of_reaches sound reached) real
  obtain ⟨choice, listed, near, differ⟩ := exists_choice_of_mem_docs (nodup_repeatGroups arranged)
    (fun i j pair => repeats.postings _ _ (repeated (paired.mp pair)))
    (fun i j pair => Posting.nodup_positionsIn (repeats.inOrder _ _ (repeated (paired.mp pair))) _) member
  -- The choice is made in the order of the phrase, so it is read back at the place of each term there.
  have back : ∀ i, place (place.symm i) = i := place.apply_symm_apply
  refine ⟨fun i => choice (place.symm i), fun i => ?_, fun i j => ?_, fun i j texts => ?_⟩
  · have here := listed (place.symm i)
    simpa only [back] using here
  · have together := near (place.symm i) (place.symm j)
    simpa only [back] using together
  · obtain ⟨other, text, first, second⟩ := texts
    refine differ (place.symm i) (place.symm j) (paired.mpr ⟨place.symm.injective.ne other, text, ?_, ?_⟩)
    · rw [same, back, first]
    · rw [same, back, second]

def twice (i : Fin 2) : PhraseTerm PostingList := ⟨.fresh [⟨4, 2, [3, 7]⟩], i.val, some "bora"⟩

/-- The phrase finds its document, where the two terms take one position each. -/
theorem twice_takes_both_positions :
    ∃ phrase : SloppyPhrase PostingList Float32,
      (ofTerms (List.ofFn twice) 3 (Relevance.constant Score.one Score.one)).outcome = .ok phrase ∧
      Cursor.doc (Cursor.next phrase).2 = 4 ∧
      ∃ choice : Fin 2 → Int, (∀ i, choice i ∈ [3, 7]) ∧ choice 0 ≠ choice 1 := by
  let part (i : Fin 2) : PhrasePart := ⟨[⟨4, 2, [3, 7]⟩], i.val, ⟨⟨rfl, by decide⟩, by decide⟩⟩
  have makes : PhrasePart.Makes (List.ofFn part) (List.ofFn twice) :=
    ⟨.cons ⟨PostingList.standsAt rfl, rfl⟩ (.cons ⟨PostingList.standsAt rfl, rfl⟩ .nil), by simp, by simp [part]⟩
  have repeats : Repeats part twice := by
    refine ⟨fun i j texts => ?_, fun _ _ _ => rfl, fun _ _ _ => by simp [part]⟩
    exact Int.ofNat_inj.not.mpr (Fin.val_ne_of_ne texts.1)
  obtain ⟨phrase, made, fresh, apart⟩ := walk_keeps_repeats_apart makes repeats (show (0 : Int) ≤ 3 by decide)
    (Relevance.constant Score.one Score.one : Relevance Float32)
  have ran : (ofTerms (List.ofFn twice) 3
      (Relevance.constant Score.one Score.one : Relevance Float32)).outcome.toOption.map
        (fun phrase => Cursor.doc (Cursor.next phrase).2) = some 4 := by
    decide +kernel
  rw [made] at ran
  have here : Cursor.doc (Cursor.next phrase).2 = 4 := Option.some.inj ran
  have step : LegalStep phrase (Cursor.next phrase).2 := .next phrase (by rw [fresh]; decide)
  obtain ⟨choice, listed, -, differ⟩ := apart _ (.single step) (by rw [here]; decide)
  rw [here] at listed
  exact ⟨phrase, made, here, choice, listed, differ 0 1 ⟨by decide, "bora", rfl, rfl⟩⟩

/-- A term without a position in a document takes part all the same, so a phrase of three terms matches although
one of them does not occur. -/
theorem term_without_positions_takes_part :
    (ofTerms [⟨(.fresh [⟨0, 2, [0, 1]⟩] : PostingList), 0, some "a"⟩,
        ⟨.fresh [⟨0, 2, [0, 1]⟩], 1, some "a"⟩, ⟨.fresh [⟨0, 0, []⟩], 2, some "b"⟩] 10
      (Relevance.constant Score.one Score.one : Relevance Float32)).outcome.toOption.map
        (fun phrase => (Cursor.next phrase).1.toOption) = some (some 0) ∧
      Posting.positionsIn [⟨0, 0, []⟩] 0 = [] := by
  decide +kernel

end SloppyPhrase

end PostingQuery
