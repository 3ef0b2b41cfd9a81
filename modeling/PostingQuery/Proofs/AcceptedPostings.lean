import Mathlib
import PostingQuery.Proofs.Posting

/-!
Which postings a list can be made of. The documents have to be real and in order, and the positions of each document,
where there are any, have to be as many as its frequency says, in order and not negative. Anything else is refused with
the first fault of the first posting that has one. Positions may repeat: two occurrences can share one.
-/

namespace PostingQuery

namespace Posting

structure WellFormed (postings : List Posting) : Prop where
  real : ∀ posting ∈ postings, IsReal posting.doc
  sorted : postings.Pairwise fun earlier later => earlier.doc < later.doc
  indexed : ∀ posting ∈ postings, posting.positions ≠ [] → posting.Indexed

def Follows (last : DocId) (posting : Posting) : Prop := last < posting.doc ∧ posting.doc < noMoreDocs

/-- What is wrong with a posting behind the document `last`. A fault counts only where those before it are absent. -/
inductive Faulty (last : DocId) (posting : Posting) : Misconfiguration → Prop where
  | document (outside : ¬posting.Follows last) : Faulty last posting (.documentOutOfOrder posting.doc last)
  | count (follows : posting.Follows last) (some : posting.positions ≠ [])
    (miscounted : posting.freq ≠ posting.positions.length) :
    Faulty last posting (.positionCountMismatch posting.doc posting.positions.length posting.freq)
  | order (follows : posting.Follows last) (some : posting.positions ≠ [])
    (counted : posting.freq = posting.positions.length) (unsorted : ¬posting.positions.Pairwise (· ≤ ·)) :
    Faulty last posting (.positionsUnsorted posting.doc)
  | sign (follows : posting.Follows last) (counted : posting.freq = posting.positions.length)
    (sorted : posting.positions.Pairwise (· ≤ ·)) (first : Int) (begins : posting.positions.head? = some first)
    (negative : first < 0) : Faulty last posting (.negativeFirstPosition posting.doc first)

def Faultless (last : DocId) (posting : Posting) : Prop :=
  posting.Follows last ∧ (posting.positions ≠ [] → posting.Indexed)

variable {last : DocId} {posting : Posting} {why : Misconfiguration}

theorem exists_faulty (amiss : ¬Faultless last posting) : ∃ why, Faulty last posting why := by
  by_cases follows : posting.Follows last
  · have some : posting.positions ≠ [] := fun none => amiss ⟨follows, fun some => absurd none some⟩
    by_cases counted : posting.freq = posting.positions.length
    · by_cases sorted : posting.positions.Pairwise (· ≤ ·)
      · obtain ⟨first, rest, same⟩ := List.exists_cons_of_ne_nil some
        have begins : posting.positions.head? = .some first := by rw [same, List.head?_cons]
        refine ⟨_, .sign follows counted sorted first begins (not_le.mp fun nonneg => ?_)⟩
        refine amiss ⟨follows, fun _ => ⟨counted, sorted, fun position member => nonneg.trans ?_⟩⟩
        rw [same] at sorted member
        rcases List.mem_cons.mp member with head | tail
        · exact head.ge
        · exact (List.pairwise_cons.mp sorted).1 position tail
      · exact ⟨_, .order follows some counted sorted⟩
    · exact ⟨_, .count follows some counted⟩
  · exact ⟨_, .document follows⟩

theorem Follows.inOrder (follows : posting.Follows last) : ¬(posting.doc ≤ last ∨ posting.doc = noMoreDocs) := by
  rintro (before | ended)
  · exact absurd follows.1 (not_lt.mpr before)
  · exact absurd ended follows.2.ne

theorem areSorted_iff {positions : List Int} : areSorted positions = true ↔ positions.Pairwise (· ≤ ·) := by
  refine ⟨pairwise_of_areSorted, fun sorted => ?_⟩
  induction positions with
  | nil => rfl
  | cons x rest ih =>
    cases rest with
    | nil => rfl
    | cons y rest =>
      rw [areSorted, Bool.and_eq_true, decide_eq_true_iff]
      exact ⟨(List.pairwise_cons.mp sorted).1 y List.mem_cons_self, ih (List.pairwise_cons.mp sorted).2⟩

theorem Follows.refusal_eq (follows : posting.Follows last) {first : Int} (begins : posting.positions.head? = some first) :
    posting.refusal last =
      if (posting.positions.length : Int) ≠ posting.freq then
        some (.positionCountMismatch posting.doc posting.positions.length posting.freq)
      else if ¬posting.positions.Pairwise (· ≤ ·) then some (.positionsUnsorted posting.doc)
      else if first < 0 then some (.negativeFirstPosition posting.doc first)
      else none := by
  obtain ⟨rest, same⟩ := List.head?_eq_some_iff.mp begins
  rw [refusal, if_neg follows.inOrder, same]
  simp only [← areSorted_iff, List.length_cons, Nat.cast_succ, Bool.not_eq_true', Bool.not_eq_true]

theorem Faulty.refusal_eq_some (faulty : Faulty last posting why) (inside : posting.doc ≤ noMoreDocs) :
    posting.refusal last = some why := by
  cases faulty with
  | document outside =>
    have disorder : posting.doc ≤ last ∨ posting.doc = noMoreDocs := by
      by_contra inOrder
      rw [not_or, not_le] at inOrder
      exact outside ⟨inOrder.1, lt_of_le_of_ne inside inOrder.2⟩
    rw [refusal, if_pos disorder]
  | count follows some miscounted =>
    rw [follows.refusal_eq (List.head?_eq_some_head some), if_pos miscounted.symm]
  | order follows some counted unsorted =>
    rw [follows.refusal_eq (List.head?_eq_some_head some), if_neg (not_not.mpr counted.symm), if_pos unsorted]
  | sign follows counted sorted first begins negative =>
    rw [follows.refusal_eq begins, if_neg (not_not.mpr counted.symm), if_neg (not_not.mpr sorted), if_pos negative]

theorem Faultless.refusal_eq_none (faultless : Faultless last posting) : posting.refusal last = none := by
  obtain ⟨follows, indexed⟩ := faultless
  cases begins : posting.positions.head? with
  | none => rw [refusal, if_neg follows.inOrder, List.head?_eq_none_iff.mp begins]
  | some first =>
    have listed := List.mem_of_head? begins
    obtain ⟨counted, sorted, nonneg⟩ := indexed (List.ne_nil_of_mem listed)
    rw [follows.refusal_eq begins, if_neg (not_not.mpr counted.symm), if_neg (not_not.mpr sorted),
      if_neg (not_lt.mpr (nonneg first listed))]

theorem refusal_eq_none_iff (inside : posting.doc ≤ noMoreDocs) :
    posting.refusal last = none ↔ Faultless last posting := by
  refine ⟨fun unrefused => ?_, Faultless.refusal_eq_none⟩
  obtain ⟨after, notEnded, indexed⟩ := refusal_eq_none unrefused
  exact ⟨⟨after, lt_of_le_of_ne inside notEnded⟩, indexed⟩

theorem refusal_eq_some_iff (inside : posting.doc ≤ noMoreDocs) :
    posting.refusal last = some why ↔ Faulty last posting why := by
  refine ⟨fun refused => ?_, fun faulty => faulty.refusal_eq_some inside⟩
  have amiss : ¬Faultless last posting := fun faultless => by
    rw [faultless.refusal_eq_none] at refused
    cases refused
  obtain ⟨other, faulty⟩ := exists_faulty amiss
  obtain rfl := Option.some.inj ((faulty.refusal_eq_some inside).symm.trans refused)
  exact faulty

section Lists

variable {postings : List Posting} (inside : ∀ posting ∈ postings, posting.doc ≤ noMoreDocs)
include inside

theorem firstRefusal_eq_none_iff : firstRefusal last postings = none ↔
    (last :: postings.map (·.doc)).IsChain (· < ·) ∧
      ∀ posting ∈ postings, posting.doc < noMoreDocs ∧ (posting.positions ≠ [] → posting.Indexed) := by
  induction postings generalizing last with
  | nil => simp [firstRefusal]
  | cons posting rest ih =>
    obtain ⟨first, others⟩ := List.forall_mem_cons.mp inside
    have step : firstRefusal last (posting :: rest) = none ↔
        posting.refusal last = none ∧ firstRefusal posting.doc rest = none := by
      rw [firstRefusal]
      cases posting.refusal last <;> simp
    rw [step, refusal_eq_none_iff first, ih others, List.map_cons, List.isChain_cons_cons, List.forall_mem_cons,
      Faultless, Follows]
    tauto

theorem firstRefusal_eq_some_iff : firstRefusal last postings = some why ↔
    ∃ passed posting rest, postings = passed ++ posting :: rest ∧ firstRefusal last passed = none ∧
      Faulty ((passed.map (·.doc)).getLastD last) posting why := by
  induction postings generalizing last with
  | nil => simp [firstRefusal]
  | cons head tail ih =>
    obtain ⟨first, others⟩ := List.forall_mem_cons.mp inside
    constructor
    · intro refused
      rw [firstRefusal] at refused
      cases checked : head.refusal last with
      | some other =>
        rw [checked] at refused
        obtain rfl := Option.some.inj refused
        exact ⟨[], head, tail, rfl, rfl, (refusal_eq_some_iff first).mp checked⟩
      | none =>
        rw [checked] at refused
        obtain ⟨passed, posting, rest, rfl, unrefused, faulty⟩ := (ih others).mp refused
        refine ⟨head :: passed, posting, rest, rfl, ?_, ?_⟩
        · rw [firstRefusal, checked]
          exact unrefused
        · rwa [List.map_cons, List.getLastD_cons]
    · rintro ⟨passed, posting, rest, split, unrefused, faulty⟩
      cases passed with
      | nil =>
        obtain ⟨rfl, rfl⟩ := List.cons.inj split
        have refused : head.refusal last = some why := (refusal_eq_some_iff first).mpr faulty
        rw [firstRefusal, refused]
      | cons other passed =>
        obtain ⟨rfl, rfl⟩ := List.cons.inj split
        obtain ⟨checked, unrefusedRest⟩ := firstRefusal_cons_eq_none unrefused
        rw [List.map_cons, List.getLastD_cons] at faulty
        rw [firstRefusal, checked]
        exact (ih others).mpr ⟨passed, posting, rest, rfl, unrefusedRest, faulty⟩

theorem unrefused_iff_wellFormed : firstRefusal unpositioned postings = none ↔ WellFormed postings := by
  rw [firstRefusal_eq_none_iff inside, List.isChain_iff_pairwise, List.pairwise_cons, List.pairwise_map,
    List.forall_mem_map]
  constructor
  · rintro ⟨⟨beyond, sorted⟩, each⟩
    exact ⟨fun posting member => ⟨nonneg_of_unpositioned_lt (beyond posting member), (each posting member).1⟩, sorted,
      fun posting member => (each posting member).2⟩
  · rintro ⟨real, sorted, indexed⟩
    refine ⟨⟨fun posting member => ?_, sorted⟩, fun posting member => ⟨(real posting member).2, indexed posting member⟩⟩
    exact lt_of_lt_of_le (by decide) (real posting member).1

end Lists

end Posting

namespace PostingList

variable {postings : List Posting}

theorem ofPostings_eq_ok_iff {list : PostingList} : ofPostings postings = .ok list ↔
    Posting.firstRefusal unpositioned postings = none ∧ list = fresh postings := by
  unfold ofPostings
  cases Posting.firstRefusal unpositioned postings <;> simp [eq_comm]

theorem ofPostings_eq_error_iff {failure : Failure} : ofPostings postings = .error failure ↔
    ∃ why, Posting.firstRefusal unpositioned postings = some why ∧ failure = .invalidConfiguration why := by
  unfold ofPostings
  cases Posting.firstRefusal unpositioned postings <;> simp [eq_comm]

/-- A list is made of postings if and only if they are well formed. Otherwise they are refused, with the fault of the
first posting that has one behind well-formed ones. -/
theorem accepts_well_formed_postings (inside : ∀ posting ∈ postings, posting.doc ≤ noMoreDocs) :
    (Posting.WellFormed postings → ofPostings postings = .ok (fresh postings)) ∧
      (¬Posting.WellFormed postings → ∃ passed posting rest why, postings = passed ++ posting :: rest ∧
        Posting.WellFormed passed ∧ posting.Faulty ((passed.map (·.doc)).getLastD unpositioned) why ∧
        ofPostings postings = .error (.invalidConfiguration why)) := by
  constructor
  · intro wellFormed
    exact ofPostings_eq_ok_iff.mpr ⟨(Posting.unrefused_iff_wellFormed inside).mpr wellFormed, rfl⟩
  · intro malformed
    obtain ⟨why, refused⟩ := Option.ne_none_iff_exists'.mp fun unrefused =>
      malformed ((Posting.unrefused_iff_wellFormed inside).mp unrefused)
    obtain ⟨passed, posting, rest, split, unrefused, faulty⟩ := (Posting.firstRefusal_eq_some_iff inside).mp refused
    have passedInside : ∀ other ∈ passed, other.doc ≤ noMoreDocs := fun other member =>
      inside other (split ▸ List.mem_append_left _ member)
    exact ⟨passed, posting, rest, why, split, (Posting.unrefused_iff_wellFormed passedInside).mp unrefused, faulty,
      ofPostings_eq_error_iff.mpr ⟨why, refused, rfl⟩⟩

/-- Of the postings that lists are made of, those without repeated positions are the ones whose positions are strictly
increasing. Only repeated positions are let through beyond these. -/
theorem accepts_distinct_positions_iff (inside : ∀ posting ∈ postings, posting.doc ≤ noMoreDocs) :
    ((∃ list, ofPostings postings = .ok list) ∧ ∀ posting ∈ postings, posting.positions.Nodup) ↔
      (∀ posting ∈ postings, IsReal posting.doc) ∧ (postings.Pairwise fun earlier later => earlier.doc < later.doc) ∧
        ∀ posting ∈ postings, posting.positions ≠ [] → posting.freq = posting.positions.length ∧
          posting.positions.Pairwise (· < ·) ∧ ∀ position ∈ posting.positions, 0 ≤ position := by
  have strict : ∀ positions : List Int,
      positions.Pairwise (· < ·) ↔ positions.Pairwise (· ≤ ·) ∧ positions.Nodup := by
    intro positions
    simp only [lt_iff_le_and_ne, List.pairwise_and_iff, List.Nodup]
  have accepted : (∃ list, ofPostings postings = .ok list) ↔ Posting.WellFormed postings := by
    simp only [ofPostings_eq_ok_iff, exists_and_left, exists_eq, and_true, Posting.unrefused_iff_wellFormed inside]
  rw [accepted]
  constructor
  · rintro ⟨⟨real, sorted, indexed⟩, distinct⟩
    refine ⟨real, sorted, fun posting member some => ?_⟩
    obtain ⟨counted, chain, nonneg⟩ := indexed posting member some
    exact ⟨counted, (strict _).mpr ⟨chain, distinct posting member⟩, nonneg⟩
  · rintro ⟨real, sorted, each⟩
    refine ⟨⟨real, sorted, fun posting member some => ?_⟩, fun posting member => ?_⟩
    · obtain ⟨counted, chain, nonneg⟩ := each posting member some
      exact ⟨counted, ((strict _).mp chain).1, nonneg⟩
    · by_cases none : posting.positions = []
      · exact none ▸ List.nodup_nil
      · exact ((strict _).mp (each posting member none).2.1).2

/-- Two occurrences of a term at one position of document 0 are accepted. -/
theorem repeated_position_is_accepted : ∃ list, ofPostings [⟨0, 2, [4, 4]⟩] = .ok list ∧ ¬[4, 4].Pairwise (· < ·) :=
  ⟨_, rfl, by decide⟩

end PostingList

end PostingQuery
