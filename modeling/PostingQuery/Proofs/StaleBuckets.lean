import Mathlib
import PostingQuery.Proofs.Bucket
import PostingQuery.Proofs.ExactScore

/-!
Buckets that are out of date. The table is never cleared, so a window begins with whatever has been left in it:
documents, totals and counts of other windows, and links that lead anywhere. None of it matters. A bucket that
holds a document of another window is overwritten, its link included, before anything is read from it, so two
tables that differ in such buckets alone take up the same reports in the same way.
-/

namespace PostingQuery

namespace BucketTable

variable {S : Type} [Score S] {last : Nat}

def InWindow (last : Nat) (start doc : DocId) : Prop := start ≤ doc ∧ doc < start + (last + 1)

theorem slot_val_eq_and {exponent : Nat} (size : last + 1 = 2 ^ exponent) {doc : DocId} (nonneg : 0 ≤ doc) :
    (slot last doc).val = doc.toNat &&& last := by
  have mask : last = 2 ^ exponent - 1 := by omega
  have number : (doc % (last + 1)).toNat = doc.toNat % (last + 1) := by
    obtain ⟨number, rfl⟩ := Int.eq_ofNat_of_zero_le nonneg
    rfl
  rw [slot_val, number, size]
  conv_rhs => rw [mask]
  exact (Nat.and_two_pow_sub_one_eq_mod _ _).symm

/-- Tables with one list head that differ in buckets of other windows alone. -/
structure Alike (start : DocId) (table other : BucketTable S last) : Prop where
  first : table.first = other.first
  buckets : ∀ slot : Fin (last + 1), table.buckets.get slot = other.buckets.get slot ∨
    ¬InWindow last start (table.buckets.get slot).doc ∧ ¬InWindow last start (other.buckets.get slot).doc

namespace Alike

variable {start : DocId} {table other : BucketTable S last}

theorem set (alike : Alike start table other) (place : Fin (last + 1)) (bucket : Bucket S last)
    (head : Option (Fin (last + 1))) :
    Alike start ⟨table.buckets.set place bucket place.isLt, head⟩
      ⟨other.buckets.set place bucket place.isLt, head⟩ := by
  refine ⟨rfl, fun slot => ?_⟩
  rw [get_set, get_set]
  by_cases here : place = slot
  · rw [if_pos here, if_pos here]
    exact .inl rfl
  · rw [if_neg here, if_neg here]
    exact alike.buckets slot

theorem add (alike : Alike start table other) {doc : DocId} (inside : InWindow last start doc) (score : S)
    (mask : UInt32) : Alike start (table.add doc score mask) (other.add doc score mask) := by
  rcases alike.buckets (slot last doc) with same | ⟨stale, otherStale⟩
  · by_cases here : (table.buckets.get (slot last doc)).doc = doc
    · have there : (other.buckets.get (slot last doc)).doc = doc := same ▸ here
      rw [add_of_doc_eq score mask here, add_of_doc_eq score mask there, same, alike.first]
      exact alike.set _ _ _
    · have there : (other.buckets.get (slot last doc)).doc ≠ doc := same ▸ here
      rw [add_of_doc_ne score mask here, add_of_doc_ne score mask there, alike.first]
      exact alike.set _ _ _
  · have here : (table.buckets.get (slot last doc)).doc ≠ doc := fun same => stale (by rwa [same])
    have there : (other.buckets.get (slot last doc)).doc ≠ doc := fun same => otherStale (by rwa [same])
    rw [add_of_doc_ne score mask here, add_of_doc_ne score mask there, alike.first]
    exact alike.set _ _ _

theorem addAll (alike : Alike start table other) {reports : List (Report S)}
    (inside : ∀ report ∈ reports, InWindow last start report.doc) :
    Alike start (table.addAll reports) (other.addAll reports) := by
  induction reports generalizing table other with
  | nil => exact alike
  | cons report reports ih =>
    have added := alike.add (inside report List.mem_cons_self) report.score report.mask
    exact ih added fun later member => inside later (List.mem_cons_of_mem report member)

theorem get_eq (alike : Alike start table other) {slot : Fin (last + 1)}
    (inside : InWindow last start (other.buckets.get slot).doc) :
    table.buckets.get slot = other.buckets.get slot :=
  (alike.buckets slot).resolve_right fun stale => stale.2 inside

end Alike

def outOfDate (last : Nat) (start : DocId) : BucketTable S last :=
  ⟨.replicate (last + 1) ⟨start - 1, Score.nothing, 0, 0, none⟩, none⟩

theorem outOfDate_doc (start : DocId) (slot : Fin (last + 1)) :
    ((outOfDate (S := S) last start).buckets.get slot).doc = start - 1 := by
  simp [outOfDate, Vector.get_eq_getElem]

/-- What other windows have left in a table is as good as buckets on the document before the window. -/
theorem alike_outOfDate {start : DocId} {table : BucketTable S last} (unused : table.first = none)
    (stale : ∀ slot : Fin (last + 1), ¬InWindow last start (table.buckets.get slot).doc) :
    Alike start table (outOfDate last start) := by
  refine ⟨unused, fun slot => .inr ⟨stale slot, fun inside => ?_⟩⟩
  have before := inside.1
  rw [outOfDate_doc] at before
  lia

namespace Holds

variable {table : BucketTable S last} {start : DocId} {reports : List (Report S)} {slots : List (Fin (last + 1))}

theorem inWindow (holds : Holds table start reports slots) {slot : Fin (last + 1)} (listed : slot ∈ slots) :
    InWindow last start (table.buckets.get slot).doc := by
  obtain ⟨report, member, same⟩ := holds.known slot listed
  exact same ▸ holds.inside report member

theorem mem_docs (holds : Holds table start reports slots) (doc : DocId) :
    doc ∈ slots.map (fun slot => (table.buckets.get slot).doc) ↔ ∃ report ∈ reports, report.doc = doc := by
  constructor
  · intro member
    obtain ⟨slot, listed, rfl⟩ := List.mem_map.mp member
    exact holds.known slot listed
  · rintro ⟨report, member, rfl⟩
    have found := holds.found report member
    have low := (holds.inside report member).1
    exact List.mem_map.mpr ⟨_, (holds.listed _).mpr (low.trans_eq found.symm), found⟩

theorem docs_nodup (holds : Holds table start reports slots) :
    (slots.map fun slot => (table.buckets.get slot).doc).Nodup := by
  refine List.Nodup.map_on (fun slot listed other otherListed same => ?_) holds.distinct
  rw [← holds.placed slot listed, ← holds.placed other otherListed, same]

end Holds

/-- Whatever a table of a power of two buckets has been left with, as long as no list is begun and no bucket is on
a document of the window, the reports about the window's documents end up in a list that has one bucket for each
reported document. The bucket lies where the lowest bits of the document say, counts its reports, and has the bits
of all their masks and the total of their scores in the order in which they came. -/
theorem list_gathers_reports_of_window {exponent : Nat} (size : last + 1 = 2 ^ exponent) (window : Nat)
    {table : BucketTable S last} (unused : table.first = none)
    (stale : ∀ slot : Fin (last + 1), ¬InWindow last (window * (last + 1)) (table.buckets.get slot).doc)
    {reports : List (Report S)} (inside : ∀ report ∈ reports, InWindow last (window * (last + 1)) report.doc) :
    ∃ slots, Linked (table.addAll reports).buckets (table.addAll reports).first slots ∧
      (slots.map fun slot => ((table.addAll reports).buckets.get slot).doc).Nodup ∧
      (∀ doc, doc ∈ slots.map (fun slot => ((table.addAll reports).buckets.get slot).doc) ↔
        ∃ report ∈ reports, report.doc = doc) ∧
      ∀ slot ∈ slots, slot.val = ((table.addAll reports).buckets.get slot).doc.toNat &&& last ∧
        Tells reports ((table.addAll reports).buckets.get slot) := by
  have alike := (alike_outOfDate unused stale).addAll inside
  have fresh : Holds (outOfDate last (window * (last + 1))) (window * (last + 1)) ([] : List (Report S)) [] :=
    holds_nil (fun slot => by rw [outOfDate_doc]; exact Int.sub_one_lt_of_le le_rfl) rfl
  obtain ⟨slots, holds⟩ := fresh.addAll inside
  rw [List.nil_append] at holds
  generalize (outOfDate last (window * (last + 1))).addAll reports = mirror at alike holds
  have same : ∀ slot ∈ slots, (table.addAll reports).buckets.get slot = mirror.buckets.get slot :=
    fun slot listed => alike.get_eq (holds.inWindow listed)
  have docs : slots.map (fun slot => ((table.addAll reports).buckets.get slot).doc) =
      slots.map fun slot => (mirror.buckets.get slot).doc :=
    List.map_congr_left fun slot listed => congrArg Bucket.doc (same slot listed)
  refine ⟨slots, ?_, ?_, ?_, fun slot listed => ?_⟩
  · rw [alike.first]
    exact holds.linked.congr fun slot listed => congrArg Bucket.next (same slot listed)
  · rw [docs]
    exact holds.docs_nodup
  · rw [docs]
    exact holds.mem_docs
  · rw [same slot listed]
    have start : (0 : Int) ≤ window * (last + 1) := by positivity
    refine ⟨?_, holds.tells slot listed⟩
    rw [← slot_val_eq_and size (start.trans (holds.inWindow listed).1), holds.placed slot listed]

/-- A table of four buckets in which two of other windows lead to each other. The window of the documents 4 to 7
begins with it. -/
theorem circle_of_stale_buckets_is_left_behind :
    let table : BucketTable ℚ 3 :=
      ⟨#v[⟨8, (5 : ℚ), 1, 3, some 2⟩, ⟨1, (2 : ℚ), 0, 1, some 0⟩, ⟨2, (7 : ℚ), 1, 2, some 0⟩,
        ⟨11, (1 : ℚ), 0, 1, none⟩], none⟩
    let reports : List (Report ℚ) := [⟨6, 1 / 2, 0⟩, ⟨4, 1, 4⟩, ⟨6, 1 / 4, 3⟩]
    3 + 1 = 2 ^ 2 ∧ table.first = none ∧
      (∀ slot : Fin 4, ¬InWindow 3 ((1 : Nat) * ((3 : Nat) + 1)) (table.buckets.get slot).doc) ∧
      (∀ report ∈ reports, InWindow 3 ((1 : Nat) * ((3 : Nat) + 1)) report.doc) ∧
      ∃ slots, Linked (table.addAll reports).buckets (table.addAll reports).first slots ∧
        (slots.map fun slot => ((table.addAll reports).buckets.get slot).doc).Perm [4, 6] ∧
        ∀ slot ∈ slots, ((table.addAll reports).buckets.get slot).doc = 6 →
          ((table.addAll reports).buckets.get slot).count = 2 ∧
          ((table.addAll reports).buckets.get slot).bits = 3 ∧
          ((table.addAll reports).buckets.get slot).total = (3 / 4 : ℚ) := by
  intro table reports
  have size : 3 + 1 = 2 ^ 2 := rfl
  have stale : ∀ slot : Fin 4, ¬InWindow 3 ((1 : Nat) * ((3 : Nat) + 1)) (table.buckets.get slot).doc := by
    unfold InWindow
    decide
  have inside : ∀ report ∈ reports, InWindow 3 ((1 : Nat) * ((3 : Nat) + 1)) report.doc := by
    simp [reports, InWindow]
  obtain ⟨slots, linked, distinct, docs, tells⟩ := list_gathers_reports_of_window size 1 rfl stale inside
  refine ⟨size, rfl, stale, inside, slots, linked, ?_, fun slot listed here => ?_⟩
  · have known : ∀ doc, (∃ report ∈ reports, report.doc = doc) ↔ doc ∈ [4, 6] := by
      intro doc
      simp only [reports, List.mem_cons]
      grind
    exact (List.perm_ext_iff_of_nodup distinct (by decide)).mpr fun doc => (docs doc).trans (known doc)
  · obtain ⟨total, bits, count⟩ := (tells slot listed).2
    rw [here] at total bits count
    exact ⟨count, bits, total.trans (show (1 / 2 : ℚ) + 1 / 4 = 3 / 4 by norm_num)⟩

end BucketTable

end PostingQuery
