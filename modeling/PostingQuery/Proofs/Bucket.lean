import Mathlib
import PostingQuery.Collect.Window
import PostingQuery.Proofs.InOrder

/-!
The bucket table of one window. Documents of one window have different slots, so a bucket on such a
document tells all that was reported about it. Buckets on earlier documents are out of date, and those
in the list are the others.
-/

namespace PostingQuery

namespace ClauseMask

theorem prohibits_ofClause (prohibited : Bool) : prohibits (ofClause prohibited) = prohibited := by
  cases prohibited with
  | false => rfl
  | true => rfl

theorem prohibits_or (bits mask : UInt32) : prohibits (bits ||| mask) = (prohibits bits || prohibits mask) := by
  have split : (bits ||| mask) &&& prohibitedBit = (bits &&& prohibitedBit) ||| (mask &&& prohibitedBit) :=
    UInt32.toBitVec_inj.mp BitVec.and_or_distrib_right
  rw [prohibits, prohibits, prohibits, split, Bool.eq_iff_iff]
  simp only [Bool.or_eq_true, bne_iff_ne, ne_eq, UInt32.or_eq_zero_iff]
  exact not_and_or

def joined (masks : List UInt32) : UInt32 := masks.foldl (· ||| ·) 0

theorem joined_append (masks : List UInt32) (mask : UInt32) : joined (masks ++ [mask]) = joined masks ||| mask := by
  rw [joined, List.foldl_append]
  rfl

theorem joined_singleton (mask : UInt32) : joined [mask] = mask := UInt32.zero_or

theorem prohibits_joined (masks : List UInt32) : prohibits (joined masks) = masks.any prohibits := by
  induction masks using List.reverseRecOn with
  | nil => rfl
  | append_singleton masks mask ih =>
    rw [joined_append, prohibits_or, ih, List.any_append, List.any_cons, List.any_nil, Bool.or_false]

end ClauseMask

structure Report (S : Type) where
  doc : DocId
  score : S
  mask : UInt32

namespace Report

variable {S : Type}

def about (reports : List (Report S)) (doc : DocId) : List (Report S) :=
  reports.filter fun report => decide (report.doc = doc)

theorem about_append (reports others : List (Report S)) (doc : DocId) :
    about (reports ++ others) doc = about reports doc ++ about others doc :=
  List.filter_append ..

theorem about_eq_nil {reports : List (Report S)} {doc : DocId}
    (none : ∀ report ∈ reports, report.doc ≠ doc) : about reports doc = [] :=
  List.filter_eq_nil_iff.mpr fun report member => by simpa using none report member

theorem about_ne_nil {reports : List (Report S)} {doc : DocId} :
    about reports doc ≠ [] ↔ ∃ report ∈ reports, report.doc = doc := by
  simp [about]

theorem about_singleton (report : Report S) : about [report] report.doc = [report] := by
  simp [about]

theorem about_singleton_of_ne {report : Report S} {doc : DocId} (other : report.doc ≠ doc) :
    about [report] doc = [] := by
  simp [about, other]

def prohibited (report : Report S) : Bool := ClauseMask.prohibits report.mask

def ofHit (prohibited : Bool) (hit : Hit S) : Report S := ⟨hit.doc, hit.score, ClauseMask.ofClause prohibited⟩

theorem prohibited_ofHit (prohibited : Bool) (hit : Hit S) :
    (ofHit prohibited hit).prohibited = prohibited := ClauseMask.prohibits_ofClause prohibited

end Report

namespace BucketTable

variable {S : Type} [Score S] {last : Nat}

/-- The total of some scores as a bucket forms it: it starts with the first one. -/
def gathered : List S → Score.Total S
  | [] => Score.nothing
  | first :: rest => rest.foldl Score.accumulate (Score.widen first)

theorem gathered_append {scores : List S} (some : scores ≠ []) (score : S) :
    gathered (scores ++ [score]) = Score.accumulate (gathered scores) score := by
  cases scores with
  | nil => exact absurd rfl some
  | cons first rest => simp [gathered]

theorem slot_val (doc : DocId) : (slot last doc).val = (doc % (last + 1)).toNat := by
  have positive : (0 : Int) < last + 1 := by omega
  have small := Int.emod_lt_of_pos doc positive
  change (doc % (last + 1)).toNat % (last + 1) = _
  exact Nat.mod_eq_of_lt (by lia)

theorem slot_injective {start doc other : DocId} (from_start : start ≤ doc)
    (inside : doc < start + (last + 1)) (otherFrom : start ≤ other)
    (otherInside : other < start + (last + 1)) (same : slot last doc = slot last other) : doc = other := by
  have values := congrArg Fin.val same
  rw [slot_val, slot_val] at values
  have positive : (0 : Int) < last + 1 := by omega
  have nonneg := Int.emod_nonneg doc positive.ne'
  have otherNonneg := Int.emod_nonneg other positive.ne'
  have equal : doc % (last + 1) = other % (last + 1) := by lia
  have divides := Int.ModEq.dvd (show Int.ModEq (last + 1) other doc from equal.symm)
  have zero := Int.eq_zero_of_abs_lt_dvd divides (abs_lt.mpr ⟨by lia, by lia⟩)
  lia

theorem sink_willing : Collector.Willing S (BucketSink S last) := fun _ _ _ => rfl

structure Tells (reports : List (Report S)) (bucket : Bucket S last) : Prop where
  total : bucket.total = gathered ((Report.about reports bucket.doc).map (·.score))
  bits : bucket.bits = ClauseMask.joined ((Report.about reports bucket.doc).map (·.mask))
  count : bucket.count = (Report.about reports bucket.doc).length

theorem Tells.prohibited {reports : List (Report S)} {bucket : Bucket S last} (tells : Tells reports bucket) :
    bucket.prohibited = (Report.about reports bucket.doc).any (·.prohibited) := by
  rw [Bucket.prohibited, tells.bits, ClauseMask.prohibits_joined, List.any_map]
  rfl

inductive Linked (buckets : Vector (Bucket S last) (last + 1)) :
    Option (Fin (last + 1)) → List (Fin (last + 1)) → Prop where
  | done : Linked buckets none []
  | link (slot : Fin (last + 1)) (slots : List (Fin (last + 1)))
      (rest : Linked buckets (buckets.get slot).next slots) : Linked buckets (some slot) (slot :: slots)

omit [Score S] in
theorem get_set {α : Type} {n : Nat} (elements : Vector α n) (place other : Fin n) (element : α) :
    (elements.set place element place.isLt).get other =
      if place = other then element else elements.get other := by
  simp [Vector.get_eq_getElem, Vector.getElem_set, Fin.ext_iff]

theorem Linked.eq_none {buckets : Vector (Bucket S last) (last + 1)} {head : Option (Fin (last + 1))}
    (linked : Linked buckets head []) : head = none := by
  cases linked
  rfl

theorem Linked.eq_some {buckets : Vector (Bucket S last) (last + 1)} {head : Option (Fin (last + 1))}
    {slot : Fin (last + 1)} {slots : List (Fin (last + 1))} (linked : Linked buckets head (slot :: slots)) :
    head = some slot ∧ Linked buckets (buckets.get slot).next slots := by
  cases linked with
  | link _ _ rest => exact ⟨rfl, rest⟩

theorem Linked.congr {buckets others : Vector (Bucket S last) (last + 1)}
    {head : Option (Fin (last + 1))} {slots : List (Fin (last + 1))} (linked : Linked buckets head slots)
    (same : ∀ slot ∈ slots, (others.get slot).next = (buckets.get slot).next) : Linked others head slots := by
  induction linked with
  | done => exact .done
  | link slot slots _ ih =>
    refine .link slot slots ?_
    rw [same slot List.mem_cons_self]
    exact ih fun other member => same other (List.mem_cons_of_mem slot member)

section Add

variable {table : BucketTable S last} {doc : DocId} (score : S) (mask : UInt32)

theorem add_of_doc_eq (here : (table.buckets.get (slot last doc)).doc = doc) :
    table.add doc score mask = ⟨table.buckets.set (slot last doc)
      { table.buckets.get (slot last doc) with
        total := Score.accumulate (table.buckets.get (slot last doc)).total score
        bits := (table.buckets.get (slot last doc)).bits ||| mask
        count := (table.buckets.get (slot last doc)).count + 1 } (slot last doc).isLt, table.first⟩ := by
  rw [BucketTable.add, if_pos (by simpa [Vector.get_eq_getElem] using here)]
  rfl

theorem add_of_doc_ne (other : (table.buckets.get (slot last doc)).doc ≠ doc) :
    table.add doc score mask = ⟨table.buckets.set (slot last doc)
      ⟨doc, Score.widen score, mask, 1, table.first⟩ (slot last doc).isLt, some (slot last doc)⟩ := by
  rw [BucketTable.add, if_neg (by simpa [Vector.get_eq_getElem] using other)]

end Add

def addAll (table : BucketTable S last) (reports : List (Report S)) : BucketTable S last :=
  reports.foldl (fun table report => table.add report.doc report.score report.mask) table

theorem deliver_table (sink : BucketSink S last) (hits : List (Hit S)) :
    (Collector.deliver sink hits).table = sink.table.addAll (hits.map (Report.ofHit sink.prohibited)) := by
  induction hits generalizing sink with
  | nil => rfl
  | cons hit hits ih => exact ih (Collector.collect sink hit.doc hit.score).2

/-- The table of a window that begins with `start`, after some reports. The buckets in the list are
those on documents of the window. -/
structure Holds (table : BucketTable S last) (start : DocId) (reports : List (Report S))
    (slots : List (Fin (last + 1))) : Prop where
  linked : Linked table.buckets table.first slots
  distinct : slots.Nodup
  listed : ∀ slot, slot ∈ slots ↔ start ≤ (table.buckets.get slot).doc
  placed : ∀ slot ∈ slots, BucketTable.slot last (table.buckets.get slot).doc = slot
  known : ∀ slot ∈ slots, ∃ report ∈ reports, report.doc = (table.buckets.get slot).doc
  tells : ∀ slot ∈ slots, Tells reports (table.buckets.get slot)
  found : ∀ report ∈ reports, (table.buckets.get (BucketTable.slot last report.doc)).doc = report.doc
  inside : ∀ report ∈ reports, start ≤ report.doc ∧ report.doc < start + (last + 1)

theorem holds_nil {table : BucketTable S last} {start : DocId}
    (stale : ∀ slot : Fin (last + 1), (table.buckets.get slot).doc < start) (none : table.first = none) :
    Holds table start [] [] := by
  refine ⟨none ▸ .done, .nil, fun slot => ?_, by simp, by simp, by simp, by simp, by simp⟩
  simpa using stale slot

namespace Holds

variable {table : BucketTable S last} {start : DocId} {reports : List (Report S)}
  {slots : List (Fin (last + 1))}

theorem doc_lt (holds : Holds table start reports slots) {stop : DocId} (le : start ≤ stop)
    (before : ∀ report ∈ reports, report.doc < stop) (slot : Fin (last + 1)) :
    (table.buckets.get slot).doc < stop := by
  by_cases listed : slot ∈ slots
  · obtain ⟨report, member, same⟩ := holds.known slot listed
    rw [← same]
    exact before report member
  · rw [holds.listed, not_le] at listed
    exact listed.trans_le le

theorem first_eq_none_iff (holds : Holds table start reports slots) :
    table.first = none ↔ reports = [] := by
  constructor
  · intro none
    have linked := holds.linked
    rw [none] at linked
    cases linked
    refine List.eq_nil_iff_forall_not_mem.mpr fun report member => ?_
    have here := holds.found report member
    have from_start := (holds.inside report member).1
    exact List.not_mem_nil ((holds.listed _).mpr (from_start.trans_eq here.symm))
  · rintro rfl
    have empty : slots = [] := List.eq_nil_iff_forall_not_mem.mpr fun slot listed => by
      obtain ⟨report, member, -⟩ := holds.known slot listed
      exact List.not_mem_nil member
    have linked := holds.linked
    rw [empty] at linked
    exact linked.eq_none

theorem doc_eq (holds : Holds table start reports slots) {doc : DocId} (from_start : start ≤ doc)
    (before : doc < start + (last + 1)) (listed : slot last doc ∈ slots) :
    (table.buckets.get (slot last doc)).doc = doc := by
  obtain ⟨report, member, same⟩ := holds.known _ listed
  obtain ⟨reportFrom, reportBefore⟩ := holds.inside report member
  have placed := holds.placed _ listed
  rw [← same] at placed ⊢
  exact slot_injective reportFrom reportBefore from_start before placed

theorem tells_append {bucket : Bucket S last} (tells : Tells reports bucket) {report : Report S}
    (other : report.doc ≠ bucket.doc) : Tells (reports ++ [report]) bucket := by
  have same : Report.about (reports ++ [report]) bucket.doc = Report.about reports bucket.doc := by
    rw [Report.about_append, Report.about_singleton_of_ne other, List.append_nil]
  refine ⟨?_, ?_, ?_⟩
  · rw [same, tells.total]
  · rw [same, tells.bits]
  · rw [same, tells.count]

theorem tells_taken {bucket : Bucket S last} (tells : Tells reports bucket) {report : Report S}
    (same : bucket.doc = report.doc) (some : Report.about reports report.doc ≠ []) :
    Tells (reports ++ [report]) { bucket with
      total := Score.accumulate bucket.total report.score
      bits := bucket.bits ||| report.mask
      count := bucket.count + 1 } := by
  have about := Report.about_append reports [report] bucket.doc
  rw [same, Report.about_singleton, ← same] at about
  refine ⟨?_, ?_, ?_⟩
  · rw [about, List.map_append, List.map_singleton, gathered_append (by simpa [same] using some), tells.total]
  · rw [about, List.map_append, List.map_singleton, ClauseMask.joined_append, tells.bits]
  · rw [about, List.length_append, tells.count]
    rfl

theorem tells_first {report : Report S} (unreported : ∀ earlier ∈ reports, earlier.doc ≠ report.doc)
    (next : Option (Fin (last + 1))) :
    Tells (reports ++ [report]) (⟨report.doc, Score.widen report.score, report.mask, 1, next⟩ : Bucket S last) := by
  have about := Report.about_append reports [report] report.doc
  rw [Report.about_singleton, Report.about_eq_nil unreported, List.nil_append] at about
  refine ⟨?_, ?_, ?_⟩
  · rw [about]
    rfl
  · rw [about]
    exact (ClauseMask.joined_singleton report.mask).symm
  · rw [about]
    rfl

theorem put (holds : Holds table start reports slots) {report : Report S} {after : BucketTable S last}
    {listed : List (Fin (last + 1))} (from_start : start ≤ report.doc)
    (before : report.doc < start + (last + 1))
    (here : (after.buckets.get (slot last report.doc)).doc = report.doc)
    (tells : Tells (reports ++ [report]) (after.buckets.get (slot last report.doc)))
    (elsewhere : ∀ place, slot last report.doc ≠ place → after.buckets.get place = table.buckets.get place)
    (linked : Linked after.buckets after.first listed) (distinct : listed.Nodup)
    (mem_listed : ∀ place, place ∈ listed ↔ slot last report.doc = place ∨ place ∈ slots) :
    Holds after start (reports ++ [report]) listed := by
  have old : ∀ place ∈ listed, slot last report.doc ≠ place → place ∈ slots := fun place member other =>
    ((mem_listed place).mp member).resolve_left other
  refine ⟨linked, distinct, fun place => ?_, fun place member => ?_, fun place member => ?_,
    fun place member => ?_, fun other reported => ?_, fun other reported => ?_⟩
  · rw [mem_listed]
    by_cases found : slot last report.doc = place
    · subst found
      simpa [here] using from_start
    · rw [elsewhere place found, holds.listed]
      simp [found]
  · by_cases found : slot last report.doc = place
    · subst found
      rw [here]
    · rw [elsewhere place found]
      exact holds.placed place (old place member found)
  · by_cases found : slot last report.doc = place
    · subst found
      exact ⟨report, by simp, here.symm⟩
    · obtain ⟨earlier, reported, same⟩ := holds.known place (old place member found)
      rw [elsewhere place found]
      exact ⟨earlier, List.mem_append_left _ reported, same⟩
  · by_cases found : slot last report.doc = place
    · subst found
      exact tells
    · rw [elsewhere place found]
      refine tells_append (holds.tells place (old place member found)) fun same => found ?_
      rw [same, holds.placed place (old place member found)]
  · rcases List.mem_append.mp reported with earlier | new
    · by_cases found : slot last report.doc = slot last other.doc
      · obtain ⟨otherFrom, otherBefore⟩ := holds.inside other earlier
        rw [← found, here]
        exact slot_injective from_start before otherFrom otherBefore found
      · rw [elsewhere _ found]
        exact holds.found other earlier
    · rw [List.mem_singleton.mp new, here]
  · rcases List.mem_append.mp reported with earlier | new
    · exact holds.inside other earlier
    · rw [List.mem_singleton.mp new]
      exact ⟨from_start, before⟩

theorem add (holds : Holds table start reports slots) (report : Report S) (from_start : start ≤ report.doc)
    (before : report.doc < start + (last + 1)) :
    ∃ after, Holds (table.add report.doc report.score report.mask) start (reports ++ [report]) after := by
  by_cases here : (table.buckets.get (slot last report.doc)).doc = report.doc
  · rw [add_of_doc_eq report.score report.mask here]
    have listed : slot last report.doc ∈ slots := (holds.listed _).mpr (from_start.trans_eq here.symm)
    obtain ⟨earlier, member, same⟩ := holds.known _ listed
    have some : Report.about reports report.doc ≠ [] :=
      Report.about_ne_nil.mpr ⟨earlier, member, same.trans here⟩
    refine ⟨slots, holds.put from_start before ?_ ?_ (fun place other => ?_)
      (holds.linked.congr fun place _ => ?_) holds.distinct fun place => ?_⟩
    · rw [get_set, if_pos rfl]
      exact here
    · rw [get_set, if_pos rfl]
      exact tells_taken (holds.tells _ listed) here some
    · rw [get_set, if_neg other]
    · rw [get_set]
      split
      next found =>
        subst found
        rfl
      next => rfl
    · constructor
      · exact .inr
      · rintro (rfl | inList)
        · exact listed
        · exact inList
  · rw [add_of_doc_ne report.score report.mask here]
    have unlisted : slot last report.doc ∉ slots := fun listed =>
      here (holds.doc_eq from_start before listed)
    have unreported : ∀ earlier ∈ reports, earlier.doc ≠ report.doc := by
      intro earlier member same
      have found := holds.found earlier member
      rw [same] at found
      exact here found
    refine ⟨slot last report.doc :: slots, holds.put from_start before ?_ ?_ (fun place other => ?_)
      (.link _ _ ?_) (List.nodup_cons.mpr ⟨unlisted, holds.distinct⟩) fun place => ?_⟩
    · rw [get_set, if_pos rfl]
    · rw [get_set, if_pos rfl]
      exact tells_first unreported table.first
    · rw [get_set, if_neg other]
    · rw [get_set, if_pos rfl]
      refine holds.linked.congr fun place inList => ?_
      have other : slot last report.doc ≠ place := fun same => unlisted (same ▸ inList)
      rw [get_set, if_neg other]
    · rw [List.mem_cons, eq_comm]

theorem addAll (holds : Holds table start reports slots) {more : List (Report S)}
    (inside : ∀ report ∈ more, start ≤ report.doc ∧ report.doc < start + (last + 1)) :
    ∃ after, Holds (table.addAll more) start (reports ++ more) after := by
  induction more generalizing table reports slots with
  | nil =>
    rw [List.append_nil]
    exact ⟨slots, holds⟩
  | cons report more ih =>
    obtain ⟨from_start, before⟩ := inside report List.mem_cons_self
    obtain ⟨between, added⟩ := holds.add report from_start before
    obtain ⟨after, rest⟩ := ih added fun later member => inside later (List.mem_cons_of_mem report member)
    rw [List.append_assoc] at rest
    exact ⟨after, rest⟩

theorem deliver {sink : BucketSink S last} (holds : Holds sink.table start reports slots)
    {hits : List (Hit S)} (inside : ∀ hit ∈ hits, start ≤ hit.doc ∧ hit.doc < start + (last + 1)) :
    ∃ after, Holds (Collector.deliver sink hits).table start
      (reports ++ hits.map (Report.ofHit sink.prohibited)) after := by
  rw [deliver_table]
  exact holds.addAll (List.forall_mem_map.mpr inside)

theorem length_le (holds : Holds table start reports slots) : slots.length ≤ last + 1 := by
  have bound := holds.distinct.length_le_card
  rwa [Fintype.card_fin] at bound

end Holds

/-- What a bucket emits: nothing for a prohibited or too rare document. -/
def emission (minimum : Nat) (coordination : CoordinationTable S) (bucket : Bucket S last) :
    Option (Hit S) :=
  if bucket.prohibited then none
  else if minimum ≤ bucket.count then
    some ⟨bucket.doc, Score.scaled bucket.total (coordination.factor bucket.count)⟩
  else none

structure Chosen (reports : List (Report S)) (minimum : Nat) (coordination : CoordinationTable S)
    (hit : Hit S) : Prop where
  some : Report.about reports hit.doc ≠ []
  allowed : ∀ report ∈ Report.about reports hit.doc, report.prohibited = false
  enough : minimum ≤ (Report.about reports hit.doc).length
  score : hit.score = Score.scaled (gathered ((Report.about reports hit.doc).map (·.score)))
    (coordination.factor (Report.about reports hit.doc).length)

theorem emission_eq_some {minimum : Nat} {coordination : CoordinationTable S} {bucket : Bucket S last}
    {hit : Hit S} : emission minimum coordination bucket = some hit ↔
      bucket.prohibited = false ∧ minimum ≤ bucket.count ∧
        ⟨bucket.doc, Score.scaled bucket.total (coordination.factor bucket.count)⟩ = hit := by
  unfold emission
  split
  next prohibited => simp [prohibited]
  next allowed =>
    split
    next enough => simp [allowed, enough]
    next few => simp [few]

namespace Holds

variable {table : BucketTable S last} {start : DocId} {reports : List (Report S)}
  {slots : List (Fin (last + 1))} {minimum : Nat} {coordination : CoordinationTable S}

theorem mem_emitted (holds : Holds table start reports slots) (hit : Hit S) :
    hit ∈ slots.filterMap (fun slot => emission minimum coordination (table.buckets.get slot)) ↔
      Chosen reports minimum coordination hit := by
  rw [List.mem_filterMap]
  constructor
  · rintro ⟨slot, listed, emitted⟩
    obtain ⟨allowed, enough, rfl⟩ := emission_eq_some.mp emitted
    have tells := holds.tells slot listed
    refine ⟨Report.about_ne_nil.mpr (holds.known slot listed), ?_, ?_, ?_⟩
    · rw [tells.prohibited] at allowed
      simpa using allowed
    · rwa [tells.count] at enough
    · rw [tells.total, tells.count]
  · intro chosen
    obtain ⟨doc, score⟩ := hit
    obtain ⟨report, member, rfl⟩ := Report.about_ne_nil.mp chosen.some
    have here := holds.found report member
    have from_start := (holds.inside report member).1
    have listed : slot last report.doc ∈ slots := (holds.listed _).mpr (from_start.trans_eq here.symm)
    have tells := holds.tells _ listed
    have prohibited := tells.prohibited
    obtain ⟨total, -, count⟩ := tells
    rw [here] at total prohibited count
    refine ⟨slot last report.doc, listed, emission_eq_some.mpr ⟨?_, ?_, ?_⟩⟩
    · rw [prohibited]
      simpa using chosen.allowed
    · rw [count]
      exact chosen.enough
    · rw [here, total, count, ← chosen.score]

theorem emitted_nodup (holds : Holds table start reports slots) :
    ((slots.filterMap fun slot => emission minimum coordination (table.buckets.get slot)).map
      (·.doc)).Nodup := by
  rw [List.Nodup, List.pairwise_map, List.pairwise_filterMap]
  refine holds.distinct.imp_of_mem fun {slot other} listed otherListed differ hit emitted otherHit also => ?_
  obtain ⟨-, -, rfl⟩ := emission_eq_some.mp emitted
  obtain ⟨-, -, rfl⟩ := emission_eq_some.mp also
  intro same
  apply differ
  calc slot = BucketTable.slot last (table.buckets.get slot).doc := (holds.placed slot listed).symm
    _ = BucketTable.slot last (table.buckets.get other).doc := congrArg _ same
    _ = other := holds.placed other otherListed

end Holds

end BucketTable

end PostingQuery
