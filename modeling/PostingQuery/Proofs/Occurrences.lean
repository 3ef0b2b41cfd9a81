import Mathlib
import PostingQuery.Phrase.Exact
import PostingQuery.Proofs.Chains
import PostingQuery.Proofs.PhraseTerm

/-!
The occurrences of an exact phrase in one document. Each term reads its starts chunk by chunk, and the
starts that all terms share are counted once each.
-/

namespace PostingQuery

namespace PhrasePart

def starts (part : PhrasePart) (first : Int) (doc : DocId) : List Int :=
  (Posting.positionsIn part.postings doc).map (first - part.position + ·)

def IsFirst (parts : List PhrasePart) (first : Int) : Prop :=
  IsLeast {position | ∃ part ∈ parts, part.position = position} first

noncomputable def occurrences (parts : List PhrasePart) (first : Int) (doc : DocId) : Finset Int :=
  (Finset.Icc 0 2147483647).filter fun start => ∀ part ∈ parts, start ∈ part.starts first doc

variable {part : PhrasePart} {first : Int} {doc : DocId}

theorem starts_eq (part : PhrasePart) (first : Int) {posting : Posting} (member : posting ∈ part.postings)
    (here : posting.doc = doc) :
    part.starts first doc = posting.positions.map (first - part.position + ·) := by
  rw [starts, ← here, part.positioned.positionsIn_eq member]

theorem starts_sorted (part : PhrasePart) (first : Int) (member : doc ∈ Posting.docs part.postings) :
    (part.starts first doc).Pairwise (· ≤ ·) := by
  obtain ⟨posting, listed, here⟩ := Posting.mem_docs.mp member
  rw [part.starts_eq first listed here]
  refine (part.positioned.indexes listed).sorted.map _ fun a b le => ?_
  lia

theorem bounds_of_mem_starts {start : Int} (member : start ∈ part.starts first doc) :
    first - part.position ≤ start ∧ start ≤ 2147483647 + (first - part.position) := by
  obtain ⟨position, listed, rfl⟩ := List.mem_map.mp member
  rw [Posting.positionsIn] at listed
  cases found : part.postings.find? fun posting => posting.doc == doc with
  | none =>
    rw [found] at listed
    cases listed
  | some posting =>
    rw [found] at listed
    have bounds := part.positioned.bounds (List.mem_of_find?_eq_some found) listed
    lia

/-- The term on the least place keeps every shared start within the range of positions. -/
theorem mem_occurrences {parts : List PhrasePart} (least : IsFirst parts first) {start : Int} :
    start ∈ occurrences parts first doc ↔ ∀ part ∈ parts, start ∈ part.starts first doc := by
  rw [occurrences, Finset.mem_filter, Finset.mem_Icc, and_iff_right_iff_imp]
  intro shared
  obtain ⟨part, member, lowest⟩ := least.1
  have bounds := bounds_of_mem_starts (shared part member)
  lia

/-- A phrase occurs in a document from a start on: each term has the position that lies as far behind the
start as its place lies behind the least one. -/
def OccursAt (parts : List PhrasePart) (first : Int) (doc : DocId) (start : Int) : Prop :=
  ∀ part ∈ parts, start + (part.position - first) ∈ Posting.positionsIn part.postings doc

theorem mem_occurrences_iff {parts : List PhrasePart} (least : IsFirst parts first) {start : Int} :
    start ∈ occurrences parts first doc ↔ OccursAt parts first doc start := by
  rw [mem_occurrences least]
  refine forall₂_congr fun part _ => ?_
  rw [starts, List.mem_map]
  constructor
  · rintro ⟨position, listed, rfl⟩
    rwa [show first - part.position + position + (part.position - first) = position by ring]
  · exact fun listed => ⟨_, listed, by ring⟩

theorem isFirst_perm {parts others : List PhrasePart} (perm : parts.Perm others) :
    IsFirst parts first ↔ IsFirst others first := by
  simp only [IsFirst, perm.mem_iff]

theorem occurrences_perm {parts others : List PhrasePart} (perm : parts.Perm others) :
    occurrences parts first doc = occurrences others first doc := by
  simp only [occurrences, perm.mem_iff]

theorem isFirst_foldl (lead : PhrasePart) (followers : List PhrasePart) :
    IsFirst (lead :: followers) (followers.foldl (fun least part => min least part.position) lead.position) := by
  induction followers using List.reverseRecOn with
  | nil => exact ⟨⟨lead, List.mem_cons_self, rfl⟩, by rintro _ ⟨part, member, rfl⟩; simp_all⟩
  | append_singleton followers part ih =>
    obtain ⟨⟨least, member, same⟩, lower⟩ := ih
    rw [List.foldl_append, List.foldl_cons, List.foldl_nil]
    generalize followers.foldl (fun least part => min least part.position) lead.position = before at same lower
    refine ⟨?_, ?_⟩
    · rcases min_choice before part.position with earlier | own
      · exact ⟨least, List.mem_append_left [part] member, same.trans earlier.symm⟩
      · exact ⟨part, List.mem_append_right (lead :: followers) (List.mem_singleton_self part), own.symm⟩
    · rintro _ ⟨other, listed, rfl⟩
      rcases List.mem_append.mp (show other ∈ (lead :: followers) ++ [part] from listed) with early | here
      · exact (min_le_left _ _).trans (lower ⟨other, early, rfl⟩)
      · exact List.mem_singleton.mp here ▸ min_le_right _ _

end PhrasePart

section Reading

variable {P : Type} [PostingSource P] {stands : List Posting → P → PostingPlace → Prop} {failing : Prop}
  {part : PhrasePart} {first : Int} {doc : DocId}

namespace ExactTerm

def On (stands : List Posting → P → PostingPlace → Prop) (part : PhrasePart) (first : Int) (doc : DocId)
    (term : ExactTerm P) : Prop :=
  term.offset = first - part.position ∧ ∃ place, stands part.postings term.postings place ∧ place.doc = doc

def Fresh (stands : List Posting → P → PostingPlace → Prop) (part : PhrasePart) (first : Int) (doc : DocId)
    (term : ExactTerm P) : Prop :=
  term.offset = first - part.position ∧ Untouched stands part.postings doc term.postings

/-- The starts before the one that was read last, and the positions that are still unread. -/
structure Reads (stands : List Posting → P → PostingPlace → Prop) (part : PhrasePart) (first : Int) (doc : DocId)
    (before rest : List Int) (term : ExactTerm P) : Prop where
  stands : ∃ posting ∈ part.postings, posting.doc = doc ∧
    stands part.postings term.postings (.reading posting rest)
  unread : term.unread = rest.length
  offset : term.offset = first - part.position
  split : part.starts first doc = before ++ term.start :: rest.map (first - part.position + ·)

def Pending (stands : List Posting → P → PostingPlace → Prop) (part : PhrasePart) (first : Int) (doc : DocId)
    (low : Int) (term : ExactTerm P) : Prop :=
  term.seen < low ∧
    ∃ before rest, Reads stands part first doc before rest term ∧ ∀ start ∈ before, start < low

variable {α : Type} {size : Nat} {term : ExactTerm P} {before rest : List Int} {low bound : Int}

omit [PostingSource P] in
theorem Fresh.on (fresh : Fresh stands part first doc term) : On stands part first doc term := by
  obtain ⟨offset, posting, -, here, reading⟩ := fresh
  exact ⟨offset, _, reading, here⟩

omit [PostingSource P] in
theorem Fresh.mem_docs (fresh : Fresh stands part first doc term) : doc ∈ Posting.docs part.postings := by
  obtain ⟨-, posting, listed, here, -⟩ := fresh
  exact Posting.mem_docs.mpr ⟨posting, listed, here⟩

omit [PostingSource P] in
theorem Reads.on (reads : Reads stands part first doc before rest term) : On stands part first doc term := by
  obtain ⟨posting, -, here, reading⟩ := reads.stands
  exact ⟨reads.offset, _, reading, here⟩

omit [PostingSource P] in
theorem Reads.sorted (reads : Reads stands part first doc before rest term) :
    ∀ start ∈ before, start ≤ term.start := by
  obtain ⟨posting, member, here, -⟩ := reads.stands
  have sorted := part.starts_sorted first (Posting.mem_docs.mpr ⟨posting, member, here⟩)
  rw [reads.split, List.pairwise_append] at sorted
  exact fun start listed => sorted.2.2 start listed term.start List.mem_cons_self

omit [PostingSource P] in
theorem Pending.mono (pending : Pending stands part first doc low term) (le : low ≤ bound) :
    Pending stands part first doc bound term := by
  obtain ⟨seen, before, rest, reads, passed⟩ := pending
  exact ⟨seen.trans_le le, before, rest, reads, fun start listed => (passed start listed).trans_le le⟩

omit [PostingSource P] in
theorem Pending.on (pending : Pending stands part first doc low term) : On stands part first doc term := by
  obtain ⟨-, before, rest, reads, -⟩ := pending
  exact reads.on

theorem read_tries (standing : Standing stands failing) {posting : Posting} {position : Int}
    (reading : stands part.postings term.postings (.reading posting (position :: rest))) (nonneg : 0 ≤ position) :
    (∃ postings, term.read = (.ok (), { term with postings, start := term.offset + position }) ∧
      stands part.postings postings (.reading posting rest)) ∨
    ∃ failure postings, term.read = (.error failure, { term with postings }) ∧
      failing ∧ ∃ left, stands part.postings postings (.reading posting left) := by
  rcases standing.nextPosition reading with ⟨answer, postings, same, rfl, after⟩ | ⟨failure, postings, same, stopped⟩
  · exact .inl ⟨postings, by simp only [read, same, if_neg (not_lt.mpr nonneg)], after⟩
  · exact .inr ⟨failure, postings, by simp only [read, same], stopped⟩

theorem begin_tries (standing : Standing stands failing) (fresh : Fresh stands part first doc term)
    (real : IsReal doc) :
    term.begin.Tries (fun _ after => Pending stands part first doc 0 after)
      fun after => failing ∧ On stands part first doc after := by
  have on := fresh.on
  obtain ⟨offset, posting, member, here, reading⟩ := fresh
  have indexed := part.positioned.indexes member
  have starts := part.starts_eq first member here
  have known := standing.freq reading (here ▸ real)
  cases positions : posting.positions with
  | nil => exact absurd positions (part.positioned.placed posting member)
  | cons position rest =>
    rw [positions] at reading starts
    have nonneg := indexed.nonneg position (positions ▸ List.mem_cons_self)
    have unread : (posting.freq - 1).toNat = rest.length := by
      rw [indexed.freq, positions, List.length_cons]
      lia
    rcases known with freq | ⟨may, failure, freq⟩
    · let begun := { term with unread := rest.length, seen := -1 }
      have began : term.begin = begun.read := by simp only [begin, freq, unread, begun]
      have begunReading : stands part.postings begun.postings (.reading posting (position :: rest)) := reading
      rw [began]
      rcases read_tries standing begunReading nonneg with
        ⟨postings, same, after⟩ | ⟨failure, postings, same, may, left, after⟩
      · refine .inl ⟨(), _, same, neg_one_lt_zero, [], rest, ⟨⟨posting, member, here, after⟩, rfl, offset, ?_⟩,
          fun start listed => absurd listed List.not_mem_nil⟩
        rw [starts, List.map_cons, offset]
        rfl
      · exact .inr ⟨failure, _, same, may, offset, _, after, here⟩
    · exact .inr ⟨failure, term, by simp only [begin, freq], may, on⟩

structure Met (low : Int) (before : List Int) (slots : List (Fin size)) (seen : Int) : Prop where
  nodup : slots.Nodup
  mem : ∀ slot, slot ∈ slots ↔ low + slot ∈ before
  early : seen < low ∨ seen ∈ before
  top : ∀ slot ∈ slots, low + slot ≤ seen

theorem slot?_eq {start : Int} (from_low : low ≤ start) (inside : start < low + size) :
    ∃ slot : Fin size, slot? size low start = some slot ∧ low + slot = start := by
  refine ⟨⟨(start - low).toNat, by lia⟩, dif_pos ⟨from_low, inside⟩, ?_⟩
  dsimp only
  lia

omit [PostingSource P] in
theorem Met.look {slots : List (Fin size)} (met : Met low before slots term.seen)
    (sorted : ∀ earlier ∈ before, earlier ≤ term.start) (inside : term.start < low + size)
    (take : Fin size → α → α) (taken : α) :
    ∃ seen passed, term.look low take (slots.foldr take taken) = ({ term with seen }, passed.foldr take taken) ∧
      Met low (before ++ [term.start]) passed seen := by
  have others : ∀ slot : Fin size, low + slot ≠ term.start →
      (low + slot ∈ before ++ [term.start] ↔ low + slot ∈ before) := by
    intro slot apart
    rw [List.mem_append, List.mem_singleton, or_iff_left apart]
  unfold ExactTerm.look
  split
  next fresh =>
    by_cases from_low : low ≤ term.start
    · obtain ⟨here, same, at_start⟩ := slot?_eq from_low inside
      rw [same]
      have unmet : here ∉ slots := fun again => not_lt.mpr (met.top here again) (at_start ▸ fresh)
      refine ⟨term.start, here :: slots, rfl, met.nodup.cons unmet, fun slot => ?_, .inr (by simp),
        fun slot member => ?_⟩
      · by_cases equal : slot = here
        · simp [equal, at_start]
        · have apart : low + slot ≠ term.start := fun same => equal (Fin.ext (by lia))
          rw [List.mem_cons, or_iff_right equal, met.mem, others slot apart]
      · rcases List.mem_cons.mp member with equal | earlier
        · exact (equal ▸ at_start).le
        · exact (met.top slot earlier).trans fresh.le
    · have outside : slot? size low term.start = none := dif_neg fun both => from_low both.1
      rw [outside]
      refine ⟨term.start, slots, rfl, met.nodup, fun slot => ?_, .inl (not_le.mp from_low), fun slot member =>
        (met.top slot member).trans fresh.le⟩
      rw [met.mem, others slot (by lia)]
  next stale =>
    have reached : term.start ≤ term.seen := not_lt.mp stale
    refine ⟨term.seen, slots, rfl, met.nodup, fun slot => ?_, met.early.imp_right (List.mem_append_left _), met.top⟩
    rw [met.mem]
    by_cases apart : low + slot = term.start
    · -- A start that is not fresh was looked at last, so it has been met.
      have last : term.seen ∈ before := met.early.resolve_left (by lia)
      have equal : term.seen = term.start := le_antisymm (sorted _ last) reached
      rw [apart, ← equal]
      exact iff_of_true last (List.mem_append_left _ last)
    · rw [others slot apart]

structure Visited (stands : List Posting → P → PostingPlace → Prop) (part : PhrasePart) (first : Int) (doc : DocId)
    (low : Int) (slots : List (Fin size)) (atEnd : Bool) (after : ExactTerm P) : Prop where
  nodup : slots.Nodup
  mem : ∀ slot, slot ∈ slots ↔ low + slot ∈ part.starts first doc
  on : On stands part first doc after
  last : atEnd = true → ∀ start ∈ part.starts first doc, start < low + size
  further : atEnd = false → low + size ≤ after.start ∧ Pending stands part first doc (low + size) after

omit [PostingSource P] in
theorem Reads.le_of_mem {start : Int} (reads : Reads stands part first doc before rest term)
    (member : start ∈ part.starts first doc) : start ∈ before ∨ term.start ≤ start := by
  obtain ⟨posting, listed, here, -⟩ := reads.stands
  have sorted := part.starts_sorted first (Posting.mem_docs.mpr ⟨posting, listed, here⟩)
  rw [reads.split, List.pairwise_append, List.pairwise_cons] at sorted
  rw [reads.split, List.mem_append, List.mem_cons] at member
  rcases member with passed | same | later
  · exact .inl passed
  · exact .inr same.ge
  · exact .inr (sorted.2.1.1 start later)

omit [PostingSource P] in
theorem Reads.visited {slots : List (Fin size)} (reads : Reads stands part first doc before rest term)
    (met : Met low before slots term.seen) (passed : ∀ start ∈ before, start < low + size)
    (beyond : low + size ≤ term.start) : Visited stands part first doc low slots false term where
  nodup := met.nodup
  mem slot := by
    rw [met.mem]
    constructor
    · intro listed
      rw [reads.split]
      exact List.mem_append_left _ listed
    · intro member
      have below := slot.isLt
      exact (reads.le_of_mem member).resolve_right (by omega)
  on := reads.on
  last := nofun
  further _ := by
    refine ⟨beyond, ?_, before, rest, reads, passed⟩
    rcases met.early with early | listed
    · lia
    · exact passed _ listed

theorem visitWithin_tries (standing : Standing stands failing) (take : Fin size → α → α) (taken : α)
    {slots : List (Fin size)} (reads : Reads stands part first doc before rest term)
    (met : Met low before slots term.seen) (passed : ∀ start ∈ before, start < low + size) :
    (visitWithin low take rest.length term (slots.foldr take taken)).Tries
      (fun atEnd after => ∃ slots, Visited stands part first doc low slots atEnd after.1 ∧
        after.2 = slots.foldr take taken)
      fun after => failing ∧ On stands part first doc after.1 := by
  induction rest generalizing term before slots with
  | nil =>
    unfold visitWithin
    split
    next inside =>
      obtain ⟨seen, slots, looked, metAfter⟩ := met.look reads.sorted inside take taken
      have all : part.starts first doc = before ++ [term.start] := reads.split
      have passedAll : ∀ start ∈ part.starts first doc, start < low + size := by
        rw [all, List.forall_mem_append, List.forall_mem_singleton]
        exact ⟨passed, inside⟩
      rw [looked]
      exact .inl ⟨_, _, rfl, slots, ⟨metAfter.nodup, all ▸ metAfter.mem, reads.on, fun _ => passedAll, nofun⟩, rfl⟩
    next beyond => exact .inl ⟨_, _, rfl, slots, reads.visited met passed (not_lt.mp beyond), rfl⟩
  | cons position rest ih =>
    unfold visitWithin
    split
    next inside =>
      obtain ⟨seen, slots, looked, metAfter⟩ := met.look reads.sorted inside take taken
      obtain ⟨posting, member, here, reading⟩ := reads.stands
      have listed : first - part.position + position ∈ part.starts first doc := by simp [reads.split]
      have nonneg : 0 ≤ position := by
        have bounds := PhrasePart.bounds_of_mem_starts listed
        lia
      let waiting := { term with seen, unread := rest.length }
      have waitingReads : stands part.postings waiting.postings (.reading posting (position :: rest)) := reading
      rw [looked]
      simp only [List.length_cons]
      rcases read_tries standing waitingReads nonneg with
        ⟨postings, same, after⟩ | ⟨failure, postings, same, may, left, after⟩
      · have readsAfter : Reads stands part first doc (before ++ [term.start]) rest
            { waiting with postings, start := term.offset + position } := by
          refine ⟨⟨posting, member, here, after⟩, rfl, reads.offset, ?_⟩
          rw [reads.split, reads.offset, List.map_cons, List.append_assoc]
          rfl
        have passedAfter : ∀ start ∈ before ++ [term.start], start < low + size := by
          rw [List.forall_mem_append, List.forall_mem_singleton]
          exact ⟨passed, inside⟩
        rw [show ExactTerm.read _ = _ from same]
        exact ih readsAfter metAfter passedAfter
      · rw [show ExactTerm.read _ = _ from same]
        exact .inr ⟨failure, _, rfl, may, reads.offset, _, after, here⟩
    next beyond => exact .inl ⟨_, _, rfl, slots, reads.visited met passed (not_lt.mp beyond), rfl⟩

theorem visit_tries (standing : Standing stands failing) (pending : Pending stands part first doc low term)
    (take : Fin size → α → α) (taken : α) :
    (visit low take term taken).Tries
      (fun atEnd after => ∃ slots, Visited stands part first doc low slots atEnd after.1 ∧
        after.2 = slots.foldr take taken)
      fun after => failing ∧ On stands part first doc after.1 := by
  obtain ⟨seen, before, rest, reads, passed⟩ := pending
  have met : Met low before ([] : List (Fin size)) term.seen := by
    refine ⟨.nil, fun slot => ⟨nofun, fun listed => ?_⟩, .inl seen, nofun⟩
    have early := passed _ listed
    lia
  rw [visit, reads.unread]
  exact visitWithin_tries standing take taken reads met fun start listed => (passed start listed).trans_le (by lia)

end ExactTerm

namespace ExactPhrase

open ExactTerm

variable {parts : List PhrasePart} {terms : List (ExactTerm P)} {low bound : Int}

structure Chained (stands : List Posting → P → PostingPlace → Prop) (parts : List PhrasePart) (first : Int)
    (doc : DocId) (low : Int) {size : Nat} (opened : Fin size → Prop) (ended : Bool) (answer : Nat × Bool)
    (after : List (ExactTerm P)) : Prop where
  completed : ∃ slots : List (Fin size), slots.Nodup ∧ slots.length = answer.1 ∧
    ∀ slot, slot ∈ slots ↔ opened slot ∧ ∀ part ∈ parts, low + slot ∈ part.starts first doc
  on : List.Forall₂ (fun part term => On stands part first doc term) parts after
  last : answer.2 = true → ended = true ∨
    ∃ part ∈ parts, ∀ start ∈ part.starts first doc, start < low + size
  further : answer.2 = false → ended = false ∧
    List.Forall₂ (fun part term => Pending stands part first doc (low + size) term) parts after

variable {size : Nat} {opened : Fin size → Prop} {part : PhrasePart} {slots : List (Fin size)} {term : ExactTerm P}
  {ended atEnd : Bool}

omit [PostingSource P] in
theorem chained_of_stop (visited : Visited stands part first doc low slots atEnd term)
    (tail : List.Forall₂ (fun part term => Pending stands part first doc low term) parts terms)
    {completed : List (Fin size)} (nodup : completed.Nodup)
    (mem : ∀ slot, slot ∈ completed ↔ opened slot ∧ ∀ other ∈ part :: parts, low + slot ∈ other.starts first doc) :
    Chained stands (part :: parts) first doc low opened ended (completed.length, ended || atEnd) (term :: terms) where
  completed := ⟨completed, nodup, rfl, mem⟩
  on := .cons visited.on (tail.imp fun _ _ holds => holds.on)
  last := by
    rw [Bool.or_eq_true]
    exact Or.imp_right fun last => ⟨part, List.mem_cons_self, visited.last last⟩
  further := by
    rw [Bool.or_eq_false_iff]
    intro neither
    exact ⟨neither.1, .cons (visited.further neither.2).2 (tail.imp fun _ _ holds => holds.mono (by lia))⟩

omit [PostingSource P] in
theorem Chained.behind {extended : Fin size → Prop} {answer : Nat × Bool}
    (chained : Chained stands parts first doc low extended (ended || atEnd) answer terms)
    (visited : Visited stands part first doc low slots atEnd term)
    (reaches : ∀ slot, extended slot ↔ slot ∈ slots ∧ opened slot) :
    Chained stands (part :: parts) first doc low opened ended answer (term :: terms) where
  completed := by
    obtain ⟨completed, nodup, length, mem⟩ := chained.completed
    refine ⟨completed, nodup, length, fun slot => ?_⟩
    rw [mem, reaches, visited.mem, List.forall_mem_cons]
    tauto
  on := .cons visited.on chained.on
  last := by
    intro last
    rcases chained.last last with here | ⟨other, member, before⟩
    · rcases (Bool.or_eq_true _ _).mp here with earlier | own
      · exact .inl earlier
      · exact .inr ⟨part, List.mem_cons_self, visited.last own⟩
    · exact .inr ⟨other, List.mem_cons_of_mem part member, before⟩
  further := by
    intro further
    obtain ⟨neither, pending⟩ := chained.further further
    rw [Bool.or_eq_false_iff] at neither
    exact ⟨neither.1, .cons (visited.further neither.2).2 pending⟩

theorem chain_tries (standing : Standing stands failing)
    (pending : List.Forall₂ (fun part term => Pending stands part first doc low term) parts terms)
    (several : parts ≠ []) {length : Nat} {chains : Chains size} (within : chains.Within length) (ended : Bool) :
    (chain low length terms chains ended).Tries
      (fun answer after =>
        Chained stands parts first doc low (fun slot => chains.length? slot = some length) ended answer after.1)
      fun after => failing ∧ List.Forall₂ (fun part term => On stands part first doc term) parts after.1 := by
  induction pending generalizing length chains ended with
  | nil => exact absurd rfl several
  | @cons part term parts terms head tail ih =>
    have tailOn := tail.imp fun _ _ (holds : Pending ..) => holds.on
    cases tail with
    | nil =>
      rcases visit_tries standing head
          (fun slot count => if chains.length? slot = some length then count + 1 else count) 0 with
        ⟨atEnd, ⟨after, count⟩, same, slots, visited, counted⟩ | ⟨failure, ⟨after, count⟩, same, may, on⟩
      · rw [Chains.foldr_complete] at counted
        dsimp only at counted
        simp only [chain, same, counted]
        refine .inl ⟨_, _, rfl, chained_of_stop visited .nil (Chains.atLength_nodup visited.nodup) fun slot => ?_⟩
        rw [Chains.mem_atLength, visited.mem, List.forall_mem_singleton, and_comm]
      · simp only [chain, same]
        exact .inr ⟨failure, _, rfl, may, .cons on .nil⟩
    | cons next others =>
      rcases visit_tries standing head (Chains.extend length) (chains, false) with
        ⟨atEnd, ⟨after, extended⟩, same, slots, visited, taken⟩ | ⟨failure, ⟨after, extended⟩, same, may, on⟩
      · have reached : ∀ slot, slot ∈ chains.atLength length slots ↔
            slot ∈ slots ∧ chains.length? slot = some length := fun slot => Chains.mem_atLength
        rw [Chains.foldr_extend visited.nodup] at taken
        cases found : chains.atLength length slots with
        | nil =>
          obtain rfl : extended = (chains, false) := by
            rw [show extended = _ from taken, found]
            rfl
          simp only [chain, same]
          refine .inl ⟨_, _, rfl, chained_of_stop visited (.cons next others) .nil fun slot => ?_⟩
          refine iff_of_false List.not_mem_nil fun both => ?_
          have here := (reached slot).mpr ⟨(visited.mem slot).mpr (both.2 part List.mem_cons_self), both.1⟩
          rw [found] at here
          exact List.not_mem_nil here
        | cons slot further =>
          obtain rfl : extended = ((chains.atLength length slots).foldr Chains.lengthen chains, true) := by
            rw [show extended = _ from taken, found]
            rfl
          simp only [chain, same]
          refine Step.Tries.within ((ih (List.cons_ne_nil _ _) (within.extended visited.nodup) (ended || atEnd)).mono
            (fun answer rest chained => ?_) fun rest stopped => ⟨stopped.1, .cons visited.on stopped.2⟩)
          refine chained.behind visited fun slot => ?_
          rw [within.length?_extended visited.nodup, reached]
      · simp only [chain, same]
        exact .inr ⟨failure, _, rfl, may, .cons on tailOn⟩

noncomputable def remaining (parts : List PhrasePart) (first : Int) (doc : DocId) (low : Int) : Nat :=
  ((PhrasePart.occurrences parts first doc).filter (low ≤ ·)).card

theorem remaining_eq {shared : List (Fin size)} (nodup : shared.Nodup)
    (mem : ∀ slot : Fin size, slot ∈ shared ↔ low + slot ∈ PhrasePart.occurrences parts first doc) :
    remaining parts first doc low = shared.length + remaining parts first doc (low + size) := by
  let at' (slot : Fin size) : Int := low + slot
  have injective : Function.Injective at' := fun slot other (same : low + slot = low + other) =>
    Fin.ext (by lia)
  have split : (PhrasePart.occurrences parts first doc).filter (low ≤ ·) =
      (shared.map at').toFinset ∪ (PhrasePart.occurrences parts first doc).filter (low + size ≤ ·) := by
    ext start
    rw [Finset.mem_union, List.mem_toFinset, List.mem_map, Finset.mem_filter, Finset.mem_filter]
    constructor
    · rintro ⟨shared, from_low⟩
      rcases lt_or_ge start (low + size) with inside | beyond
      · obtain ⟨slot, -, rfl⟩ := ExactTerm.slot?_eq from_low inside
        exact .inl ⟨slot, (mem slot).mpr shared, rfl⟩
      · exact .inr ⟨shared, beyond⟩
    · rintro (⟨slot, listed, rfl⟩ | ⟨shared, beyond⟩)
      · exact ⟨(mem slot).mp listed, by lia⟩
      · exact ⟨shared, by lia⟩
  have apart : Disjoint (shared.map at').toFinset
      ((PhrasePart.occurrences parts first doc).filter (low + size ≤ ·)) := by
    refine Finset.disjoint_left.mpr fun start listed beyond => ?_
    obtain ⟨slot, -, rfl⟩ := List.mem_map.mp (List.mem_toFinset.mp listed)
    have outside : low + size ≤ low + slot := (Finset.mem_filter.mp beyond).2
    have inside := slot.isLt
    omega
  rw [remaining, split, Finset.card_union_of_disjoint apart,
    List.toFinset_card_of_nodup (nodup.map injective), List.length_map]
  rfl

theorem remaining_eq_zero {parts : List PhrasePart} (least : PhrasePart.IsFirst parts first) {part : PhrasePart}
    (member : part ∈ parts) (last : ∀ start ∈ part.starts first doc, start < bound) :
    remaining parts first doc bound = 0 := by
  rw [remaining, Finset.card_eq_zero, Finset.filter_eq_empty_iff]
  intro start shared
  exact not_le.mpr (last start ((PhrasePart.mem_occurrences least).mp shared part member))

structure Counted (stands : List Posting → P → PostingPlace → Prop) (lead : PhrasePart) (followers : List PhrasePart)
    (first : Int) (doc : DocId) (before after : ExactPhrase P S) : Prop where
  lead : On stands lead first doc after.lead
  followers : List.Forall₂ (fun part term => On stands part first doc term) followers after.followers
  frame : ∃ chains, after = { before with lead := after.lead, followers := after.followers, chains }

variable {lead : PhrasePart} {followers : List PhrasePart} {phrase : ExactPhrase P S}

structure ChunkRead (stands : List Posting → P → PostingPlace → Prop) (lead : PhrasePart)
    (followers : List PhrasePart) (first : Int) (doc : DocId) (low bound : Int) (counted : Nat) (ended : Bool)
    (leadAfter : ExactTerm P) (followersAfter : List (ExactTerm P)) : Prop where
  split : remaining (lead :: followers) first doc low = counted + remaining (lead :: followers) first doc bound
  last : ended = true → remaining (lead :: followers) first doc bound = 0
  further : ended = false → bound ≤ 2147483647 ∧ Pending stands lead first doc bound leadAfter ∧
    List.Forall₂ (fun part term => Pending stands part first doc bound term) followers followersAfter

omit [PostingSource P] in
theorem chunkRead (least : PhrasePart.IsFirst (lead :: followers) first) {counted : Nat} {leadAfter : ExactTerm P}
    {followersAfter : List (ExactTerm P)} (visited : Visited stands lead first doc low slots atEnd leadAfter)
    (started : ∀ slot, opened slot ↔ slot ∈ slots)
    (chained : Chained stands followers first doc low opened atEnd (counted, ended) followersAfter) :
    ChunkRead stands lead followers first doc low (low + size) counted ended leadAfter followersAfter := by
  refine ⟨?_, fun last => ?_, fun further => ?_⟩
  · obtain ⟨completed, nodup, rfl, mem⟩ := chained.completed
    refine remaining_eq nodup fun slot => ?_
    rw [mem, started, visited.mem, PhrasePart.mem_occurrences least, List.forall_mem_cons]
  · rcases chained.last last with leadEnded | ⟨part, member, before⟩
    · exact remaining_eq_zero least List.mem_cons_self (visited.last leadEnded)
    · exact remaining_eq_zero least (List.mem_cons_of_mem lead member) before
  · obtain ⟨unended, pendingAfter⟩ := chained.further further
    obtain ⟨beyond, leadPendingAfter⟩ := visited.further unended
    refine ⟨?_, leadPendingAfter, pendingAfter⟩
    obtain ⟨-, before, rest, reads, -⟩ := leadPendingAfter
    have here : leadAfter.start ∈ lead.starts first doc := by simp [reads.split]
    have bounds := PhrasePart.bounds_of_mem_starts here
    have lowest := least.2 ⟨lead, List.mem_cons_self, rfl⟩
    lia

theorem countFrom_tries (standing : Standing stands failing)
    (least : PhrasePart.IsFirst (lead :: followers) first) (several : followers ≠ []) (chunks : Nat)
    (phrase : ExactPhrase P S) (leadPending : Pending stands lead first doc low phrase.lead)
    (followersPending : List.Forall₂ (fun part term => Pending stands part first doc low term) followers
      phrase.followers) (size : 1 ≤ phrase.chunkSize) (inside : low ≤ 2147483647)
    (enough : 2147483647 < low + chunks) (count : Nat) :
    (countFrom chunks phrase low count).Tries
      (fun answer after => answer = count + remaining (lead :: followers) first doc low ∧
        Counted stands lead followers first doc phrase after)
      fun after => failing ∧ Counted stands lead followers first doc phrase after := by
  -- The lead has no starts beyond the range of positions, so the chunks come to an end.
  induction chunks generalizing phrase low count with
  | zero => lia
  | succ chunks ih =>
    have waiting := followersPending.imp fun _ _ (holds : Pending ..) => holds.on
    unfold countFrom
    rcases visit_tries standing leadPending Chains.start phrase.chains.renew with
      ⟨atEnd, ⟨leadAfter, chains⟩, sameLead, slots, visited, started⟩ |
      ⟨failure, ⟨leadAfter, chains⟩, sameLead, may, leadOn⟩
    · obtain rfl : chains = slots.foldr Chains.start phrase.chains.renew := started
      rcases chain_tries standing followersPending several (Chains.within_started slots phrase.chains) atEnd with
        ⟨⟨completed, ended⟩, ⟨followersAfter, chains⟩, sameFollowers, chained⟩ |
        ⟨failure, ⟨followersAfter, chains⟩, sameFollowers, may, followersOn⟩
      · simp only [sameLead, sameFollowers]
        have chunk := chunkRead least visited (Chains.length?_started slots phrase.chains) chained
        cases ended with
        | true =>
          refine .inl ⟨_, _, rfl, ?_, visited.on, chained.on, chains, rfl⟩
          rw [chunk.split, chunk.last rfl, Nat.add_zero]
        | false =>
          obtain ⟨insideAfter, leadPendingAfter, pendingAfter⟩ := chunk.further rfl
          have goesOn := ih { phrase with lead := leadAfter, followers := followersAfter, chains } leadPendingAfter
            pendingAfter size insideAfter (by lia) (count + completed)
          refine goesOn.mono (fun answer after both => ?_) fun after both =>
            ⟨both.1, both.2.lead, both.2.followers, both.2.frame⟩
          obtain ⟨total, countedAfter⟩ := both
          refine ⟨?_, countedAfter.lead, countedAfter.followers, countedAfter.frame⟩
          rw [total, chunk.split, Nat.add_assoc]
      · simp only [sameLead, sameFollowers]
        exact .inr ⟨failure, _, rfl, may, visited.on, followersOn, chains, rfl⟩
    · simp only [sameLead]
      exact .inr ⟨failure, _, rfl, may, leadOn, waiting, chains, rfl⟩

theorem count_tries (standing : Standing stands failing) (least : PhrasePart.IsFirst (lead :: followers) first)
    (several : followers ≠ []) (real : IsReal doc) (leadFresh : Fresh stands lead first doc phrase.lead)
    (fresh : List.Forall₂ (fun part term => Fresh stands part first doc term) followers phrase.followers)
    (size : 1 ≤ phrase.chunkSize) :
    phrase.count.Tries
      (fun answer after => answer = (PhrasePart.occurrences (lead :: followers) first doc).card ∧
        Counted stands lead followers first doc phrase after)
      fun after => failing ∧ Counted stands lead followers first doc phrase after := by
  have all : remaining (lead :: followers) first doc 0 =
      (PhrasePart.occurrences (lead :: followers) first doc).card := by
    rw [remaining, Finset.filter_true_of_mem]
    exact fun start shared => (Finset.mem_Icc.mp (Finset.mem_filter.mp shared).1).1
  have waiting := fresh.imp fun _ _ (holds : Fresh ..) => holds.on
  rcases begin_tries standing leadFresh real with
    ⟨_, leadAfter, sameLead, leadPending⟩ | ⟨failure, leadAfter, sameLead, may, leadOn⟩
  · rcases Step.each_tries (fun part (result : Unit × ExactTerm P) => Pending stands part first doc 0 result.2)
        (fun part term => On stands part first doc term) failing (fun _ _ pending => pending.on)
        (fresh.imp fun part term here => ⟨here.on, begin_tries standing here real⟩) with
      ⟨results, sameFollowers, pending⟩ | ⟨failure, followersAfter, sameFollowers, may, followersOn⟩
    · simp only [count, sameLead, sameFollowers]
      have counts := countFrom_tries standing least several moveLimit
        { phrase with lead := leadAfter, followers := results.map (·.2) } leadPending
        (List.forall₂_map_right_iff.mpr pending) size (by decide) (by decide) 0
      refine counts.mono (fun answer after both => ?_) fun after both =>
        ⟨both.1, both.2.lead, both.2.followers, both.2.frame⟩
      rw [Nat.zero_add, all] at both
      exact ⟨both.1, both.2.lead, both.2.followers, both.2.frame⟩
    · simp only [count, sameLead, sameFollowers]
      exact .inr ⟨failure, _, rfl, may, leadPending.on, followersOn, phrase.chains, rfl⟩
  · simp only [count, sameLead]
    exact .inr ⟨failure, _, rfl, may, leadOn, waiting, phrase.chains, rfl⟩

end ExactPhrase

end Reading

end PostingQuery
