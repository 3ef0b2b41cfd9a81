import Mathlib
import PostingQuery.Proofs.CostSum
import PostingQuery.Proofs.Pool
import PostingQuery.Proofs.Term
import PostingQuery.Score.SinglePrecision
import PostingQuery.Scorer.Quorum

/-!
A quorum visits the documents that enough of its parts have. The invariant of its walk: heap and reserve
together are a pool of the parts that are not used up, the reserve is one part short of the minimum, and
no part of the heap stands before the current document. So a match needs a part of the heap.
-/

namespace PostingQuery

open scoped List

theorem Score.total_append {S : Type} [Score S] (values : List S) (value : S) :
    Score.total (values ++ [value]) = Score.accumulate (Score.total values) value := by
  simp [Score.total]

namespace Meaning

variable {S : Type}

noncomputable def enough (minimum : Nat) (parts : List (Meaning S)) : Finset DocId :=
  allDocs.filter fun doc => minimum ≤ (matching parts doc).length

def Spent (minimum : Nat) (parts : List (Meaning S)) (low : DocId) : Prop :=
  ∀ doc, low ≤ doc → (matching parts doc).length < minimum

variable [Score S]

noncomputable def atLeast (minimum : Nat) (parts : List (Meaning S)) (counting : Bool) : Meaning S where
  docs := enough minimum parts
  real _ member := mem_allDocs.mp (Finset.mem_filter.mp member).1
  scores doc value := ∃ values : List S, Gathers (fun part : Meaning S => part.scores doc)
    (matching parts doc) values ∧ value = Score.round (Score.total values)
  tallies doc answer := (∃ values : List S, Gathers (fun part : Meaning S => part.scores doc)
    (matching parts doc) values ∧ answer.1 = Score.round (Score.total values)) ∧
    answer.2 = if counting then (matching parts doc).length else 0
  counts doc count := count = (matching parts doc).length

theorem mem_atLeast {minimum : Nat} {parts : List (Meaning S)} {counting : Bool} {doc : DocId} :
    doc ∈ (atLeast minimum parts counting).docs ↔
      IsReal doc ∧ minimum ≤ (matching parts doc).length := by
  simp [atLeast, enough]

theorem Spent.lands {minimum : Nat} {parts : List (Meaning S)} {low place : DocId} {counting : Bool}
    (spent : Spent minimum parts place) (skipped : ∀ doc, low ≤ doc → doc < place →
      (matching parts doc).length < minimum) (inside : low ≤ noMoreDocs) :
    Lands (atLeast minimum parts counting).docs low noMoreDocs := by
  refine ⟨.inr rfl, inside, fun doc member from_low => ?_⟩
  have enough := (mem_atLeast.mp member).2
  by_cases before : doc < place
  · have few := skipped doc from_low before
    omega
  · have few := spent doc (not_lt.mp before)
    omega

end Meaning

theorem Denotes.atLeast_perm {S σ : Type} [Score S] [Scorer S σ] {minimum : Nat}
    {order parts : List (Meaning S)} {counting : Bool} {scorer : σ} (perm : order.Perm parts)
    (denotes : Denotes scorer (Meaning.atLeast minimum order counting)) :
    Denotes scorer (Meaning.atLeast minimum parts counting) := by
  have same := fun doc => Meaning.matching_perm perm doc
  refine denotes.mono ?_ ?_ ?_ ?_
  · ext doc
    rw [Meaning.mem_atLeast, Meaning.mem_atLeast, (same doc).length_eq]
  · rintro doc - value ⟨values, gathers, total⟩
    exact ⟨values, gathers.perm (same doc), total⟩
  · rintro doc - answer ⟨⟨values, gathers, total⟩, count⟩
    refine ⟨⟨values, gathers.perm (same doc), total⟩, ?_⟩
    rw [count, (same doc).length_eq]
  · intro doc _ count overlap
    exact overlap.trans (same doc).length_eq

namespace Quorum

variable {S σ : Type} [Score S] [Scorer S σ]

omit [Scorer S σ] in
def settings (quorum : Quorum S σ) : Nat × Bool := (quorum.minimum, quorum.counting)

@[simp]
theorem cursor_doc (quorum : Quorum S σ) : Cursor.doc quorum = quorum.doc := rfl

/-- Heap and reserve hold all parts with documents from `low` on, and no part of the heap stands before
`place`. -/
structure Ready (meanings : List (Meaning S)) (low place : DocId) (quorum : Quorum S σ) : Prop where
  ordered : CursorHeap.Ordered quorum.heap.entries
  pool : Pool meanings low (quorum.heap.entries.toList ++ quorum.reserve)
  reached : ∀ entry ∈ quorum.heap.entries.toList, place ≤ entry.doc
  live : quorum.heap.entries.toList.length + quorum.reserve.length = quorum.live
  reserved : quorum.reserve.length + 1 = quorum.minimum
  enough : quorum.minimum ≤ quorum.live

namespace Ready

variable {meanings : List (Meaning S)} {low place : DocId} {quorum : Quorum S σ}

theorem nonempty (ready : Ready meanings low place quorum) : quorum.heap.entries.toList ≠ [] := by
  apply List.ne_nil_of_length_pos
  have live := ready.live
  have reserved := ready.reserved
  have enough := ready.enough
  omega

theorem topDoc_real (ready : Ready meanings low place quorum) (nonneg : 0 ≤ place) :
    place ≤ quorum.heap.topDoc ∧ IsReal quorum.heap.topDoc := by
  obtain ⟨root, member, here⟩ := CursorHeap.exists_topDoc ready.nonempty
  have inPool := List.mem_append_left quorum.reserve member
  have reached := ready.reached root member
  rw [← here]
  exact ⟨reached, nonneg.trans reached,
    lt_of_le_of_ne (ready.pool.refines root inPool).doc_le (ready.pool.live root inPool)⟩

theorem lt_noMoreDocs (ready : Ready meanings low place quorum) : place < noMoreDocs := by
  obtain ⟨root, member⟩ := List.exists_mem_of_ne_nil _ ready.nonempty
  have inPool := List.mem_append_left quorum.reserve member
  have below := lt_of_le_of_ne (ready.pool.refines root inPool).doc_le (ready.pool.live root inPool)
  exact (ready.reached root member).trans_lt below

theorem few_before_top (ready : Ready meanings low place quorum) {doc : DocId} (from_low : low ≤ doc)
    (before : doc < quorum.heap.topDoc) :
    (Meaning.matching meanings doc).length < quorum.minimum := by
  have pool := ready.pool.mono from_low
  have none : fitting meanings doc quorum.heap.entries.toList = [] := by
    refine List.filter_eq_nil_iff.mpr fun entry member => ?_
    rw [decide_eq_true_iff]
    intro has
    have notPassed := pool.covers entry (List.mem_append_left _ member) doc has le_rfl
    have least := CursorHeap.topDoc_le ready.ordered member
    lia
  have split : fitting meanings doc (quorum.heap.entries.toList ++ quorum.reserve) =
      fitting meanings doc quorum.reserve := by
    rw [fitting, List.filter_append, ← fitting, none, List.nil_append, fitting]
  have reserved := ready.reserved
  have few : (fitting meanings doc quorum.reserve).length ≤ quorum.reserve.length :=
    List.length_filter_le _ _
  rw [← pool.matching_perm.length_eq, List.length_map, split]
  omega

end Ready

def Tallied (meanings : List (Meaning S)) (quorum : Quorum S σ) : Prop :=
  ∃ values : List S, Gathers (fun part : Meaning S => part.scores quorum.doc)
    (Meaning.matching meanings quorum.doc) values ∧
    quorum.matchers = values.length ∧ quorum.total = Score.total values

structure Landed (meanings : List (Meaning S)) (quorum : Quorum S σ) : Prop where
  real : IsReal quorum.doc
  tallied : Tallied meanings quorum
  enough : quorum.minimum ≤ quorum.matchers

structure Sound (meanings : List (Meaning S)) (minimum : Nat) (counting : Bool) (quorum : Quorum S σ) :
    Prop where
  ready : quorum.doc ≠ noMoreDocs → Ready meanings quorum.doc quorum.doc quorum
  landed : quorum.doc ≠ noMoreDocs → quorum.doc ≠ unpositioned → Landed meanings quorum
  settings : quorum.settings = (minimum, counting)

variable {meanings : List (Meaning S)} {minimum : Nat} {counting : Bool}

theorem moveWhile_yields {current low : DocId} {move : σ → Step σ DocId} {behind : DocId → Bool}
    (brings : Brings S move current low) (lags : ∀ doc, current ≤ doc → (behind doc ↔ doc < low))
    (le : current ≤ low) (moves : Nat) (quorum : Quorum S σ)
    (ready : Ready meanings low current quorum) (sufficient : quorum.heap.behind low < moves) :
    (moveWhile move behind moves quorum).Yields fun goesOn after =>
      after.settings = quorum.settings ∧ if goesOn
        then Ready meanings low low after ∧ after.doc = quorum.doc
        else after.doc = noMoreDocs ∧ Meaning.Spent quorum.minimum meanings low := by
  -- Each move leaves one entry fewer before `low`, so there are enough of them.
  induction moves generalizing quorum with
  | zero => omega
  | succ moves ih =>
    obtain ⟨root, rootMember, rootDoc⟩ := CursorHeap.exists_topDoc ready.nonempty
    have lagsTop := lags quorum.heap.topDoc (rootDoc ▸ ready.reached root rootMember)
    by_cases before : quorum.heap.topDoc < low
    · obtain ⟨stays, heap, same, ordered, pool, reached, fewer, size⟩ :=
        CursorHeap.moveTop_yields quorum.reserve brings ready.ordered ready.pool ready.reached le
          ready.nonempty before
      have live := ready.live
      have reserved := ready.reserved
      have enough := ready.enough
      cases stays with
      | true =>
        simp only [moveWhile, if_pos (lagsTop.mpr before), same]
        simp only [↓reduceIte] at size
        refine (ih { quorum with heap := heap } ⟨ordered, pool, reached, ?_, reserved, enough⟩ ?_)
        · change heap.entries.toList.length + quorum.reserve.length = quorum.live
          omega
        · change heap.behind low < moves
          omega
      | false =>
        simp only [moveWhile, if_pos (lagsTop.mpr before), same]
        simp only [Bool.false_eq_true, ↓reduceIte] at size
        split
        next tooFew =>
          change quorum.live - 1 < quorum.minimum at tooFew
          refine ⟨false, _, rfl, rfl, rfl, fun doc from_low => ?_⟩
          have bound := pool.matching_length_le from_low
          rw [List.length_append] at bound
          omega
        next stillEnough =>
          refine ih (loseOne { quorum with heap := heap })
            ⟨ordered, pool, reached, ?_, reserved, not_lt.mp stillEnough⟩ ?_
          · change heap.entries.toList.length + quorum.reserve.length = quorum.live - 1
            omega
          · change heap.behind low < moves
            omega
    · rw [moveWhile, if_neg fun holds => before (lagsTop.mp holds)]
      have reached : ∀ entry ∈ quorum.heap.entries.toList, low ≤ entry.doc := fun entry member =>
        (not_lt.mp before).trans (CursorHeap.topDoc_le ready.ordered member)
      exact ⟨true, quorum, rfl, rfl,
        ⟨ready.ordered, ready.pool, reached, ready.live, ready.reserved, ready.enough⟩, rfl⟩

/-- While the reserve is polled, what has been scored and the unseen entries that have the document make
up all parts that have it. -/
structure Polling (meanings : List (Meaning S)) (quorum : Quorum S σ) (unseen seen : List (Ranked σ)) :
    Prop where
  real : IsReal quorum.doc
  ready : Ready meanings quorum.doc quorum.doc { quorum with reserve := unseen.reverse ++ seen }
  tallied : ∃ (settled : List (Meaning S)) (values : List S),
    Gathers (fun part : Meaning S => part.scores quorum.doc) settled values ∧
    (settled ++ (fitting meanings quorum.doc unseen).map
      fun entry => Meaning.ofRank meanings entry.rank).Perm (Meaning.matching meanings quorum.doc) ∧
    quorum.matchers = values.length ∧ quorum.total = Score.total values

inductive Evaluated (meanings : List (Meaning S)) (minimum : Nat) (candidate : DocId)
    (after : Quorum S σ) : Prop where
  /-- Too few parts are left for any document from the candidate on. -/
  | usedUp (ended : after.doc = noMoreDocs) (spent : Meaning.Spent minimum meanings candidate)
  | counted (here : after.doc = candidate) (ready : Ready meanings candidate candidate after)
    (tallied : Tallied meanings after)
  | dropped (here : after.doc = candidate) (ready : Ready meanings candidate candidate after)
    (few : after.matchers < minimum) (lacks : (Meaning.matching meanings candidate).length < minimum)

omit [Score S] [Scorer S σ] in
theorem perm_of_unseen {heap unseen seen : List (Ranked σ)} {entry : Ranked σ} :
    (heap ++ ((entry :: unseen).reverse ++ seen)).Perm (entry :: (heap ++ (unseen.reverse ++ seen))) := by
  rw [List.reverse_cons, List.append_assoc, List.singleton_append]
  exact (List.perm_middle.append_left heap).trans List.perm_middle

omit [Score S] [Scorer S σ] in
theorem perm_of_seen {heap unseen seen : List (Ranked σ)} {entry : Ranked σ} :
    (entry :: (heap ++ (unseen.reverse ++ seen))).Perm (heap ++ (unseen.reverse ++ entry :: seen)) :=
  ((List.perm_middle.append_left heap).trans List.perm_middle).symm

namespace Polling

variable {quorum : Quorum S σ} {entry : Ranked σ} {unseen seen : List (Ranked σ)}

theorem pool (polling : Polling meanings quorum (entry :: unseen) seen) :
    Pool meanings quorum.doc (entry :: (quorum.heap.entries.toList ++ (unseen.reverse ++ seen))) :=
  polling.ready.pool.perm perm_of_unseen

theorem matched (polling : Polling meanings quorum (entry :: unseen) seen) {after : σ} {value : S}
    (arrival : Arrival (Meaning.ofRank meanings entry.rank).docs quorum.doc quorum.doc after)
    (refines : Refines after (Meaning.ofRank meanings entry.rank))
    (scores : (Meaning.ofRank meanings entry.rank).scores quorum.doc value) :
    Polling meanings { quorum with
      matchers := quorum.matchers + 1, total := Score.accumulate quorum.total value }
      unseen (⟨entry.rank, after⟩ :: seen) := by
  obtain ⟨real, ready, settled, values, gathers, perm, matchers, total⟩ := polling
  have pool := (ready.pool.perm perm_of_unseen).moved arrival refines
  rw [if_neg real.ne_noMoreDocs] at pool
  have live := ready.live
  have reserved := ready.reserved
  simp only [List.length_append, List.length_reverse, List.length_cons] at live reserved
  have has := (arrival.2.eq_low_iff real.2).mp rfl
  have here : fitting meanings quorum.doc (entry :: unseen) =
      entry :: fitting meanings quorum.doc unseen := List.filter_cons_of_pos (by simpa using has)
  rw [here, List.map_cons] at perm
  refine ⟨real, ⟨ready.ordered, pool.perm perm_of_seen, ready.reached, ?_, ?_, ready.enough⟩,
    settled ++ [Meaning.ofRank meanings entry.rank], values ++ [value],
    gathers.append (.of_forall₂ (.cons scores .nil)), ?_, ?_, ?_⟩
  · simp only [List.length_append, List.length_reverse, List.length_cons]
    omega
  · simp only [List.length_append, List.length_reverse, List.length_cons]
    omega
  · rwa [List.append_assoc, List.singleton_append]
  · rw [List.length_append, ← matchers, List.length_singleton]
  · rw [Score.total_append, ← total]

theorem tallied_of_missed (polling : Polling meanings quorum (entry :: unseen) seen)
    (lacks : quorum.doc ∉ (Meaning.ofRank meanings entry.rank).docs) :
    ∃ (settled : List (Meaning S)) (values : List S),
      Gathers (fun part : Meaning S => part.scores quorum.doc) settled values ∧
      (settled ++ (fitting meanings quorum.doc unseen).map
        fun entry => Meaning.ofRank meanings entry.rank).Perm (Meaning.matching meanings quorum.doc) ∧
      quorum.matchers = values.length ∧ quorum.total = Score.total values := by
  have tallied := polling.tallied
  have skipped : fitting meanings quorum.doc (entry :: unseen) = fitting meanings quorum.doc unseen :=
    List.filter_cons_of_neg (by simpa using lacks)
  rwa [skipped] at tallied

theorem missed (polling : Polling meanings quorum (entry :: unseen) seen) {landing : DocId} {after : σ}
    (arrival : Arrival (Meaning.ofRank meanings entry.rank).docs quorum.doc landing after)
    (refines : Refines after (Meaning.ofRank meanings entry.rank)) (stays : landing ≠ noMoreDocs)
    (lacks : quorum.doc ∉ (Meaning.ofRank meanings entry.rank).docs) :
    Polling meanings quorum unseen (⟨entry.rank, after⟩ :: seen) := by
  have ready := polling.ready
  have pool := polling.pool.moved arrival refines
  rw [if_neg stays] at pool
  have live := ready.live
  have reserved := ready.reserved
  simp only [List.length_append, List.length_reverse, List.length_cons] at live reserved
  refine ⟨polling.real, ⟨ready.ordered, pool.perm perm_of_seen, ready.reached, ?_, ?_, ready.enough⟩,
    polling.tallied_of_missed lacks⟩
  · simp only [List.length_append, List.length_reverse, List.length_cons]
    omega
  · simp only [List.length_append, List.length_reverse, List.length_cons]
    omega

/-- The entry is used up, and the costliest part of the heap takes its place behind the seen ones. It
has been scored with the heap, so it is not looked at again. -/
theorem replaced (polling : Polling meanings quorum (entry :: unseen) seen) {after : σ}
    (arrival : Arrival (Meaning.ofRank meanings entry.rank).docs quorum.doc noMoreDocs after)
    (refines : Refines after (Meaning.ofRank meanings entry.rank))
    (lacks : quorum.doc ∉ (Meaning.ofRank meanings entry.rank).docs)
    (enough : quorum.minimum ≤ quorum.live - 1) :
    ∃ taken heap, quorum.heap.takeLeastRank = some (taken, heap) ∧
      Polling meanings { quorum.loseOne with heap } unseen (seen ++ [taken]) := by
  have ready := polling.ready
  have pool := polling.pool.moved arrival refines
  rw [if_pos rfl] at pool
  have live := ready.live
  have reserved := ready.reserved
  simp only [List.length_append, List.length_reverse, List.length_cons] at live reserved
  have some : quorum.heap.entries.toList ≠ [] := ready.nonempty
  obtain ⟨taken, heap, same⟩ := CursorHeap.exists_takeLeastRank some
  obtain ⟨perm, -, keepsOrder⟩ := CursorHeap.takeLeastRank_spec same
  have fewer := perm.length_eq
  rw [List.length_cons] at fewer
  have moved : (quorum.heap.entries.toList ++ (unseen.reverse ++ seen)).Perm
      (heap.entries.toList ++ (unseen.reverse ++ (seen ++ [taken]))) := by
    calc _ ~ taken :: (heap.entries.toList ++ (unseen.reverse ++ seen)) := perm.append_right _
      _ ~ heap.entries.toList ++ (unseen.reverse ++ seen) ++ [taken] :=
        (List.perm_append_singleton taken _).symm
      _ = _ := by simp only [List.append_assoc]
  refine ⟨taken, heap, same, polling.real, ⟨keepsOrder ready.ordered, pool.perm moved,
    fun other member => ?_, ?_, ?_, enough⟩, polling.tallied_of_missed lacks⟩
  · exact ready.reached other (perm.mem_iff.mpr (List.mem_cons_of_mem taken member))
  · simp only [loseOne, List.length_append, List.length_reverse, List.length_singleton]
    omega
  · simp only [loseOne, List.length_append, List.length_reverse, List.length_singleton]
    omega

theorem spent (polling : Polling meanings quorum (entry :: unseen) seen) {after : σ}
    (arrival : Arrival (Meaning.ofRank meanings entry.rank).docs quorum.doc noMoreDocs after)
    (refines : Refines after (Meaning.ofRank meanings entry.rank))
    (tooFew : quorum.live - 1 < quorum.minimum) :
    Meaning.Spent quorum.minimum meanings quorum.doc := by
  have pool := polling.pool.moved arrival refines
  rw [if_pos rfl] at pool
  have live := polling.ready.live
  have reserved := polling.ready.reserved
  simp only [List.length_append, List.length_reverse, List.length_cons] at live reserved
  intro doc from_candidate
  have bound := pool.matching_length_le from_candidate
  simp only [List.length_append, List.length_reverse] at bound
  omega

theorem matching_length_le (polling : Polling meanings quorum unseen seen) :
    (Meaning.matching meanings quorum.doc).length ≤ quorum.matchers + unseen.length := by
  obtain ⟨settled, values, gathers, perm, matchers, -⟩ := polling.tallied
  have bound : (fitting meanings quorum.doc unseen).length ≤ unseen.length := List.length_filter_le _ _
  rw [← perm.length_eq, List.length_append, List.length_map, matchers, gathers.length_eq]
  omega

/-- Only an entry that the candidate moves is taken for one that has just been used up: none is used up before. -/
theorem usedUp_eq (polling : Polling meanings quorum (entry :: unseen) seen) {landing : DocId} {after : σ}
    (reached : Cursor.reach entry.scorer quorum.doc = (.ok landing, after)) :
    (decide (entry.doc < quorum.doc) && landing == noMoreDocs) = decide (landing = noMoreDocs) := by
  by_cases lags : entry.doc < quorum.doc
  · rw [decide_eq_true lags, Bool.true_and, beq_eq_decide]
  · have stays : landing = entry.doc := by
      rw [Cursor.reach, if_neg (show ¬ Cursor.doc entry.scorer < quorum.doc from lags)] at reached
      exact (Except.ok.inj (Prod.mk.inj reached).1).symm
    have live := polling.pool.live entry List.mem_cons_self
    rw [stays, decide_eq_false live, decide_eq_false lags, Bool.false_and]

theorem goes_on (polling : Polling meanings quorum unseen seen)
    (rest : (pollReserve quorum unseen seen).Yields fun _ after => after.settings = quorum.settings ∧
      Evaluated meanings quorum.minimum quorum.doc after) :
    Step.Yields (if quorum.isHopeless unseen then (.ok (), { quorum with reserve := unseen.reverse ++ seen })
      else pollReserve quorum unseen seen) fun _ after => after.settings = quorum.settings ∧
        Evaluated meanings quorum.minimum quorum.doc after := by
  split
  next hopeless =>
    rw [isHopeless, Bool.and_eq_true, decide_eq_true_iff] at hopeless
    have bound := polling.matching_length_le
    exact ⟨(), _, rfl, rfl, .dropped rfl polling.ready (by change quorum.matchers < _; omega) (by omega)⟩
  next => exact rest

end Polling

/-- Polling the reserve scores every part that has the candidate, unless the candidate is dropped because
too few can have it, or no document can be matched any more. -/
theorem pollReserve_yields (unseen : List (Ranked σ)) (quorum : Quorum S σ) (seen : List (Ranked σ))
    (polling : Polling meanings quorum unseen seen) :
    (pollReserve quorum unseen seen).Yields fun _ after => after.settings = quorum.settings ∧
      Evaluated meanings quorum.minimum quorum.doc after := by
  induction unseen generalizing quorum seen with
  | nil =>
    obtain ⟨-, ready, settled, values, gathers, perm, matchers, total⟩ := polling
    rw [fitting, List.filter_nil, List.map_nil, List.append_nil] at perm
    exact ⟨(), _, rfl, rfl, .counted rfl ready ⟨values, gathers.perm perm, matchers, total⟩⟩
  | cons entry unseen ih =>
    have real := polling.real
    have entryFront : entry ∈ entry :: (quorum.heap.entries.toList ++ (unseen.reverse ++ seen)) :=
      List.mem_cons_self
    obtain ⟨landing, after, same, arrival, refines⟩ := (polling.pool.refines entry entryFront).reach
      (polling.pool.covers entry entryFront) real
    have hasIff := arrival.2.eq_low_iff real.2
    simp only [pollReserve, same]
    split
    next here =>
      subst here
      have onDoc : Cursor.doc after ∈ (Meaning.ofRank meanings entry.rank).docs := by
        rw [arrival.1]
        exact hasIff.mp rfl
      obtain ⟨value, scored, scoredSame, ⟨scores, unmoved⟩, scoredRefines⟩ := refines.score onDoc
      rw [arrival.1] at scores unmoved
      simp only [scoredSame]
      exact ih _ _ (polling.matched ⟨unmoved, arrival.2⟩ scoredRefines scores)
    next apart =>
      have lacks : quorum.doc ∉ (Meaning.ofRank meanings entry.rank).docs := fun has =>
        apart (hasIff.mpr has)
      rw [polling.usedUp_eq same]
      by_cases ended : landing = noMoreDocs
      · subst ended
        rw [decide_eq_true rfl]
        by_cases tooFew : quorum.live - 1 < quorum.minimum
        · have spent : Meaning.Spent quorum.minimum meanings quorum.doc :=
            polling.spent arrival refines tooFew
          have gaveUp : quorum.passOver true ⟨entry.rank, after⟩ seen =
              (quorum.loseOne.exhausted, none) := if_pos tooFew
          rw [gaveUp]
          exact ⟨(), _, rfl, rfl, .usedUp rfl spent⟩
        · obtain ⟨taken, heap, found, replaced⟩ :=
            polling.replaced arrival refines lacks (not_lt.mp tooFew)
          have refilled : quorum.passOver true ⟨entry.rank, after⟩ seen =
              ({ quorum.loseOne with heap }, some (seen ++ [taken])) := by
            refine (if_neg tooFew).trans ?_
            simp only [loseOne, found]
          rw [refilled]
          exact replaced.goes_on (ih _ _ replaced)
      · rw [decide_eq_false ended]
        have missed := polling.missed arrival refines ended lacks
        exact missed.goes_on (ih quorum _ missed)

theorem evaluate_yields {low : DocId} (quorum : Quorum S σ) (ready : Ready meanings low low quorum)
    (nonneg : 0 ≤ low) :
    quorum.evaluate.Yields fun _ after => after.settings = quorum.settings ∧
      low ≤ quorum.heap.topDoc ∧ quorum.heap.topDoc < noMoreDocs ∧
      (∀ doc, low ≤ doc → doc < quorum.heap.topDoc →
        (Meaning.matching meanings doc).length < quorum.minimum) ∧
      Evaluated meanings quorum.minimum quorum.heap.topDoc after := by
  obtain ⟨from_low, real⟩ := ready.topDoc_real nonneg
  have pool := ready.pool.mono from_low
  obtain ⟨values, heap, same, ordered, poolAfter, top, size, gathers⟩ :=
    CursorHeap.scoreMatches_pool quorum.reserve ready.ordered real pool
  have live := ready.live
  have reserved := ready.reserved
  simp only [evaluate, if_neg real.ne_noMoreDocs, same]
  have polling : Polling meanings { quorum with
      doc := quorum.heap.topDoc, heap, matchers := values.length, total := Score.total values }
      quorum.reserve.reverse [] := by
    refine ⟨real, ⟨ordered, ?_, fun entry member => ?_, ?_, ?_, ready.enough⟩, _, values, gathers, ?_,
      rfl, rfl⟩
    · simpa only [List.reverse_reverse, List.append_nil] using poolAfter
    · exact top.ge.trans (CursorHeap.topDoc_le ordered member)
    · simp only [List.reverse_reverse, List.append_nil]
      omega
    · simpa only [List.reverse_reverse, List.append_nil] using reserved
    · refine .trans ?_ pool.matching_perm
      rw [← List.map_append]
      refine List.Perm.map _ ?_
      simp only [fitting, List.filter_append, List.filter_reverse]
      exact (List.reverse_perm _).append_left _
  obtain ⟨done, after, polled, settings, evaluated⟩ := pollReserve_yields _ _ _ polling
  exact ⟨(), after, polled, settings, from_low, real.2, fun doc => ready.few_before_top, evaluated⟩

def Moved (meanings : List (Meaning S)) (minimum : Nat) (counting : Bool) (low landing : DocId)
    (after : Quorum S σ) : Prop :=
  (after.doc = landing ∧ Lands (Meaning.atLeast minimum meanings counting).docs low landing) ∧
    Sound meanings minimum counting after

theorem moved_of_spent {low place : DocId} {after : Quorum S σ} (ended : after.doc = noMoreDocs)
    (settings : after.settings = (minimum, counting)) (inside : low ≤ noMoreDocs)
    (skipped : ∀ doc, low ≤ doc → doc < place → (Meaning.matching meanings doc).length < minimum)
    (spent : Meaning.Spent minimum meanings place) :
    Moved meanings minimum counting low noMoreDocs after :=
  ⟨⟨ended, spent.lands skipped inside⟩, fun live => absurd ended live, fun live => absurd ended live,
    settings⟩

theorem evaluate_resume_yields {low place : DocId} (resume : Quorum S σ → Step (Quorum S σ) DocId)
    (quorum : Quorum S σ) (settings : quorum.settings = (minimum, counting))
    (ready : Ready meanings place place quorum) (nonneg : 0 ≤ place) (le : low ≤ place)
    (skipped : ∀ doc, low ≤ doc → doc < place → (Meaning.matching meanings doc).length < minimum)
    (resumes : ∀ after : Quorum S σ, after.settings = (minimum, counting) →
      Ready meanings after.doc after.doc after → place ≤ after.doc →
      (∀ doc, low ≤ doc → doc < after.doc + 1 → (Meaning.matching meanings doc).length < minimum) →
      (resume after).Yields (Moved meanings minimum counting low)) :
    Step.Yields (match quorum.evaluate with
      | (.error failure, quorum) => (.error failure, quorum)
      | (.ok (), quorum) =>
        if quorum.doc = noMoreDocs ∨ quorum.minimum ≤ quorum.matchers then (.ok quorum.doc, quorum)
        else resume quorum) (Moved meanings minimum counting low) := by
  obtain ⟨done, after, same, settingsAfter, from_place, below, few, evaluated⟩ :=
    evaluate_yields quorum ready nonneg
  rw [same]
  dsimp only
  have minimumSame : quorum.minimum = minimum := congrArg Prod.fst settings
  rw [settings] at settingsAfter
  have minimumAfter : after.minimum = minimum := congrArg Prod.fst settingsAfter
  rw [minimumSame] at few evaluated
  have skippedTop : ∀ doc, low ≤ doc → doc < quorum.heap.topDoc →
      (Meaning.matching meanings doc).length < minimum := by
    intro doc from_low before
    by_cases before_place : doc < place
    · exact skipped doc from_low before_place
    · exact few doc (not_lt.mp before_place) before
  have from_low : low ≤ quorum.heap.topDoc := le.trans from_place
  have real : IsReal quorum.heap.topDoc := ⟨nonneg.trans from_place, below⟩
  cases evaluated with
  | usedUp ended spent =>
    rw [if_pos (.inl ended)]
    refine ⟨_, _, rfl, ?_⟩
    rw [ended]
    exact moved_of_spent ended settingsAfter (from_low.trans below.le) skippedTop spent
  | counted here readyAfter tallied =>
    rw [← here] at readyAfter skippedTop from_low real
    obtain ⟨values, gathers, matchers, total⟩ := tallied
    have overlap : after.matchers = (Meaning.matching meanings after.doc).length := by
      rw [matchers, gathers.length_eq]
    by_cases enough : after.minimum ≤ after.matchers
    · rw [if_pos (.inr enough)]
      refine ⟨_, _, rfl, ⟨rfl, ?_, from_low, fun doc member from_low' => ?_⟩, fun _ => readyAfter,
        fun _ _ => ⟨real, ⟨values, gathers, matchers, total⟩, enough⟩, settingsAfter⟩
      · exact .inl (Meaning.mem_atLeast.mpr ⟨real, by omega⟩)
      · by_contra before
        have lacks := skippedTop doc from_low' (not_le.mp before)
        have has := (Meaning.mem_atLeast.mp member).2
        omega
    · rw [if_neg (not_or.mpr ⟨real.ne_noMoreDocs, enough⟩)]
      refine resumes after settingsAfter readyAfter (here ▸ from_place) fun doc from_low' before => ?_
      by_cases there : doc = after.doc
      · rw [there]
        omega
      · exact skippedTop doc from_low' (by lia)
  | dropped here readyAfter few lacks =>
    rw [← here] at readyAfter skippedTop from_low real lacks
    rw [if_neg (not_or.mpr ⟨real.ne_noMoreDocs, by omega⟩)]
    refine resumes after settingsAfter readyAfter (here ▸ from_place) fun doc from_low' before => ?_
    by_cases there : doc = after.doc
    · rwa [there]
    · exact skippedTop doc from_low' (by lia)

theorem search_yields {low : DocId} (candidates : Nat) (quorum : Quorum S σ)
    (settings : quorum.settings = (minimum, counting))
    (ready : Ready meanings quorum.doc quorum.doc quorum) (placed : unpositioned ≤ quorum.doc)
    (le : low ≤ quorum.doc + 1)
    (skipped : ∀ doc, low ≤ doc → doc < quorum.doc + 1 →
      (Meaning.matching meanings doc).length < minimum)
    (sufficient : noMoreDocs - quorum.doc ≤ candidates) :
    (search candidates quorum).Yields (Moved meanings minimum counting low) := by
  -- The search visits larger and larger candidates, so it ends before it runs out of them.
  induction candidates generalizing quorum with
  | zero =>
    have below := ready.lt_noMoreDocs
    lia
  | succ candidates ih =>
    have below := ready.lt_noMoreDocs
    have enoughMoves := quorum.heap.behind_lt_moveBound (quorum.doc + 1)
    have lags : ∀ doc, quorum.doc ≤ doc → ((doc == quorum.doc) = true ↔ doc < quorum.doc + 1) := by
      intro doc reached
      rw [beq_iff_eq]
      lia
    have higher : Ready meanings (quorum.doc + 1) quorum.doc quorum :=
      ⟨ready.ordered, ready.pool.mono (lt_add_one _).le, ready.reached, ready.live, ready.reserved,
        ready.enough⟩
    obtain ⟨goesOn, after, same, settingsAfter, holds⟩ := moveWhile_yields (brings_next below) lags
      (lt_add_one _).le quorum.heap.moveBound quorum higher enoughMoves
    rw [settings] at settingsAfter
    have minimumSame : quorum.minimum = minimum := congrArg Prod.fst settings
    rw [minimumSame] at holds
    simp only [search, same]
    cases goesOn with
    | false =>
      obtain ⟨ended, spent⟩ := holds
      exact ⟨_, _, rfl, moved_of_spent ended settingsAfter (by lia) skipped spent⟩
    | true =>
      obtain ⟨readyAfter, here⟩ := holds
      have nonneg : 0 ≤ quorum.doc + 1 := nonneg_of_unpositioned_lt (by lia)
      refine evaluate_resume_yields (search candidates) after settingsAfter readyAfter nonneg le skipped ?_
      intro later settingsLater readyLater reached skippedLater
      exact ih later settingsLater readyLater (by lia) (by lia) skippedLater (by lia)

namespace Sound

variable {quorum : Quorum S σ}

theorem landed_of_mem (sound : Sound meanings minimum counting quorum)
    (member : quorum.doc ∈ (Meaning.atLeast minimum meanings counting).docs) : Landed meanings quorum := by
  have real := (Meaning.mem_atLeast.mp member).1
  refine sound.landed real.ne_noMoreDocs fun fresh => ?_
  rw [fresh] at real
  exact absurd real (by decide)

theorem matchers_eq (sound : Sound meanings minimum counting quorum)
    (member : quorum.doc ∈ (Meaning.atLeast minimum meanings counting).docs) :
    quorum.matchers = (Meaning.matching meanings quorum.doc).length := by
  obtain ⟨values, gathers, matchers, -⟩ := (sound.landed_of_mem member).tallied
  rw [matchers, gathers.length_eq]

theorem scored (sound : Sound meanings minimum counting quorum)
    (member : quorum.doc ∈ (Meaning.atLeast minimum meanings counting).docs) :
    (Meaning.atLeast minimum meanings counting).scores quorum.doc quorum.score := by
  obtain ⟨values, gathers, -, total⟩ := (sound.landed_of_mem member).tallied
  exact ⟨values, gathers, by rw [score, total]⟩

theorem place (sound : Sound meanings minimum counting quorum) :
    quorum.doc = unpositioned ∨ quorum.doc ∈ (Meaning.atLeast minimum meanings counting).docs ∨
      quorum.doc = noMoreDocs := by
  by_cases ended : quorum.doc = noMoreDocs
  · exact .inr (.inr ended)
  · by_cases fresh : quorum.doc = unpositioned
    · exact .inl fresh
    · obtain ⟨real, ⟨values, gathers, matchers, -⟩, enough⟩ := sound.landed ended fresh
      have minimumSame : quorum.minimum = minimum := congrArg Prod.fst sound.settings
      refine .inr (.inl (Meaning.mem_atLeast.mpr ⟨real, ?_⟩))
      rw [← minimumSame, ← gathers.length_eq, ← matchers]
      exact enough

theorem le_doc (sound : Sound meanings minimum counting quorum) : unpositioned ≤ quorum.doc := by
  rcases sound.place with fresh | member | ended
  · exact fresh.ge
  · exact le_trans (by decide) (Meaning.mem_atLeast.mp member).1.1
  · rw [ended]
    decide

theorem next (sound : Sound meanings minimum counting quorum) (live : quorum.doc ≠ noMoreDocs) :
    quorum.next.Yields (Moved meanings minimum counting (quorum.doc + 1)) := by
  have place := sound.le_doc
  refine search_yields moveLimit quorum sound.settings (sound.ready live) place le_rfl ?_ ?_
  · intro doc from_low before
    lia
  · unfold unpositioned at place
    unfold noMoreDocs moveLimit
    lia

theorem advance (sound : Sound meanings minimum counting quorum) {target : DocId}
    (beyond : quorum.doc < target) (inside : target ≤ noMoreDocs) :
    (quorum.advance target).Yields (Moved meanings minimum counting target) := by
  have ready := sound.ready (by lia)
  have nonneg := nonneg_of_unpositioned_lt (sound.le_doc.trans_lt beyond)
  have minimumSame : quorum.minimum = minimum := congrArg Prod.fst sound.settings
  have higher : Ready meanings target quorum.doc quorum :=
    ⟨ready.ordered, ready.pool.mono beyond.le, ready.reached, ready.live, ready.reserved, ready.enough⟩
  have lags : ∀ doc, quorum.doc ≤ doc → (decide (doc < target) = true ↔ doc < target) :=
    fun doc _ => decide_eq_true_iff
  obtain ⟨goesOn, after, same, settingsAfter, holds⟩ := moveWhile_yields (brings_advance inside) lags
    beyond.le quorum.heap.moveBound quorum higher (quorum.heap.behind_lt_moveBound target)
  have skipped : ∀ doc, target ≤ doc → doc < target →
      (Meaning.matching meanings doc).length < minimum := fun doc from_target before => by lia
  rw [sound.settings] at settingsAfter
  rw [minimumSame] at holds
  simp only [Quorum.advance, if_neg ready.enough.not_gt, same]
  cases goesOn with
  | false =>
    obtain ⟨ended, spent⟩ := holds
    exact ⟨_, _, rfl, moved_of_spent ended settingsAfter inside skipped spent⟩
  | true =>
    obtain ⟨readyAfter, here⟩ := holds
    refine evaluate_resume_yields Quorum.next after settingsAfter readyAfter nonneg le_rfl skipped ?_
    intro later settingsLater readyLater reached skippedLater
    refine search_yields moveLimit later settingsLater readyLater ?_ (by lia) skippedLater ?_
    · exact le_trans (by decide) (nonneg.trans reached)
    · unfold noMoreDocs moveLimit
      lia

end Sound

theorem sound_invariant (meanings : List (Meaning S)) (minimum : Nat) (counting : Bool) :
    Invariant (Meaning.atLeast minimum meanings counting)
      (Sound (σ := σ) meanings minimum counting) where
  place _ sound := sound.place
  next _ sound live := sound.next live
  advance _ _ sound beyond inside := sound.advance beyond inside
  score quorum sound member := ⟨quorum.score, quorum, rfl, ⟨sound.scored member, rfl⟩, sound⟩
  tally quorum sound member := by
    have countingSame : quorum.counting = counting := congrArg Prod.snd sound.settings
    refine ⟨_, quorum, rfl, ⟨⟨sound.scored member, ?_⟩, rfl⟩, sound⟩
    simp only [cursor_doc, countingSame, sound.matchers_eq member]
  count quorum sound member := sound.matchers_eq member

theorem sound_of_ready {quorum : Quorum S σ} (fresh : quorum.doc = unpositioned)
    (ready : Ready meanings unpositioned unpositioned quorum) :
    Sound meanings quorum.minimum quorum.counting quorum := by
  refine ⟨fun _ => ?_, fun _ moved => absurd fresh moved, rfl⟩
  rwa [fresh]

theorem denotes_of_ready {quorum : Quorum S σ} (fresh : quorum.doc = unpositioned)
    (ready : Ready meanings unpositioned unpositioned quorum) :
    Denotes quorum (Meaning.atLeast quorum.minimum meanings quorum.counting) :=
  .of_invariant (sound_invariant meanings quorum.minimum quorum.counting) (sound_of_ready fresh ready) fresh

theorem ofList_ready {scorers : List σ}
    (denote : List.Forall₂ (fun meaning scorer => Denotes scorer meaning) meanings scorers)
    (positive : 0 < minimum) (inside : minimum ≤ scorers.length) {quorum : Quorum S σ}
    (minimumSame : quorum.minimum = minimum) (live : quorum.live = scorers.length)
    (reserve : quorum.reserve = (Ranked.ofList scorers).take (minimum - 1))
    (heap : quorum.heap = .ofList ((Ranked.ofList scorers).drop (minimum - 1))) :
    Ready meanings unpositioned unpositioned quorum := by
  have length : (Ranked.ofList scorers).length = scorers.length := by
    rw [Ranked.ofList, List.length_map, List.length_zipIdx]
  have heapPerm := CursorHeap.ofList_perm ((Ranked.ofList scorers).drop (minimum - 1))
  have together : (Ranked.ofList scorers).Perm (quorum.heap.entries.toList ++ quorum.reserve) := by
    rw [heap, reserve]
    calc Ranked.ofList scorers
      _ = (Ranked.ofList scorers).take (minimum - 1) ++ (Ranked.ofList scorers).drop (minimum - 1) :=
        (List.take_append_drop _ _).symm
      _ ~ (Ranked.ofList scorers).drop (minimum - 1) ++ (Ranked.ofList scorers).take (minimum - 1) :=
        List.perm_append_comm
      _ ~ _ := heapPerm.symm.append_right _
  have total := together.length_eq
  rw [List.length_append] at total
  refine ⟨?_, (Pool.ofList denote unpositioned).perm together, fun entry member => ?_, ?_, ?_, ?_⟩
  · rw [heap]
    exact CursorHeap.ofList_ordered _
  · have ranked := together.mem_iff.mpr (List.mem_append_left quorum.reserve member)
    exact (Ranked.denotes_of_mem_ofList denote ranked).2.fresh.ge
  · omega
  · rw [reserve, List.length_take]
    omega
  · omega

theorem exists_outcome {scorers : List σ} (several : 2 ≤ scorers.length) (positive : 0 < minimum)
    (inside : minimum ≤ scorers.length) :
    ∃ cost, (ofList scorers minimum : Logged (Quorum S σ)).outcome =
        .ok (ofSorted (StableSort.sort (fun a b => decide (Cursor.cost b ≤ Cursor.cost a)) scorers) minimum cost) ∧
      cost.toNat = totalCost scorers % 2 ^ 64 := by
  obtain ⟨cost, summed, exact⟩ := exists_sumCosts scorers
  have inRange : ¬ (minimum = 0 ∨ scorers.length < minimum) := by omega
  refine ⟨cost, ?_, exact⟩
  rw [ofList, if_neg several.not_gt, if_neg inRange, Logged.outcome_map, summed]
  rfl

theorem ofList_denotes {meanings : List (Meaning S)} {scorers : List σ}
    (denote : List.Forall₂ (fun meaning scorer => Denotes scorer meaning) meanings scorers)
    (several : 2 ≤ scorers.length) (positive : 0 < minimum) (inside : minimum ≤ scorers.length) :
    ∃ quorum : Quorum S σ, (ofList scorers minimum).outcome = .ok quorum ∧
      Denotes quorum (Meaning.atLeast minimum meanings false) ∧
      Denotes quorum.thorough (Meaning.atLeast minimum meanings false) ∧
      Denotes quorum.counted (Meaning.atLeast minimum meanings true) ∧
      Denotes quorum.thorough.counted (Meaning.atLeast minimum meanings true) := by
  obtain ⟨order, perm, each⟩ :=
    forall₂_sort (fun a b => decide (Cursor.cost b ≤ Cursor.cost a)) denote
  have length := StableSort.length_sort (fun a b => decide (Cursor.cost b ≤ Cursor.cost a)) scorers
  obtain ⟨cost, same, -⟩ := exists_outcome several positive inside
  refine ⟨_, same, ?_, ?_, ?_, ?_⟩
  all_goals
    refine Denotes.atLeast_perm perm (denotes_of_ready rfl ?_)
    exact ofList_ready each positive (inside.trans length.ge) rfl rfl rfl rfl

/-- With or without early abort, a quorum lands on exactly the documents that enough of its parts have,
from wherever a legal walk has led it. There it knows the exact number of the parts that have the
document, and its score is the rounded total of one score of each of them and no others. -/
theorem lands_on_documents_with_enough_parts {meanings : List (Meaning S)} {scorers : List σ}
    (denote : List.Forall₂ (fun meaning scorer => Denotes scorer meaning) meanings scorers)
    (several : 2 ≤ scorers.length) (positive : 0 < minimum) (inside : minimum ≤ scorers.length)
    (abortsEarly : Bool) :
    ∃ made quorum : Quorum S σ, (ofList scorers minimum).outcome = .ok made ∧
      quorum = (if abortsEarly then made else made.thorough) ∧ Cursor.doc quorum = unpositioned ∧
      ∀ state, Reaches quorum state →
        (Cursor.doc state ≠ noMoreDocs → (Cursor.next state).Yields
          (Arrival (Meaning.enough minimum meanings) (Cursor.doc state + 1))) ∧
        (∀ target, Cursor.doc state < target → target ≤ noMoreDocs →
          (Cursor.advance state target).Yields (Arrival (Meaning.enough minimum meanings) target)) ∧
        (Cursor.doc state ∈ Meaning.enough minimum meanings →
          Scorer.matchCount state = (Meaning.matching meanings (Cursor.doc state)).length ∧
          (Scorer.score state).Yields fun value after => Cursor.doc after = Cursor.doc state ∧
            ∃ values : List S, Gathers (fun part : Meaning S => part.scores (Cursor.doc state))
              (Meaning.matching meanings (Cursor.doc state)) values ∧
              value = Score.round (Score.total values)) := by
  obtain ⟨made, same, plain, thorough, -⟩ := ofList_denotes denote several positive inside
  have denotes : Denotes (if abortsEarly then made else made.thorough)
      (Meaning.atLeast minimum meanings false) := by
    cases abortsEarly with
    | true => exact plain
    | false => exact thorough
  refine ⟨made, _, same, rfl, denotes.fresh, fun state reached => ?_⟩
  have behaves := denotes.refines state reached
  refine ⟨behaves.next, behaves.advance, fun member => ⟨behaves.count member, ?_⟩⟩
  exact (behaves.score member).mono fun value after holds => ⟨holds.2, holds.1⟩

/-- Two terms that share the document 5 alone. -/
theorem two_terms_land_on_shared_document :
    ∃ (quorum after : Quorum Float32 (TermScorer PostingList Float32)),
      (ofList [⟨.fresh [.ofDoc 1, .ofDoc 5], .constant Score.one Score.one⟩,
        ⟨.fresh [.ofDoc 5, .ofDoc 9], .constant Score.one Score.one⟩] 2).outcome = .ok quorum ∧
      Cursor.next quorum = (.ok 5, after) := by
  have first : Posting.Accepted [.ofDoc 1, .ofDoc 5] := ⟨rfl, by decide⟩
  have second : Posting.Accepted [.ofDoc 5, .ofDoc 9] := ⟨rfl, by decide⟩
  obtain ⟨made, quorum, same, rfl, fresh, walk⟩ := lands_on_documents_with_enough_parts
    (S := Float32) (.cons (TermScorer.denotes_of_ofPostings rfl first (.constant Score.one Score.one))
      (.cons (TermScorer.denotes_of_ofPostings rfl second (.constant Score.one Score.one)) .nil))
    le_rfl two_pos le_rfl true
  obtain ⟨landing, after, answer, -, lands⟩ := (walk quorum .refl).1 (by rw [fresh]; decide)
  have shared : (5 : DocId) ∈ Meaning.enough 2 [TermScorer.meaning first (.constant Score.one Score.one),
      TermScorer.meaning second (.constant (Score.one : Float32) Score.one)] :=
    Finset.mem_filter.mpr ⟨mem_allDocs.mpr (by decide), le_of_eq rfl⟩
  have upper : landing ≤ 5 := lands.first 5 shared (by rw [fresh]; decide)
  have here : landing = 5 := by
    rcases lands.place with member | ended
    · have both := (Finset.mem_filter.mp member).2
      simp only [Meaning.matching, List.filter_cons, List.filter_nil] at both
      split_ifs at both with left right
      · simp [TermScorer.meaning, Meaning.leaf, Posting.docs, Posting.ofDoc] at left right
        lia
      all_goals simp at both
    · rw [ended] at upper
      exact absurd upper (by decide)
  exact ⟨quorum, after, same, here ▸ answer⟩

end Quorum

end PostingQuery
