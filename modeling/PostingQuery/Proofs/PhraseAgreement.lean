import Mathlib
import PostingQuery.Proofs.ExactPhrase
import PostingQuery.Proofs.SloppyPhrase

/-!
A sloppy phrase without slop is an exact phrase. Its walk over the positions of a document counts each shifted
position that all terms have once: when the term on turn leaves it, all others stand on it, and then it is behind
one of them.
-/

namespace PostingQuery

namespace SloppyWalk

open SloppyTerm

def sharedBy {n : Nat} (terms : Vector (SloppyTerm PositionStream) n) : Set Int :=
  {number | ∀ i : Fin n, number ∈ (terms.get i).choices}

variable {S : Type} {n : Nat} {walk : SloppyWalk PositionStream S n} {current : Fin n} {span position : Int}
  {unread : List Int} {terms : Vector (SloppyTerm PositionStream) n}

theorem sharedBy_finite (terms : Vector (SloppyTerm PositionStream) n) (i : Fin n) : (sharedBy terms).Finite :=
  (terms.get i).choices.finite_toSet.subset fun _ shared => shared i

namespace OnTurn

theorem mem_shared_iff (turn : OnTurn walk current span) :
    (walk.terms.get current).shifted ∈ sharedBy walk.terms ↔
      walk.largest ≤ (walk.terms.get current).shifted := by
  constructor
  · intro shared
    obtain ⟨i, top⟩ := turn.greatest.1
    change (walk.terms.get i).shifted = walk.largest at top
    rw [← top]
    rcases List.mem_cons.mp (shared i) with same | later
    · exact same.ge
    · exact (List.pairwise_cons.mp (turn.sorted i)).1 _ later
  · intro reached i
    have upper : (walk.terms.get i).shifted ≤ walk.largest := turn.greatest.2 (Set.mem_range_self i)
    have here : (walk.terms.get current).shifted = (walk.terms.get i).shifted :=
      le_antisymm (turn.least i) (upper.trans reached)
    exact List.mem_cons.mpr (.inl here)

theorem next_between (turn : OnTurn walk current span) (several : 2 ≤ n) :
    (walk.terms.get current).shifted ≤ nextShifted walk.queue ∧ nextShifted walk.queue ≤ walk.largest := by
  have count := turn.everyone.length_eq
  rw [List.length_cons, List.length_map, List.length_finRange] at count
  cases waiting : walk.queue with
  | nil =>
    rw [waiting, List.length_nil] at count
    omega
  | cons first rest =>
    have shifted := turn.waits.shifted first (waiting ▸ List.mem_cons_self)
    change _ ≤ first.shifted ∧ first.shifted ≤ _
    rw [shifted]
    exact ⟨turn.least first.index, turn.greatest.2 (Set.mem_range_self first.index)⟩

theorem shared_of_ended (turn : OnTurn walk current span) (ended : (walk.terms.get current).postings.unread = []) :
    (sharedBy walk.terms).ncard = if walk.largest ≤ (walk.terms.get current).shifted then 1 else 0 := by
  have within : sharedBy walk.terms ⊆ {(walk.terms.get current).shifted} := by
    intro number shared
    have chosen : number ∈ (walk.terms.get current).choices := shared current
    rw [choices, ended, List.map_nil] at chosen
    exact List.mem_singleton.mp chosen
  split
  next reached =>
    have here := turn.mem_shared_iff.mpr reached
    rw [within.antisymm (Set.singleton_subset_iff.mpr here), Set.ncard_singleton]
  next apart =>
    have none : sharedBy walk.terms = ∅ := by
      refine Set.eq_empty_of_forall_notMem fun number shared => apart ?_
      rw [Set.mem_singleton_iff.mp (within shared)] at shared
      exact turn.mem_shared_iff.mp shared
    rw [none, Set.ncard_empty]

section Move

variable (turn : OnTurn walk current span)
  (stream : (walk.terms.get current).postings.unread = position :: unread)
  (here : terms.get current = (walk.terms.get current).onto position unread)
  (elsewhere : ∀ i : Fin n, current ≠ i → terms.get i = walk.terms.get i)

include stream here elsewhere in
theorem mem_shared_of_moved {number : Int} (other : number ≠ (walk.terms.get current).shifted) :
    number ∈ sharedBy terms ↔ number ∈ sharedBy walk.terms := by
  refine forall_congr' fun i => ?_
  by_cases same : current = i
  · subst same
    rw [here, choices_onto stream, List.mem_cons, or_iff_right other]
  · rw [elsewhere i same]

include turn stream here elsewhere in
theorem shared_of_passed (several : 2 ≤ n)
    (passed : nextShifted walk.queue < position - (walk.terms.get current).offset) :
    (sharedBy walk.terms).ncard =
      (sharedBy terms).ncard +
        if walk.largest ≤ (walk.terms.get current).shifted then 1 else 0 := by
  have sorted := turn.sorted current
  rw [choices_onto stream, List.pairwise_cons, choices, List.pairwise_cons] at sorted
  have behind : (walk.terms.get current).shifted ∉ sharedBy terms := by
    intro shared
    have between := turn.next_between several
    have chosen := shared current
    change (walk.terms.get current).shifted ∈ (terms.get current).choices at chosen
    rw [here] at chosen
    rcases List.mem_cons.mp chosen with same | later
    · change _ = position - (walk.terms.get current).offset at same
      lia
    · have beyond := sorted.2.1 _ later
      change position - (walk.terms.get current).offset ≤ _ at beyond
      lia
  have kept : ∀ number, number ≠ (walk.terms.get current).shifted →
      (number ∈ sharedBy terms ↔ number ∈ sharedBy walk.terms) :=
    fun number other => mem_shared_of_moved stream here elsewhere other
  split
  next reached =>
    have split : sharedBy walk.terms =
        insert (walk.terms.get current).shifted (sharedBy terms) := by
      ext number
      rw [Set.mem_insert_iff]
      by_cases same : number = (walk.terms.get current).shifted
      · rw [same, eq_self, true_or, iff_true]
        exact turn.mem_shared_iff.mpr reached
      · rw [kept number same, or_iff_right same]
    rw [split, Set.ncard_insert_of_notMem behind (sharedBy_finite terms current)]
  next apart =>
    have same : sharedBy walk.terms = sharedBy terms := by
      ext number
      by_cases same : number = (walk.terms.get current).shifted
      · subst same
        exact iff_of_false (fun shared => apart (turn.mem_shared_iff.mp shared)) behind
      · exact (kept number same).symm
    rw [same, add_zero]

include turn stream here elsewhere in
theorem shared_of_level (several : 2 ≤ n)
    (level : position - (walk.terms.get current).offset ≤ nextShifted walk.queue) :
    sharedBy walk.terms = sharedBy terms := by
  ext number
  by_cases same : number = (walk.terms.get current).shifted
  · subst same
    constructor
    · intro shared i
      by_cases own : current = i
      · subst own
        have reached := turn.mem_shared_iff.mp shared
        have between := turn.next_between several
        have rises := turn.steady.rises stream
        rw [here]
        refine List.mem_cons.mpr (.inl ?_)
        change _ = position - (walk.terms.get current).offset
        lia
      · rw [elsewhere i own]
        exact shared i
    · intro shared i
      by_cases own : current = i
      · subst own
        exact List.mem_cons_self
      · rw [← elsewhere i own]
        exact shared i
  · exact (mem_shared_of_moved stream here elsewhere same).symm

end Move

end OnTurn

variable [Score S]

/-- Without slop, a run counts each shared position that is still ahead once. The shortest span is zero as soon as
the term on turn has met all others. -/
theorem run_occurrences (relevance : Relevance S) (several : 2 ≤ n) (reads : Nat)
    (walk : SloppyWalk PositionStream S n) (current : Fin n) (span : Int) (turn : OnTurn walk current span)
    (level : span ≤ 0 ↔ walk.largest ≤ (walk.terms.get current).shifted) (enough : left walk.terms < reads) :
    (run [] relevance 0 reads walk current span (nextShifted walk.queue)).Yields fun _ after =>
      after.occurrences = walk.occurrences + (sharedBy walk.terms).ncard := by
  induction reads generalizing walk current span with
  | zero => omega
  | succ reads ih =>
    rcases move_yields walk turn.readable current with
      ⟨ended, same⟩ | ⟨position, unread, stream, same, readable, fewer⟩
    · rw [run, same]
      refine ⟨(), _, rfl, (judge_occurrences walk relevance 0 span).trans ?_⟩
      rw [turn.shared_of_ended ended]
      simp only [level]
    · have here : (walk.terms.set current ((walk.terms.get current).onto position unread)).get current =
          (walk.terms.get current).onto position unread := by
        rw [get_set, if_pos rfl]
      have elsewhere : ∀ i : Fin n, current ≠ i →
          (walk.terms.set current ((walk.terms.get current).onto position unread)).get i = walk.terms.get i :=
        fun i other => by rw [get_set, if_neg other]
      have moved := turn.moved stream readable here elsewhere
      have passes := turn.shared_of_passed stream here elsewhere several
      have stays := turn.shared_of_level stream here elsewhere several
      have shifted := congrArg SloppyTerm.shifted here
      change _ = position - (walk.terms.get current).offset at shifted
      rw [run, same]
      generalize walk.terms.set current ((walk.terms.get current).onto position unread) = terms
        at here elsewhere moved fewer passes stays shifted
      have alone : separate [] current
          (readBound { walk with terms, largest := max walk.largest (position - (walk.terms.get current).offset) })
          { walk with terms, largest := max walk.largest (position - (walk.terms.get current).offset) } current
          false = (.ok true, { walk with
            terms, largest := max walk.largest (position - (walk.terms.get current).offset) }) := by
        rw [readBound_eq, separate_nil]
      have remaining : left terms < reads := by omega
      have place : terms[current] = terms.get current := rfl
      simp only [alone, place, shifted]
      split
      next passed =>
        have counted := passes passed
        have judged := judge_occurrences { walk with
          terms, largest := max walk.largest (position - (walk.terms.get current).offset) } relevance 0 span
        simp only [judge_terms, judge_queue, judge_largest]
        generalize max walk.largest (position - (walk.terms.get current).offset) = largest at *
        have waits := moved.waits.enqueue current
        cases queued : enqueue terms walk.queue current with
        | nil =>
          rw [queued] at waits
          cases waits.perm.length_eq
        | cons first queue =>
          rw [queued] at waits
          have next : ∀ freq occurrences, OnTurn (S := S) ⟨terms, largest, queue, freq, occurrences⟩ first.index
              (largest - (terms.get first.index).shifted) :=
            fun _ _ => .of_waits moved.readable moved.sorted moved.greatest waits turn.everyone
          obtain ⟨answer, after, ran, total⟩ := ih _ _ _ (next _ _) sub_nonpos remaining
          refine ⟨answer, after, ran, total.trans ?_⟩
          change (SloppyWalk.judge _ relevance 0 span).occurrences + (sharedBy terms).ncard = _
          rw [judged, counted]
          simp only [level]
          omega
      next before =>
        have reached := not_lt.mp before
        have between := turn.next_between several
        have rises := turn.steady.rises stream
        have kept : max walk.largest (position - (walk.terms.get current).offset) = walk.largest :=
          max_eq_left (reached.trans between.2)
        rw [kept] at moved ⊢
        have next := moved.stays turn (shifted.trans_le reached)
        rw [shifted] at next
        -- The span is zero from the moment on at which the term has met the others.
        have levelAfter : min span (walk.largest - (position - (walk.terms.get current).offset)) ≤ 0 ↔
            walk.largest ≤ (terms.get current).shifted := by
          rw [shifted, min_le_iff, level, sub_nonpos]
          exact or_iff_right_of_imp fun met => met.trans rises
        obtain ⟨answer, after, ran, total⟩ := ih _ current _ next levelAfter remaining
        refine ⟨answer, after, ran, total.trans ?_⟩
        rw [stays reached]

end SloppyWalk

namespace SloppyShape

open PhrasePart SloppyWalk ExactPhrase

variable {S : Type} [Score S] {last : Nat} {shape : SloppyShape S last} {doc : DocId}

/-- Without slop and repeat groups, the matches counted in a common document are the shifted positions that all
terms have there. -/
theorem occurrencesOn_eq (several : 1 ≤ last) (alone : shape.groups = []) (exact : shape.slop = 0)
    (common : ∀ i, doc ∈ Posting.docs (shape.parts i).postings) :
    shape.occurrencesOn doc = {number | ∀ i, number ∈ shiftedIn (shape.parts i) doc}.ncard := by
  obtain ⟨walk, current, turn, choices, -, none, measured⟩ := measured_by_run alone common
  obtain ⟨⟨⟩, after, ran, counted⟩ := run_occurrences shape.relevance (by omega)
    (left walk.terms + 1) walk current _ turn sub_nonpos (Nat.lt_succ_self _)
  have shared : sharedBy walk.terms = {number | ∀ i, number ∈ shiftedIn (shape.parts i) doc} := by
    ext number
    exact forall_congr' fun i => by rw [choices i]
  rw [(measured after (exact ▸ ran)).2, counted, none, zero_add, shared]

omit [Score S] in
theorem close_zero_iff : Close (fun i => shiftedIn (shape.parts i) doc) 0 ↔
    ∃ number, ∀ i, number ∈ shiftedIn (shape.parts i) doc := by
  rw [close_iff_window]
  refine exists_congr fun low => forall_congr' fun i => ?_
  constructor
  · rintro ⟨position, listed, above, below⟩
    rw [add_zero] at below
    rwa [le_antisymm above below]
  · exact fun listed => ⟨low, listed, le_rfl, (add_zero low).ge⟩

variable {parts : List PhrasePart} {first start : Int}

omit [Score S] in
theorem occursAt_iff (perm : (List.ofFn shape.parts).Perm parts) :
    OccursAt parts first doc start ↔ ∀ i, start - first ∈ shiftedIn (shape.parts i) doc := by
  have each : ∀ part : PhrasePart, start + (part.position - first) ∈ Posting.positionsIn part.postings doc ↔
      start - first ∈ shiftedIn part doc := by
    intro part
    rw [shiftedIn, List.mem_map]
    constructor
    · exact fun listed => ⟨_, listed, by ring⟩
    · rintro ⟨position, listed, same⟩
      rwa [show start + (part.position - first) = position by lia]
  rw [← List.forall_mem_ofFn_iff (f := shape.parts) (P := fun part => start - first ∈ shiftedIn part doc)]
  simp only [OccursAt, each, perm.mem_iff]

omit [Score S] in
theorem ncard_occursAt (perm : (List.ofFn shape.parts).Perm parts) (first : Int) :
    {start | OccursAt parts first doc start}.ncard =
      {number | ∀ i, number ∈ shiftedIn (shape.parts i) doc}.ncard := by
  have image : {number | ∀ i, number ∈ shiftedIn (shape.parts i) doc} =
      (· - first) '' {start | OccursAt parts first doc start} := by
    ext number
    constructor
    · intro shared
      refine ⟨number + first, (occursAt_iff perm).mpr ?_, add_sub_cancel_right number first⟩
      rwa [add_sub_cancel_right]
    · rintro ⟨start, occurs, rfl⟩
      exact (occursAt_iff perm).mp occurs
  rw [image, Set.ncard_image_of_injective _ (sub_left_injective (b := first))]

omit [Score S] in
theorem common_of_occursAt (perm : (List.ofFn shape.parts).Perm parts) (occurs : OccursAt parts first doc start)
    (i : Fin (last + 1)) : doc ∈ Posting.docs (shape.parts i).postings := by
  refine Posting.mem_docs_of_positionsIn (occurs (shape.parts i) (perm.mem_iff.mp ?_))
  exact List.mem_ofFn.mpr ⟨i, rfl⟩

theorem mem_docs_iff_occursAt [Score.SumsUp S] (perm : (List.ofFn shape.parts).Perm parts)
    (alone : shape.groups = []) (exact : shape.slop = 0) (rewards : Rewards shape.relevance shape.slop) :
    doc ∈ shape.docs ↔ IsReal doc ∧ ∃ start, OccursAt parts first doc start := by
  rw [mem_docs, and_assoc]
  refine and_congr_right fun _ => ?_
  constructor
  · rintro ⟨common, positive⟩
    rw [isPositive_freqOn_iff alone rewards common, exact, close_zero_iff] at positive
    obtain ⟨number, shared⟩ := positive
    refine ⟨number + first, (occursAt_iff perm).mpr ?_⟩
    rwa [add_sub_cancel_right]
  · rintro ⟨start, occurs⟩
    have common := common_of_occursAt perm occurs
    refine ⟨common, ?_⟩
    rw [isPositive_freqOn_iff alone rewards common, exact, close_zero_iff]
    exact ⟨_, (occursAt_iff perm).mp occurs⟩

end SloppyShape

section Together

variable {S σ τ : Type} [Scorer S σ] [Scorer S τ]

theorem Lands.unique {docs : Finset DocId} (real : ∀ doc ∈ docs, IsReal doc) {low landing other : DocId}
    (lands : Lands docs low landing) (otherLands : Lands docs low other) : landing = other := by
  have below : ∀ {one another}, Lands docs low one → Lands docs low another → one ≤ another := by
    intro one another here there
    rcases there.place with member | rfl
    · exact here.first another member there.reached
    · rcases here.place with member | ended
      · exact (real one member).2.le
      · exact ended.le
  exact le_antisymm (below lands otherLands) (below otherLands lands)

theorem same_landing {docs : Finset DocId} (real : ∀ doc ∈ docs, IsReal doc) {low : DocId} {move : Step σ DocId}
    {other : Step τ DocId} (yields : move.Yields (Arrival docs low)) (otherYields : other.Yields (Arrival docs low)) :
    (∃ landing, move.1 = .ok landing ∧ other.1 = .ok landing) ∧ Cursor.doc move.2 = Cursor.doc other.2 := by
  obtain ⟨landing, after, rfl, rfl, lands⟩ := yields
  obtain ⟨otherLanding, otherAfter, rfl, rfl, otherLands⟩ := otherYields
  have same := lands.unique real otherLands
  exact ⟨⟨_, rfl, by rw [same]⟩, same⟩

theorem stays_of_yields {α : Type} {step : Step σ α} {post : α → Prop} {doc : DocId}
    (yields : step.Yields fun answer after => post answer ∧ Cursor.doc after = doc) : Cursor.doc step.2 = doc := by
  obtain ⟨answer, after, rfl, -, stays⟩ := yields
  exact stays

inductive StepTogether : σ × τ → σ × τ → Prop where
  | next (first : σ) (second : τ) (live : Cursor.doc first ≠ noMoreDocs) :
      StepTogether (first, second) ((Cursor.next first).2, (Cursor.next second).2)
  | advance (first : σ) (second : τ) (target : DocId) (beyond : Cursor.doc first < target)
      (inside : target ≤ noMoreDocs) :
      StepTogether (first, second) ((Cursor.advance first target).2, (Cursor.advance second target).2)
  | score (first : σ) (second : τ) (placed : IsReal (Cursor.doc first)) :
      StepTogether (first, second) ((Scorer.score first).2, (Scorer.score second).2)
  | tally (first : σ) (second : τ) (placed : IsReal (Cursor.doc first)) :
      StepTogether (first, second) ((Scorer.scoreCounting first).2, (Scorer.scoreCounting second).2)

structure InStep (start : σ × τ) (pair : σ × τ) : Prop where
  first : Reaches start.1 pair.1
  second : Reaches start.2 pair.2
  doc : Cursor.doc pair.1 = Cursor.doc pair.2

variable {start pair after : σ × τ} {meaning other : Meaning S}

theorem InStep.step (inStep : InStep start pair) (refines : Refines start.1 meaning)
    (otherRefines : Refines start.2 other) (same : meaning.docs = other.docs)
    (step : StepTogether pair after) : InStep start after := by
  have known : Refines pair.1 meaning := fun later further => refines later (inStep.first.trans further)
  have behaves := known.behaves
  have otherBehaves := otherRefines pair.2 inStep.second
  have docs := inStep.doc
  cases step with
  | next first second live =>
    have yields := otherBehaves.next (docs ▸ live)
    rw [← same, ← docs] at yields
    exact ⟨inStep.first.tail (.next first live), inStep.second.tail (.next second (docs ▸ live)),
      (same_landing meaning.real (behaves.next live) yields).2⟩
  | advance first second target beyond inside =>
    have yields := otherBehaves.advance target (docs ▸ beyond) inside
    rw [← same] at yields
    exact ⟨inStep.first.tail (.advance first target beyond inside),
      inStep.second.tail (.advance second target (docs ▸ beyond) inside),
      (same_landing meaning.real (behaves.advance target beyond inside) yields).2⟩
  | score first second placed =>
    have has := known.member_of_real placed
    have otherHas : Cursor.doc second ∈ other.docs := same ▸ docs ▸ has
    refine ⟨inStep.first.tail (.score first placed), inStep.second.tail (.score second (docs ▸ placed)), ?_⟩
    exact (stays_of_yields (behaves.score has)).trans
      (docs.trans (stays_of_yields (otherBehaves.score otherHas)).symm)
  | tally first second placed =>
    have has := known.member_of_real placed
    have otherHas : Cursor.doc second ∈ other.docs := same ▸ docs ▸ has
    refine ⟨inStep.first.tail (.tally first placed), inStep.second.tail (.tally second (docs ▸ placed)), ?_⟩
    exact (stays_of_yields (behaves.tally has)).trans
      (docs.trans (stays_of_yields (otherBehaves.tally otherHas)).symm)

theorem inStep_of_denotes {first : σ} {second : τ} (denotes : Denotes first meaning)
    (otherDenotes : Denotes second other) (same : meaning.docs = other.docs)
    (reached : Relation.ReflTransGen StepTogether (first, second) pair) : InStep (first, second) pair := by
  induction reached with
  | refl => exact ⟨.refl, .refl, denotes.fresh.trans otherDenotes.fresh.symm⟩
  | tail _ step ih => exact ih.step denotes.refines otherDenotes.refines same step

end Together

/-- Scores in which an exact occurrence adds something to the frequency of a sloppy phrase. -/
class Score.RewardsExact (S : Type) [Score S] : Prop where
  isPositive_reciprocalSlop : Score.isPositive (Relevance.reciprocalSlop 0 : S) = true

instance : Score.RewardsExact ℚ where
  isPositive_reciprocalSlop := by
    change decide ((0 : ℚ) < 1 / (((0 : Int) : ℚ) + 1)) = true
    norm_num

instance : Score.RewardsExact Float32 := ⟨by decide +kernel⟩

namespace SloppyPhrase

open PhrasePart SloppyShape SloppyWalk

variable {P S : Type} [PostingSource P] [Score S] [Score.SumsUp S] [Score.RewardsExact S]

/-- Without slop and repeated terms a sloppy phrase walks in step with an exact phrase of the same terms: they
land on the same documents, and the matches counted in one are the occurrences counted in the other. -/
theorem walks_in_step_with_exact_phrase {parts : List PhrasePart} {terms : List (PhraseTerm P)}
    (makes : Makes parts terms) (differ : TextsDiffer terms) (relevance : Relevance S) {reciprocal : Relevance S}
    (default : reciprocal.slopFactor = Relevance.reciprocalSlop) {settings : Settings}
    (valid : settings.validate = .ok ()) :
    ∃ exact sloppy, ExactPhrase.ofTerms terms relevance settings = .ok exact ∧
      (ofTerms terms 0 reciprocal).outcome = .ok sloppy ∧ Cursor.doc exact = unpositioned ∧
      ∀ pair, Relation.ReflTransGen StepTogether (exact, sloppy) pair →
        Cursor.doc pair.1 = Cursor.doc pair.2 ∧
        (Cursor.doc pair.1 ≠ noMoreDocs → ∃ landing,
          (Cursor.next pair.1).1 = .ok landing ∧ (Cursor.next pair.2).1 = .ok landing) ∧
        (∀ target, Cursor.doc pair.1 < target → target ≤ noMoreDocs → ∃ landing,
          (Cursor.advance pair.1 target).1 = .ok landing ∧ (Cursor.advance pair.2 target).1 = .ok landing) ∧
        (IsReal (Cursor.doc pair.1) → pair.2.occurrences = pair.1.freq) := by
  obtain ⟨lead, followers, first, exact, exactPerm, followed, least, made, fresh, exactSound⟩ :=
    ExactPhrase.ofTerms_sound makes relevance valid
  obtain ⟨last, shape, sloppy, sloppyMade, sloppyFresh, sound, perm, rfl, slop, unrepeated⟩ :=
    ofTerms_sound makes le_rfl reciprocal
  have alone := unrepeated differ
  have rewards : Rewards shape.relevance shape.slop := by
    intro distance nonneg within
    rw [slop] at within
    rw [default, le_antisymm within nonneg]
    exact Score.RewardsExact.isPositive_reciprocalSlop
  have several : 1 ≤ last := by
    have length := perm.length_eq
    have enough := makes.several
    rw [List.length_ofFn] at length
    omega
  have leastAll := (isFirst_perm exactPerm).mp least
  have mem : ∀ doc, doc ∈ shape.docs ↔ IsReal doc ∧ ∃ start, OccursAt parts first doc start := fun doc =>
    shape.mem_docs_iff_occursAt perm alone slop rewards
  have exactInvariant := ExactPhrase.sound_invariant (P := P) least followed relevance
  have sloppyInvariant := shape.sound_invariant (P := P)
  have denotes := Denotes.of_invariant exactInvariant exactSound fresh
  have sloppyDenotes := Denotes.of_invariant sloppyInvariant sound sloppyFresh
  have same : (ExactPhrase.meaning (lead :: followers) first relevance).docs = shape.meaning.docs := by
    ext doc
    change doc ∈ ExactPhrase.docs (lead :: followers) first ↔ doc ∈ shape.docs
    rw [ExactPhrase.docs_perm exactPerm, ExactPhrase.mem_docs leastAll, mem]
  refine ⟨exact, sloppy, made, sloppyMade, fresh, fun pair reached => ?_⟩
  have inStep := inStep_of_denotes denotes sloppyDenotes same reached
  have behaves := denotes.refines pair.1 inStep.first
  have sloppyBehaves := sloppyDenotes.refines pair.2 inStep.second
  refine ⟨inStep.doc, fun live => ?_, fun target beyond inside => ?_, fun real => ?_⟩
  · have yields := sloppyBehaves.next (inStep.doc ▸ live)
    rw [← same, ← inStep.doc] at yields
    exact (same_landing (Meaning.real _) (behaves.next live) yields).1
  · have yields := sloppyBehaves.advance target (inStep.doc ▸ beyond) inside
    rw [← same] at yields
    exact (same_landing (Meaning.real _) (behaves.advance target beyond inside) yields).1
  · have soundExact := exactInvariant.holds_of_reaches exactSound inStep.first
    have member := exactInvariant.member_of_real soundExact real
    obtain ⟨places, doc, freq, counted, state, rests⟩ := sloppyInvariant.holds_of_reaches sound inStep.second
    have here : Cursor.doc pair.1 = doc := inStep.doc.trans (by rw [state]; rfl)
    have has : doc ∈ shape.docs := by
      rw [same, here] at member
      exact member
    have starts : pair.1.freq = {start | OccursAt parts first (Cursor.doc pair.1) start}.ncard := by
      have listed : {start | OccursAt parts first (Cursor.doc pair.1) start} =
          (PhrasePart.occurrences parts first (Cursor.doc pair.1) : Set Int) := by
        ext start
        exact (mem_occurrences_iff leastAll).symm
      rw [listed, Set.ncard_coe_finset, ← occurrences_perm exactPerm]
      exact soundExact.freq member
    rw [starts, here, ncard_occursAt perm, state]
    exact (rests.occurrences has).trans (shape.occurrencesOn_eq several alone slop (mem_docs.mp has).1.2)

def neighbours : List (PhraseTerm PostingList) :=
  [⟨.fresh [⟨2, 2, [0, 7]⟩, ⟨4, 4, [1, 5, 5, 8]⟩], 3, none⟩,
    ⟨.fresh [⟨2, 1, [9]⟩, ⟨4, 4, [2, 2, 9, 9]⟩], 4, none⟩]

/-- The repeated positions count once. -/
theorem neighbours_meet_twice :
    ∃ (exact : ExactPhrase PostingList Float32) (sloppy : SloppyPhrase PostingList Float32),
      ExactPhrase.ofTerms neighbours (.constant Score.one Score.one) .standard = .ok exact ∧
      (ofTerms neighbours 0 (.constant 1 1)).outcome = .ok sloppy ∧
      (Cursor.next exact).1 = .ok 4 ∧ (Cursor.next sloppy).1 = .ok 4 ∧
      (Cursor.next sloppy).2.occurrences = 2 ∧ (Cursor.next exact).2.freq = 2 := by
  let early : PhrasePart := ⟨[⟨2, 2, [0, 7]⟩, ⟨4, 4, [1, 5, 5, 8]⟩], 3, ⟨⟨rfl, by decide⟩, by decide⟩⟩
  let late : PhrasePart := ⟨[⟨2, 1, [9]⟩, ⟨4, 4, [2, 2, 9, 9]⟩], 4, ⟨⟨rfl, by decide⟩, by decide⟩⟩
  have makes : Makes [early, late] neighbours :=
    ⟨.cons ⟨PostingList.standsAt rfl, rfl⟩ (.cons ⟨PostingList.standsAt rfl, rfl⟩ .nil), by decide,
      by simp [early, late]⟩
  obtain ⟨exact, sloppy, made, sloppyMade, fresh, walk⟩ := walks_in_step_with_exact_phrase makes
    (by simp [TextsDiffer, neighbours]) (.constant Score.one Score.one)
    (show (Relevance.constant (1 : Float32) 1).slopFactor = Relevance.reciprocalSlop from rfl)
    (show Settings.standard.validate = .ok () from rfl)
  have landed : (Cursor.next exact).1 = .ok 4 ∧ (Cursor.next exact).2.freq = 2 ∧
      Cursor.doc (Cursor.next exact).2 = 4 := by
    cases Except.ok.inj made
    decide +kernel
  have live : Cursor.doc exact ≠ noMoreDocs := by
    rw [fresh]
    decide
  obtain ⟨landing, first, second⟩ := (walk (exact, sloppy) .refl).2.1 live
  obtain rfl : 4 = landing := Except.ok.inj (landed.1.symm.trans first)
  have counts := (walk _ (.single (.next exact sloppy live))).2.2.2 (by rw [landed.2.2]; decide)
  exact ⟨exact, sloppy, made, sloppyMade, first, second, counts.trans landed.2.1, landed.2.1⟩

end SloppyPhrase

end PostingQuery
