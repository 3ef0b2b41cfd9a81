import Mathlib
import PostingQuery.Proofs.InOrder
import PostingQuery.Proofs.Reliable
import PostingQuery.Proofs.Resume

/-!
Searches in document order whose collectors may refuse any hit. A refusal ends the call and leaves the scorer on the
document that was refused, so the next call offers the same hit again. Whatever is refused and wherever the bounds
lie, the accepted hits of all calls are the hits of the scorer, in order and without a gap.
-/

namespace PostingQuery

structure Ledger (S κ : Type) where
  inner : κ
  accepted : List (Hit S) := []
  refused : List (Hit S) := []

def Ledger.offered {S κ : Type} (ledger : Ledger S κ) : List (Hit S) := ledger.accepted ++ ledger.refused

instance {S κ : Type} [Collector S κ] : Collector S (Ledger S κ) where
  collect ledger doc score :=
    match Collector.collect ledger.inner doc score with
    | (.ok done, inner) => (.ok done, { ledger with inner, accepted := ledger.accepted ++ [⟨doc, score⟩] })
    | (.error failure, inner) =>
      (.error failure, { ledger with inner, refused := ledger.refused ++ [⟨doc, score⟩] })
  acceptsAnyOrder ledger := Collector.acceptsAnyOrder ledger.inner

namespace InOrder

variable {S σ κ : Type} [Scorer S σ]

/-- The hits ahead of a scorer, from the document on where it stands. Scoring a document again gives the same hit. -/
inductive Ahead : σ → List (Hit S) → Prop
  | ended {state : σ} (ended : Cursor.doc state = noMoreDocs) : Ahead state []
  | hit {state scored moved : σ} {value : S} {hits : List (Hit S)} (real : IsReal (Cursor.doc state))
    (same : Scorer.score state = (.ok value, scored)) (again : Scorer.score scored = (.ok value, scored))
    (stays : Cursor.doc scored = Cursor.doc state) (next : Cursor.next scored = (.ok (Cursor.doc moved), moved))
    (beyond : Cursor.doc state < Cursor.doc moved) (rest : Ahead moved hits) :
    Ahead state (⟨Cursor.doc state, value⟩ :: hits)

theorem Ahead.nonneg {state : σ} {hits : List (Hit S)} (ahead : Ahead state hits) : 0 ≤ Cursor.doc state := by
  cases ahead with
  | ended ended => exact ended ▸ (by decide)
  | hit real => exact real.1

theorem exists_ahead {meaning : Meaning S} {low : DocId} {state : σ} (refines : Refines state meaning)
    (repeats : Repeats state) (lands : Lands meaning.docs low (Cursor.doc state)) :
    ∃ hits, Ahead state hits ∧ Delivers meaning low noMoreDocs hits := by
  generalize distance : (noMoreDocs - Cursor.doc state).toNat = steps
  induction steps using Nat.strong_induction_on generalizing state low with
  | _ steps ih =>
    rcases lands.place with member | ended
    · have real := meaning.real _ member
      obtain ⟨value, scored, same, ⟨scores, stays⟩, refinesScored⟩ := refines.score member
      have again := (repeats state .refl real).score
      rw [same] at again
      have walked := LegalStep.score state real
      rw [same] at walked
      have live : Cursor.doc scored ≠ noMoreDocs := stays ▸ real.ne_noMoreDocs
      obtain ⟨landing, moved, sameNext, ⟨rfl, landsNext⟩, refinesMoved⟩ := refinesScored.next live
      have stepped := LegalStep.next scored live
      rw [sameNext] at stepped
      rw [stays] at landsNext
      have beyond : Cursor.doc state < Cursor.doc moved := landsNext.reached
      have repeatsMoved := repeats.after ((Relation.ReflTransGen.single walked).tail stepped)
      have below := real.2
      obtain ⟨hits, ahead, delivers⟩ := ih _ (by lia) refinesMoved repeatsMoved landsNext rfl
      exact ⟨_, .hit real same again stays sameNext beyond ahead, delivers.cons lands member real.2 scores⟩
    · refine ⟨[], .ended ended, delivers_nil fun doc member => ?_⟩
      by_contra from_low
      have first := lands.first doc member (not_lt.mp from_low)
      have below := (meaning.real doc member).2
      lia

abbrev due (bound : DocId) (hits : List (Hit S)) : List (Hit S) := hits.takeWhile fun hit => hit.doc < bound

abbrev left (bound : DocId) (hits : List (Hit S)) : List (Hit S) := hits.dropWhile fun hit => hit.doc < bound

variable [Collector S κ]

/-- How a call goes that finds some hits ahead. Either all that are due are accepted, or the collector refuses one of
them, which is ahead again with all that follow. -/
def Takes (bound : DocId) (ledger : Ledger S κ) (hits : List (Hit S)) (step : Step (σ × Ledger S κ) Bool) : Prop :=
  (∃ answer state inner, step = (.ok answer, (state, ⟨inner, ledger.accepted ++ due bound hits, ledger.refused⟩)) ∧
    (answer = true ↔ left bound hits ≠ []) ∧ Ahead state (left bound hits)) ∨
  ∃ failure state inner taken hit later,
    step = (.error failure, (state, ⟨inner, ledger.accepted ++ taken, ledger.refused ++ [hit]⟩)) ∧
    Collector.Refuses κ failure ∧ hits = taken ++ hit :: later ∧ (∀ early ∈ taken ++ [hit], early.doc < bound) ∧
    Ahead state (hit :: later)

theorem Takes.cons {bound : DocId} {ledger : Ledger S κ} {hit : Hit S} {hits : List (Hit S)} {inner : κ}
    {step : Step (σ × Ledger S κ) Bool} (before : hit.doc < bound)
    (takes : Takes bound ⟨inner, ledger.accepted ++ [hit], ledger.refused⟩ hits step) :
    Takes bound ledger (hit :: hits) step := by
  have dueCons : due bound (hit :: hits) = hit :: due bound hits := List.takeWhile_cons_of_pos (by simpa using before)
  have leftCons : left bound (hit :: hits) = left bound hits := List.dropWhile_cons_of_pos (by simpa using before)
  rcases takes with ⟨answer, state, after, same, answered, ahead⟩ |
    ⟨failure, state, after, taken, refused, later, same, refuses, split, below, ahead⟩
  · refine .inl ⟨answer, state, after, ?_, ?_, ?_⟩
    · rw [same, dueCons, List.append_assoc]
      rfl
    · rw [leftCons]
      exact answered
    · rw [leftCons]
      exact ahead
  · refine .inr ⟨failure, state, after, hit :: taken, refused, later, ?_, refuses, ?_,
      List.forall_mem_cons.mpr ⟨before, below⟩, ahead⟩
    · rw [same, List.append_assoc]
      rfl
    · rw [split]
      rfl

theorem feed_takes {bound : DocId} (inside : bound ≤ noMoreDocs) {state : σ} {hits : List (Hit S)}
    (ahead : Ahead state hits) (moves : Nat) (ledger : Ledger S κ)
    (enough : (noMoreDocs - Cursor.doc state).toNat < moves) :
    Takes bound ledger hits (feed bound moves state ledger (Cursor.doc state)) := by
  -- The induction is on the hits ahead: each of them is offered, or lies at the bound or beyond it.
  induction ahead generalizing moves ledger with
  | @ended state ended =>
    obtain ⟨moves, rfl⟩ := Nat.exists_eq_succ_of_ne_zero (Nat.ne_zero_of_lt enough)
    rw [feed, ended, if_neg (not_lt.mpr inside)]
    exact .inl ⟨_, state, ledger.inner, by rw [due, List.takeWhile_nil, List.append_nil], by simp, .ended ended⟩
  | @hit state scored moved value hits real same again stays next beyond rest ih =>
    obtain ⟨moves, rfl⟩ := Nat.exists_eq_succ_of_ne_zero (Nat.ne_zero_of_lt enough)
    rw [feed]
    by_cases before : Cursor.doc state < bound
    · rw [if_pos before, same]
      dsimp only
      rcases offered : Collector.collect ledger.inner (Cursor.doc state) value with ⟨failure | ⟨⟩, inner⟩
      · have refuses : Collector.Refuses κ failure := ⟨ledger.inner, _, value, congrArg Prod.fst offered⟩
        have refused : Collector.collect ledger (Cursor.doc state) value =
            (.error failure, ⟨inner, ledger.accepted, ledger.refused ++ [⟨Cursor.doc state, value⟩]⟩) := by
          simp only [Collector.collect, offered]
        rw [refused]
        refine .inr ⟨failure, scored, inner, [], ⟨Cursor.doc state, value⟩, hits, ?_, refuses, rfl,
          List.forall_mem_singleton.mpr before, ?_⟩
        · rw [List.append_nil]
        · rw [← stays] at real beyond ⊢
          exact .hit real again again rfl next beyond rest
      · have accepted : Collector.collect ledger (Cursor.doc state) value =
            (.ok (), ⟨inner, ledger.accepted ++ [⟨Cursor.doc state, value⟩], ledger.refused⟩) := by
          simp only [Collector.collect, offered]
        simp only [accepted, next]
        exact Takes.cons before (ih moves _ (by lia))
    · rw [if_neg before]
      have none : ¬decide (Cursor.doc state < bound) = true := by simpa using before
      have dueNone : due bound (⟨Cursor.doc state, value⟩ :: hits) = [] := List.takeWhile_cons_of_neg none
      have leftAll : left bound (⟨Cursor.doc state, value⟩ :: hits) = ⟨Cursor.doc state, value⟩ :: hits :=
        List.dropWhile_cons_of_neg none
      refine .inl ⟨_, state, ledger.inner, by rw [dueNone, List.append_nil], ?_, ?_⟩
      · simpa [leftAll] using real.ne_noMoreDocs
      · rw [leftAll]
        exact .hit real same again stays next beyond rest

/-- The hits ahead of a scorer between two calls. It stands on the first of them, or it has not been moved yet. -/
def Awaits (state : σ) (hits : List (Hit S)) : Prop :=
  Ahead state hits ∨ Cursor.doc state < 0 ∧
    ∃ moved, Cursor.next state = (.ok (Cursor.doc moved), moved) ∧ Ahead moved hits

theorem drain_takes {bound : DocId} (inside : bound ≤ noMoreDocs) {state : σ} {hits : List (Hit S)}
    (awaits : Awaits state hits) (ledger : Ledger S κ) : Takes bound ledger hits (drain state ledger bound) := by
  have fuel : ∀ doc : DocId, 0 ≤ doc → (noMoreDocs - doc).toNat < moveLimit := by
    unfold noMoreDocs moveLimit
    lia
  unfold drain
  generalize moveLimit = moves at fuel ⊢
  rcases awaits with ahead | ⟨fresh, moved, same, ahead⟩
  · simp only [if_neg (not_lt.mpr ahead.nonneg)]
    exact feed_takes inside ahead moves ledger (fuel _ ahead.nonneg)
  · simp only [if_pos fresh, same]
    exact feed_takes inside ahead moves ledger (fuel _ ahead.nonneg)

def call (scorer : σ) (sink : κ) (bound : DocId) : Step (σ × Ledger S κ) Bool := drain scorer ⟨sink, [], []⟩ bound

def afterCalls (scorer : σ) : List (κ × DocId) → σ
  | [] => scorer
  | (sink, bound) :: calls => afterCalls (call scorer sink bound).2.1 calls

def accepted (scorer : σ) : List (κ × DocId) → List (Hit S)
  | [] => []
  | (sink, bound) :: calls =>
    (call scorer sink bound).2.2.accepted ++ accepted (call scorer sink bound).2.1 calls

theorem afterCalls_append (scorer : σ) (calls more : List (κ × DocId)) :
    afterCalls scorer (calls ++ more) = afterCalls (afterCalls scorer calls) more := by
  induction calls generalizing scorer with
  | nil => rfl
  | cons first calls ih => exact ih _

theorem accepted_append (scorer : σ) (calls more : List (κ × DocId)) :
    accepted scorer (calls ++ more) = accepted scorer calls ++ accepted (afterCalls scorer calls) more := by
  induction calls generalizing scorer with
  | nil => rfl
  | cons first calls ih =>
    rw [List.cons_append, accepted, ih, accepted, List.append_assoc]
    rfl

theorem Takes.awaits {bound : DocId} {sink : κ} {hits : List (Hit S)} {step : Step (σ × Ledger S κ) Bool}
    (takes : Takes bound ⟨sink, [], []⟩ hits step) :
    ∃ later, hits = step.2.2.accepted ++ later ∧ Awaits step.2.1 later := by
  rcases takes with ⟨answer, state, after, rfl, -, ahead⟩ | ⟨failure, state, after, taken, hit, later, rfl, -, split, -, ahead⟩
  · exact ⟨left bound hits, List.takeWhile_append_dropWhile.symm, .inl ahead⟩
  · exact ⟨hit :: later, split, .inl ahead⟩

theorem Awaits.afterCalls {scorer : σ} {hits : List (Hit S)} (awaits : Awaits scorer hits) (calls : List (κ × DocId))
    (inside : ∀ call ∈ calls, call.2 ≤ noMoreDocs) :
    ∃ later, hits = accepted scorer calls ++ later ∧ Awaits (afterCalls scorer calls) later := by
  induction calls generalizing scorer hits with
  | nil => exact ⟨hits, rfl, awaits⟩
  | cons first calls ih =>
    obtain ⟨firstInside, restInside⟩ := List.forall_mem_cons.mp inside
    obtain ⟨middle, split, awaitsMiddle⟩ := (drain_takes firstInside awaits ⟨first.1, [], []⟩).awaits
    obtain ⟨later, splitMiddle, awaitsLater⟩ := ih awaitsMiddle restInside
    refine ⟨later, ?_, awaitsLater⟩
    rw [split, splitMiddle, ← List.append_assoc]
    rfl

structure Hands (bound : DocId) (hits : List (Hit S)) (outcome : Except Failure Bool) (ledger : Ledger S κ) :
    Prop where
  offered : ledger.offered <+: due bound hits
  succeeded : ∀ answer, outcome = .ok answer →
    ledger.accepted = due bound hits ∧ ledger.refused = [] ∧ (answer = true ↔ left bound hits ≠ [])
  failed : ∀ failure, outcome = .error failure →
    Collector.Refuses κ failure ∧ ∃ hit, ledger.refused = [hit] ∧ hit.doc < bound

theorem Takes.hands {bound : DocId} {sink : κ} {hits : List (Hit S)} {step : Step (σ × Ledger S κ) Bool}
    (takes : Takes bound ⟨sink, [], []⟩ hits step) : Hands bound hits step.1 step.2.2 := by
  rcases takes with ⟨answer, state, after, rfl, answered, -⟩ |
    ⟨failure, state, after, taken, hit, later, rfl, refuses, rfl, below, -⟩
  · refine ⟨by simp [Ledger.offered], ?_, nofun⟩
    rintro _ ⟨⟩
    exact ⟨rfl, rfl, answered⟩
  · have early : due bound (taken ++ hit :: later) = (taken ++ [hit]) ++ due bound later := by
      rw [List.append_cons]
      exact List.takeWhile_append_of_pos fun other member => decide_eq_true (below other member)
    refine ⟨⟨due bound later, early.symm⟩, nofun, ?_⟩
    rintro _ ⟨⟩
    exact ⟨refuses, hit, rfl, below hit (List.mem_append_right _ (List.mem_singleton_self hit))⟩

theorem collectScoredWithin_eq [Score S] {scorer moved : σ} {hits : List (Hit S)}
    (next : Cursor.next scorer = (.ok (Cursor.doc moved), moved)) (ahead : Ahead moved hits) (moves : Nat)
    (enough : (noMoreDocs - Cursor.doc moved).toNat < moves) (before : List (DocId × S)) :
    (Scorer.collectScoredWithin moves scorer before).1 =
      .ok (before.reverse ++ hits.map fun hit => (hit.doc, hit.score)) := by
  induction ahead generalizing moves scorer before with
  | @ended state ended =>
    obtain ⟨moves, rfl⟩ := Nat.exists_eq_succ_of_ne_zero (Nat.ne_zero_of_lt enough)
    simp [Scorer.collectScoredWithin, next, ended]
  | @hit state scored moved value hits real same again stays step beyond rest ih =>
    obtain ⟨moves, rfl⟩ := Nat.exists_eq_succ_of_ne_zero (Nat.ne_zero_of_lt enough)
    have below := real.2
    rw [Scorer.collectScoredWithin, next]
    simp only [if_neg real.ne_noMoreDocs, same]
    rw [ih step moves (by lia)]
    simp

theorem Takes.awaits_refused {bound : DocId} {sink : κ} {hits : List (Hit S)} {step : Step (σ × Ledger S κ) Bool}
    (takes : Takes bound ⟨sink, [], []⟩ hits step) {hit : Hit S} (refused : step.2.2.refused = [hit]) :
    ∃ later, Awaits step.2.1 (hit :: later) := by
  rcases takes with ⟨answer, state, after, rfl, -⟩ | ⟨failure, state, after, taken, other, later, rfl, -, -, -, ahead⟩
  · cases refused
  · cases refused
    exact ⟨later, .inl ahead⟩

theorem Hands.first {bound : DocId} {hit : Hit S} {hits : List (Hit S)} {outcome : Except Failure Bool}
    {ledger : Ledger S κ} (hands : Hands bound (hit :: hits) outcome ledger) (below : hit.doc < bound) :
    ledger.offered.head? = some hit := by
  have dueFirst : due bound (hit :: hits) = hit :: due bound hits :=
    List.takeWhile_cons_of_pos (decide_eq_true below)
  have offered := hands.offered
  rw [dueFirst, List.prefix_cons_iff] at offered
  rcases offered with none | ⟨others, same, -⟩
  · obtain ⟨noneAccepted, noneRefused⟩ := List.append_eq_nil_iff.mp none
    cases outcome with
    | ok answer =>
      have all := (hands.succeeded answer rfl).1
      rw [noneAccepted, dueFirst] at all
      cases all
    | error failure =>
      obtain ⟨-, refused, same, -⟩ := hands.failed failure rfl
      rw [noneRefused] at same
      cases same
  · rw [same]
    rfl

theorem awaits_of_denotes {meaning : Meaning S} {scorer : σ} (denotes : Denotes scorer meaning)
    (repeats : Repeats scorer) : ∃ moved hits, Cursor.next scorer = (.ok (Cursor.doc moved), moved) ∧
      Ahead moved hits ∧ Delivers meaning 0 noMoreDocs hits ∧ Awaits scorer hits := by
  have live : Cursor.doc scorer ≠ noMoreDocs := by
    rw [denotes.fresh]
    decide
  have step := LegalStep.next scorer live
  obtain ⟨landing, moved, same, ⟨rfl, lands⟩, refines⟩ := denotes.refines.next live
  rw [same] at step
  rw [denotes.fresh] at lands
  obtain ⟨hits, ahead, delivers⟩ := exists_ahead refines (repeats.after (.single step)) lands
  have fresh : Cursor.doc scorer < 0 := by
    rw [denotes.fresh]
    decide
  exact ⟨moved, hits, same, ahead, delivers, .inr ⟨fresh, moved, same, ahead⟩⟩

/-- Whatever is refused, calls share out the hits of a scorer. What they have accepted is the beginning of these
hits, the next call offers what follows, a refused hit comes first in the call behind it, and once a call without a
bound has succeeded, everything has been accepted. -/
def SharesOut [Score S] (κ : Type) [Collector S κ] (scorer : σ) : Prop :=
  ∃ hits : List (Hit S),
    (Scorer.collectScored scorer).1 = .ok (hits.map fun hit => (hit.doc, hit.score)) ∧
    (hits.map (·.doc)).Pairwise (· < ·) ∧
    ∀ calls : List (κ × DocId), (∀ call ∈ calls, call.2 ≤ noMoreDocs) →
      (∃ later, hits = accepted scorer calls ++ later ∧ ∀ (sink : κ) (bound : DocId), bound ≤ noMoreDocs →
        Hands bound later (call (afterCalls scorer calls) sink bound).1
          (call (afterCalls scorer calls) sink bound).2.2) ∧
      (∀ (sink : κ) (bound : DocId) (hit : Hit S), bound ≤ noMoreDocs →
        (call (afterCalls scorer calls) sink bound).2.2.refused = [hit] →
        ∀ (next : κ) (further : DocId), further ≤ noMoreDocs → hit.doc < further →
          (call (afterCalls scorer (calls ++ [(sink, bound)])) next further).2.2.offered.head? = some hit) ∧
      ∀ (sink : κ) (answer : Bool), (call (afterCalls scorer calls) sink noMoreDocs).1 = .ok answer →
        accepted scorer (calls ++ [(sink, noMoreDocs)]) = hits

variable [Score S]

theorem sharesOut_of_reliable {scorer : σ} (reliable : Reliable scorer) : SharesOut κ scorer := by
  obtain ⟨meaning, denotes⟩ := reliable.denotes
  obtain ⟨moved, hits, next, ahead, delivers, awaits⟩ := awaits_of_denotes denotes reliable.repeats
  refine ⟨hits, ?_, delivers.inOrder, fun calls inside => ?_⟩
  · have nonneg := ahead.nonneg
    have enough : (noMoreDocs - Cursor.doc moved).toNat < moveLimit := by
      unfold noMoreDocs moveLimit
      lia
    exact collectScoredWithin_eq next ahead moveLimit enough []
  · obtain ⟨later, split, awaitsLater⟩ := awaits.afterCalls calls inside
    have takes : ∀ (sink : κ) (bound : DocId), bound ≤ noMoreDocs →
        Takes bound ⟨sink, [], []⟩ later (call (afterCalls scorer calls) sink bound) :=
      fun sink bound within => drain_takes within awaitsLater _
    refine ⟨⟨later, split, fun sink bound within => (takes sink bound within).hands⟩,
      fun sink bound hit within refused next further withinNext below => ?_, fun sink answer same => ?_⟩
    · obtain ⟨rest, awaitsRest⟩ := (takes sink bound within).awaits_refused refused
      rw [afterCalls_append]
      exact (drain_takes withinNext awaitsRest ⟨next, [], []⟩).hands.first below
    · have all : ∀ hit ∈ later, decide (hit.doc < noMoreDocs) = true := by
        intro hit member
        have listed : hit ∈ hits := split ▸ List.mem_append_right _ member
        exact decide_eq_true ((delivers.mem_docs hit.doc).mp (List.mem_map_of_mem listed)).2.2
      have whole := ((takes sink noMoreDocs le_rfl).hands.succeeded answer same).1
      rw [due, List.takeWhile_eq_self_iff.mpr all] at whole
      rw [accepted_append, split, accepted, accepted, List.append_nil, whole]

/-- Whatever is refused, the accepted hits of all calls are the hits of the scorer, in order: over every scorer that
can be relied on, and so over every tree of scorers built out of leaves that never fail. -/
theorem calls_accept_each_hit_once (P κ : Type) [PostingSource P] [Collector S κ] :
    (∀ (σ : Type) [Scorer S σ] (scorer : σ), Reliable scorer → SharesOut κ scorer) ∧
      ∀ (height : Nat) (tree : Tree P S height), tree.IsBuilt → SharesOut κ tree :=
  ⟨fun _ _ _ reliable => sharesOut_of_reliable reliable,
    fun _ _ built => sharesOut_of_reliable (Tree.IsBuilt.reliable built)⟩

def termWithBonus : Tree PostingList ℚ 1 :=
  Node.bonus (.ofParts (.term ⟨.fresh [.ofDoc 1, .ofDoc 5], .constant 3 1⟩)
    (.term ⟨.fresh [.ofDoc 5], .constant 4 1⟩))

def roomFor (limit : Nat) : Limited (HitList ℚ) := ⟨{}, limit, 0⟩

/-- The first call has room for one hit and refuses the second, which the other call accepts with the same score. -/
theorem second_call_accepts_refused_hit :
    (call termWithBonus (roomFor 1) noMoreDocs).2.2.refused = [⟨5, 7⟩] ∧
      accepted termWithBonus [(roomFor 1, noMoreDocs), (roomFor 9, noMoreDocs)] = [⟨1, 3⟩, ⟨5, 7⟩] := by
  have listed : Posting.Accepted [.ofDoc 1, .ofDoc 5] := ⟨rfl, by decide⟩
  have added : Posting.Accepted [.ofDoc 5] := ⟨rfl, by decide⟩
  have built : Tree.IsBuilt 1 termWithBonus := .bonus
    (.bare (Leaf.embeds_term.denotes (TermScorer.denotes_of_ofPostings rfl listed (.constant (3 : ℚ) 1))))
    (.bare (Leaf.embeds_term.denotes (TermScorer.denotes_of_ofPostings rfl added (.constant (4 : ℚ) 1))))
  obtain ⟨hits, collected, -, calls⟩ :=
    (calls_accept_each_hit_once PostingList (Limited (HitList ℚ))).2 1 termWithBonus built
  have scored : (Scorer.collectScored termWithBonus).1 = .ok [(1, 3), (5, 7)] := by decide +kernel
  have refused : (call termWithBonus (roomFor 1) noMoreDocs).2.2.refused = [⟨5, 7⟩] := by decide +kernel
  have same : (call (afterCalls termWithBonus [(roomFor 1, noMoreDocs)]) (roomFor 9) noMoreDocs).1 = .ok false := by
    decide +kernel
  have pairs : hits.map (fun hit => (hit.doc, hit.score)) = [(1, 3), (5, 7)] :=
    Except.ok.inj (collected.symm.trans scored)
  have all : hits = [⟨1, 3⟩, ⟨5, 7⟩] := by
    simp only [List.map_eq_cons_iff, List.map_eq_nil_iff, Prod.mk.injEq] at pairs
    obtain ⟨⟨_, _⟩, _, rfl, ⟨rfl, rfl⟩, ⟨_, _⟩, _, rfl, ⟨rfl, rfl⟩, rfl⟩ := pairs
    rfl
  have whole := (calls [(roomFor 1, noMoreDocs)] (by simp)).2.2 (roomFor 9) false same
  exact ⟨refused, whole.trans all⟩

end InOrder

end PostingQuery
