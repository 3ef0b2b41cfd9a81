import Mathlib
import PostingQuery.Scorer.Basic

/-!
What a scorer promises: the documents that its legal walks visit, and the scores that it answers on
them. A scorer refines a meaning if every state that a legal walk reaches keeps the promise. The
main tool is `Invariant`: a property of states that every legal step preserves.
-/

namespace PostingQuery

def IsReal (doc : DocId) : Prop := 0 ≤ doc ∧ doc < noMoreDocs

instance (doc : DocId) : Decidable (IsReal doc) := inferInstanceAs (Decidable (_ ∧ _))

theorem IsReal.ne_noMoreDocs {doc : DocId} (real : IsReal doc) : doc ≠ noMoreDocs := real.2.ne

theorem nonneg_of_unpositioned_lt {doc : DocId} (beyond : unpositioned < doc) : 0 ≤ doc := by
  unfold unpositioned at beyond
  lia

noncomputable def allDocs : Finset DocId := Finset.Ico 0 noMoreDocs

@[simp]
theorem mem_allDocs {doc : DocId} : doc ∈ allDocs ↔ IsReal doc := Finset.mem_Ico

namespace Step

variable {σ τ α β : Type}

def Yields (step : Step σ α) (post : α → σ → Prop) : Prop :=
  ∃ answer state, step = (.ok answer, state) ∧ post answer state

theorem Yields.mono {step : Step σ α} {post weaker : α → σ → Prop} (yields : step.Yields post)
    (implied : ∀ answer state, post answer state → weaker answer state) : step.Yields weaker := by
  obtain ⟨answer, state, same, holds⟩ := yields
  exact ⟨answer, state, same, implied answer state holds⟩

theorem Yields.within {step : Step σ α} {rebuild : σ → τ} {post : α → τ → Prop}
    (yields : step.Yields fun answer state => post answer (rebuild state)) :
    (step.within rebuild).Yields post := by
  obtain ⟨answer, state, same, holds⟩ := yields
  exact ⟨answer, rebuild state, by rw [same]; rfl, holds⟩

theorem Yields.map {step : Step σ α} {change : α → β} {post : β → σ → Prop}
    (yields : step.Yields fun answer state => post (change answer) state) :
    (step.map change).Yields post := by
  obtain ⟨answer, state, same, holds⟩ := yields
  exact ⟨change answer, state, by rw [same]; rfl, holds⟩

/-- The step succeeds and meets a condition, or it fails and leaves a state that meets another one. -/
def Tries (step : Step σ α) (post : α → σ → Prop) (broken : σ → Prop) : Prop :=
  step.Yields post ∨ ∃ failure state, step = (.error failure, state) ∧ broken state

theorem Tries.mono {step : Step σ α} {post weaker : α → σ → Prop} {broken worse : σ → Prop}
    (tries : step.Tries post broken) (implied : ∀ answer state, post answer state → weaker answer state)
    (left : ∀ state, broken state → worse state) : step.Tries weaker worse := by
  rcases tries with yields | ⟨failure, state, same, stopped⟩
  · exact .inl (yields.mono implied)
  · exact .inr ⟨failure, state, same, left state stopped⟩

theorem Tries.within {step : Step σ α} {rebuild : σ → τ} {post : α → τ → Prop} {broken : τ → Prop}
    (tries : step.Tries (fun answer state => post answer (rebuild state)) fun state => broken (rebuild state)) :
    (step.within rebuild).Tries post broken := by
  rcases tries with yields | ⟨failure, state, same, stopped⟩
  · exact .inl yields.within
  · exact .inr ⟨failure, rebuild state, by rw [same]; rfl, stopped⟩

theorem Tries.yields {step : Step σ α} {post : α → σ → Prop} {broken : σ → Prop} (tries : step.Tries post broken)
    (never : ∀ state, ¬broken state) : step.Yields post := by
  rcases tries with yields | ⟨-, state, -, stopped⟩
  · exact yields
  · exact absurd stopped (never state)

/-- A step goes as another one does, with the same answer and related states afterwards, or it fails and leaves a
state that meets a condition. -/
def Agrees (related : σ → τ → Prop) (broken : σ → Prop) (step : Step σ α) (other : Step τ α) : Prop :=
  (∃ outcome state mirror, step = (outcome, state) ∧ other = (outcome, mirror) ∧ related state mirror) ∨
    ∃ failure state, step = (.error failure, state) ∧ broken state

section Agrees

variable {related : σ → τ → Prop} {broken : σ → Prop} {state : σ} {mirror : τ}

theorem Agrees.same {outcome : Except Failure α} (holds : related state mirror) :
    Agrees related broken (outcome, state) (outcome, mirror) :=
  .inl ⟨outcome, state, mirror, rfl, rfl, holds⟩

theorem Agrees.stops {failure : Failure} {other : Step τ α} (stopped : broken state) :
    Agrees related broken (.error failure, state) other :=
  .inr ⟨failure, state, rfl, stopped⟩

theorem Agrees.mono {step : Step σ α} {other : Step τ α} {weaker : σ → τ → Prop} {worse : σ → Prop}
    (agrees : step.Agrees related broken other) (implied : ∀ state mirror, related state mirror → weaker state mirror)
    (left : ∀ state, broken state → worse state) : step.Agrees weaker worse other := by
  rcases agrees with ⟨outcome, state, mirror, same, otherSame, holds⟩ | ⟨failure, state, same, stopped⟩
  · exact .inl ⟨outcome, state, mirror, same, otherSame, implied state mirror holds⟩
  · exact .inr ⟨failure, state, same, left state stopped⟩

end Agrees

theorem each_tries {γ : Type} {step : σ → Step σ α} (post : γ → α × σ → Prop) (held : γ → σ → Prop) (failing : Prop)
    {states : List σ} {labels : List γ} (kept : ∀ label result, post label result → held label result.2)
    (single : List.Forall₂ (fun label state => held label state ∧
      (step state).Tries (fun answer after => post label (answer, after)) fun after => failing ∧ held label after)
      labels states) :
    (∃ results : List (α × σ), each step states = (.ok (results.map (·.1)), results.map (·.2)) ∧
      List.Forall₂ post labels results) ∨
    ∃ failure after, each step states = (.error failure, after) ∧ failing ∧ List.Forall₂ held labels after := by
  induction single with
  | nil => exact .inl ⟨[], rfl, .nil⟩
  | @cons label state labels states head tail ih =>
    rcases head.2 with ⟨answer, after, same, holds⟩ | ⟨failure, after, same, may, holds⟩
    · rcases ih with ⟨results, restSame, restHolds⟩ | ⟨failure, rest, restSame, may, restHolds⟩
      · refine .inl ⟨(answer, after) :: results, ?_, .cons holds restHolds⟩
        simp only [each, same, restSame, List.map_cons]
      · refine .inr ⟨failure, after :: rest, ?_, may, .cons (kept label _ holds) restHolds⟩
        simp only [each, same, restSame]
    · refine .inr ⟨failure, after :: states, ?_, may, .cons holds (tail.imp fun _ _ both => both.1)⟩
      simp only [each, same]

theorem each_yields {γ : Type} {step : σ → Step σ α} (post : γ → α × σ → Prop) {states : List σ}
    {labels : List γ}
    (single : List.Forall₂ (fun label state =>
      (step state).Yields fun answer after => post label (answer, after)) labels states) :
    ∃ results : List (α × σ), each step states = (.ok (results.map (·.1)), results.map (·.2)) ∧
      List.Forall₂ post labels results := by
  rcases each_tries post (fun _ _ => True) False (fun _ _ _ => trivial)
      (single.imp fun _ _ yields => ⟨trivial, .inl yields⟩) with yields | ⟨-, -, -, never, -⟩
  · exact yields
  · exact never.elim

end Step

/-- A cursor that looks for documents from `low` on ends here: on the first such document, or on
`noMoreDocs` if there is none. -/
structure Lands (docs : Finset DocId) (low landing : DocId) : Prop where
  place : landing ∈ docs ∨ landing = noMoreDocs
  reached : low ≤ landing
  first : ∀ doc ∈ docs, low ≤ doc → landing ≤ doc

/-- A cursor at a place has not passed any document from `low` on. -/
def Covers (docs : Finset DocId) (low place : DocId) : Prop := ∀ doc ∈ docs, low ≤ doc → place ≤ doc

theorem Covers.mono {docs : Finset DocId} {low higher place : DocId} (covers : Covers docs low place)
    (le : low ≤ higher) : Covers docs higher place :=
  fun doc member from_higher => covers doc member (le.trans from_higher)

theorem Covers.succ {docs : Finset DocId} {low place : DocId} (covers : Covers docs low place)
    (none : place ∉ docs) : Covers docs low (place + 1) := by
  intro doc member from_low
  have beyond := covers doc member from_low
  have other : doc ≠ place := fun same => none (same ▸ member)
  lia

theorem Covers.of_le {docs : Finset DocId} {low place : DocId} (le : place ≤ low) :
    Covers docs low place :=
  fun _ _ from_low => le.trans from_low

theorem Lands.covers {docs : Finset DocId} {low landing : DocId} (lands : Lands docs low landing) :
    Covers docs low landing := lands.first

theorem Lands.eq_low_iff {docs : Finset DocId} {low landing : DocId} (lands : Lands docs low landing)
    (below : low < noMoreDocs) : landing = low ↔ low ∈ docs := by
  constructor
  · intro same
    have place := lands.place
    rcases place with member | ended
    · rwa [same] at member
    · lia
  · intro member
    exact le_antisymm (lands.first low member le_rfl) lands.reached

theorem Covers.lands {docs : Finset DocId} {low place : DocId} (covers : Covers docs low place)
    (reached : low ≤ place) (here : place ∈ docs ∨ place = noMoreDocs) : Lands docs low place :=
  ⟨here, reached, covers⟩

/-- What a scorer means: its documents, and what it may answer on each of them. -/
structure Meaning (S : Type) where
  docs : Finset DocId
  real : ∀ doc ∈ docs, IsReal doc
  /-- What scoring may answer. -/
  scores : DocId → S → Prop
  /-- What scoring may answer when it counts the matching clauses too. -/
  tallies : DocId → S × Nat → Prop
  /-- What the number of matching clauses may be said to be. -/
  counts : DocId → Nat → Prop

def Meaning.ofDocs {S : Type} (docs : Finset DocId) (real : ∀ doc ∈ docs, IsReal doc) : Meaning S :=
  ⟨docs, real, fun _ _ => True, fun _ _ => True, fun _ _ => True⟩

section Walks

variable {S σ : Type} [Scorer S σ]

/-- One step of a legal walk: a move of a cursor that is not used up, to a target beyond its current
document if there is a target, or the scoring of the current document. -/
inductive LegalStep : σ → σ → Prop where
  | next (state : σ) (live : Cursor.doc state ≠ noMoreDocs) : LegalStep state (Cursor.next state).2
  | advance (state : σ) (target : DocId) (beyond : Cursor.doc state < target)
      (inside : target ≤ noMoreDocs) : LegalStep state (Cursor.advance state target).2
  | score (state : σ) (placed : IsReal (Cursor.doc state)) : LegalStep state (Scorer.score state).2
  | tally (state : σ) (placed : IsReal (Cursor.doc state)) :
      LegalStep state (Scorer.scoreCounting state).2

def Reaches : σ → σ → Prop := Relation.ReflTransGen LegalStep

def Arrival (docs : Finset DocId) (low landing : DocId) (state : σ) : Prop :=
  Cursor.doc state = landing ∧ Lands docs low landing

structure Behaves (meaning : Meaning S) (state : σ) : Prop where
  place : Cursor.doc state = unpositioned ∨ Cursor.doc state ∈ meaning.docs ∨
    Cursor.doc state = noMoreDocs
  next : Cursor.doc state ≠ noMoreDocs →
    (Cursor.next state).Yields (Arrival meaning.docs (Cursor.doc state + 1))
  advance : ∀ target, Cursor.doc state < target → target ≤ noMoreDocs →
    (Cursor.advance state target).Yields (Arrival meaning.docs target)
  score : Cursor.doc state ∈ meaning.docs → (Scorer.score state).Yields fun value after =>
    meaning.scores (Cursor.doc state) value ∧ Cursor.doc after = Cursor.doc state
  tally : Cursor.doc state ∈ meaning.docs → (Scorer.scoreCounting state).Yields fun answer after =>
    meaning.tallies (Cursor.doc state) answer ∧ Cursor.doc after = Cursor.doc state
  count : Cursor.doc state ∈ meaning.docs →
    meaning.counts (Cursor.doc state) (Scorer.matchCount state)

def Refines (start : σ) (meaning : Meaning S) : Prop :=
  ∀ state, Reaches start state → Behaves meaning state

/-- A scorer before its first move that refines a meaning. -/
structure Denotes (scorer : σ) (meaning : Meaning S) : Prop where
  fresh : Cursor.doc scorer = unpositioned
  refines : Refines scorer meaning

/-- A property of states that every legal step preserves and that makes it answer as it should. -/
structure Invariant (meaning : Meaning S) (holds : σ → Prop) : Prop where
  place : ∀ state, holds state → Cursor.doc state = unpositioned ∨ Cursor.doc state ∈ meaning.docs ∨
    Cursor.doc state = noMoreDocs
  next : ∀ state, holds state → Cursor.doc state ≠ noMoreDocs →
    (Cursor.next state).Yields fun landing after =>
      Arrival meaning.docs (Cursor.doc state + 1) landing after ∧ holds after
  advance : ∀ state target, holds state → Cursor.doc state < target → target ≤ noMoreDocs →
    (Cursor.advance state target).Yields fun landing after =>
      Arrival meaning.docs target landing after ∧ holds after
  score : ∀ state, holds state → Cursor.doc state ∈ meaning.docs →
    (Scorer.score state).Yields fun value after =>
      (meaning.scores (Cursor.doc state) value ∧ Cursor.doc after = Cursor.doc state) ∧ holds after
  tally : ∀ state, holds state → Cursor.doc state ∈ meaning.docs →
    (Scorer.scoreCounting state).Yields fun answer after =>
      (meaning.tallies (Cursor.doc state) answer ∧ Cursor.doc after = Cursor.doc state) ∧ holds after
  count : ∀ state, holds state → Cursor.doc state ∈ meaning.docs →
    meaning.counts (Cursor.doc state) (Scorer.matchCount state)

namespace Invariant

variable {meaning : Meaning S} {holds : σ → Prop}

theorem behaves (invariant : Invariant meaning holds) {state : σ} (here : holds state) :
    Behaves meaning state where
  place := invariant.place state here
  next live := (invariant.next state here live).mono fun _ _ both => both.1
  advance target beyond inside :=
    (invariant.advance state target here beyond inside).mono fun _ _ both => both.1
  score member := (invariant.score state here member).mono fun _ _ both => both.1
  tally member := (invariant.tally state here member).mono fun _ _ both => both.1
  count member := invariant.count state here member

theorem member_of_real (invariant : Invariant meaning holds) {state : σ} (here : holds state)
    (placed : IsReal (Cursor.doc state)) : Cursor.doc state ∈ meaning.docs := by
  unfold IsReal at placed
  rcases invariant.place state here with fresh | member | ended
  · simp only [fresh, unpositioned] at placed
    lia
  · exact member
  · lia

theorem preserved (invariant : Invariant meaning holds) {before after : σ} (here : holds before)
    (step : LegalStep before after) : holds after := by
  cases step with
  | next live =>
    obtain ⟨landing, state, same, -, kept⟩ := invariant.next _ here live
    rwa [same]
  | advance target beyond inside =>
    obtain ⟨landing, state, same, -, kept⟩ := invariant.advance _ target here beyond inside
    rwa [same]
  | score placed =>
    obtain ⟨value, state, same, -, kept⟩ :=
      invariant.score _ here (invariant.member_of_real here placed)
    rwa [same]
  | tally placed =>
    obtain ⟨answer, state, same, -, kept⟩ :=
      invariant.tally _ here (invariant.member_of_real here placed)
    rwa [same]

theorem holds_of_reaches (invariant : Invariant meaning holds) {start state : σ} (here : holds start)
    (reached : Reaches start state) : holds state := by
  induction reached with
  | refl => exact here
  | tail _ step ih => exact invariant.preserved ih step

theorem refines (invariant : Invariant meaning holds) {start : σ} (here : holds start) :
    Refines start meaning :=
  fun _ reached => invariant.behaves (invariant.holds_of_reaches here reached)

end Invariant

namespace Refines

variable {meaning : Meaning S} {state : σ}

theorem behaves (refines : Refines state meaning) : Behaves meaning state :=
  refines state .refl

theorem after_step (refines : Refines state meaning) {after : σ} (step : LegalStep state after) :
    Refines after meaning :=
  fun later reached => refines later (.head step reached)

/-- Refining a meaning is itself an invariant, the weakest one. -/
theorem invariant (meaning : Meaning S) : Invariant meaning fun state : σ => Refines state meaning where
  place _ refines := refines.behaves.place
  next state refines live := by
    obtain ⟨landing, after, same, arrival⟩ := refines.behaves.next live
    have kept := refines.after_step (.next state live)
    rw [same] at kept
    exact ⟨landing, after, same, arrival, kept⟩
  advance state target refines beyond inside := by
    obtain ⟨landing, after, same, arrival⟩ := refines.behaves.advance target beyond inside
    have kept := refines.after_step (.advance state target beyond inside)
    rw [same] at kept
    exact ⟨landing, after, same, arrival, kept⟩
  score state refines member := by
    obtain ⟨value, after, same, answer⟩ := refines.behaves.score member
    have kept := refines.after_step (.score state (meaning.real _ member))
    rw [same] at kept
    exact ⟨value, after, same, answer, kept⟩
  tally state refines member := by
    obtain ⟨value, after, same, answer⟩ := refines.behaves.tally member
    have kept := refines.after_step (.tally state (meaning.real _ member))
    rw [same] at kept
    exact ⟨value, after, same, answer, kept⟩
  count _ refines member := refines.behaves.count member

theorem place (refines : Refines state meaning) : Cursor.doc state = unpositioned ∨
    Cursor.doc state ∈ meaning.docs ∨ Cursor.doc state = noMoreDocs :=
  refines.behaves.place

theorem doc_le (refines : Refines state meaning) : Cursor.doc state ≤ noMoreDocs := by
  rcases refines.place with fresh | member | ended
  · rw [fresh]; decide
  · exact (meaning.real _ member).2.le
  · exact ended.le

theorem le_doc (refines : Refines state meaning) : unpositioned ≤ Cursor.doc state := by
  rcases refines.place with fresh | member | ended
  · exact fresh.ge
  · exact le_trans (by decide) (meaning.real _ member).1
  · rw [ended]; decide

theorem member_of_real (refines : Refines state meaning) (placed : IsReal (Cursor.doc state)) :
    Cursor.doc state ∈ meaning.docs :=
  (invariant meaning).member_of_real refines placed

theorem next (refines : Refines state meaning) (live : Cursor.doc state ≠ noMoreDocs) :
    (Cursor.next state).Yields fun landing after =>
      Arrival meaning.docs (Cursor.doc state + 1) landing after ∧ Refines after meaning :=
  (invariant meaning).next state refines live

theorem advance (refines : Refines state meaning) {target : DocId}
    (beyond : Cursor.doc state < target) (inside : target ≤ noMoreDocs) :
    (Cursor.advance state target).Yields fun landing after =>
      Arrival meaning.docs target landing after ∧ Refines after meaning :=
  (invariant meaning).advance state target refines beyond inside

theorem score (refines : Refines state meaning) (member : Cursor.doc state ∈ meaning.docs) :
    (Scorer.score state).Yields fun value after =>
      (meaning.scores (Cursor.doc state) value ∧ Cursor.doc after = Cursor.doc state) ∧
        Refines after meaning :=
  (invariant meaning).score state refines member

theorem tally (refines : Refines state meaning) (member : Cursor.doc state ∈ meaning.docs) :
    (Scorer.scoreCounting state).Yields fun answer after =>
      (meaning.tallies (Cursor.doc state) answer ∧ Cursor.doc after = Cursor.doc state) ∧
        Refines after meaning :=
  (invariant meaning).tally state refines member

theorem reach (refines : Refines state meaning) {target : DocId}
    (covers : Covers meaning.docs target (Cursor.doc state)) (real : IsReal target) :
    (Cursor.reach state target).Yields fun landing after =>
      Arrival meaning.docs target landing after ∧ Refines after meaning := by
  unfold Cursor.reach
  split
  next behind => exact refines.advance behind real.2.le
  next passed =>
    have there : target ≤ Cursor.doc state := not_lt.mp passed
    have here : Cursor.doc state ∈ meaning.docs ∨ Cursor.doc state = noMoreDocs := by
      rcases refines.place with fresh | placed
      · have nonneg := real.1
        rw [fresh, unpositioned] at there
        lia
      · exact placed
    exact ⟨Cursor.doc state, state, rfl, ⟨rfl, covers.lands there here⟩, refines⟩

theorem mono {weaker : Meaning S} (refines : Refines state meaning)
    (sameDocs : meaning.docs = weaker.docs)
    (scores : ∀ doc ∈ meaning.docs, ∀ value, meaning.scores doc value → weaker.scores doc value)
    (tallies : ∀ doc ∈ meaning.docs, ∀ answer, meaning.tallies doc answer → weaker.tallies doc answer)
    (counts : ∀ doc ∈ meaning.docs, ∀ count, meaning.counts doc count → weaker.counts doc count) :
    Refines state weaker := by
  intro later reached
  have behaves := refines later reached
  refine ⟨?_, ?_, ?_, ?_, ?_, ?_⟩
  · rw [← sameDocs]; exact behaves.place
  · rw [← sameDocs]; exact behaves.next
  · rw [← sameDocs]; exact behaves.advance
  · intro member
    rw [← sameDocs] at member
    exact (behaves.score member).mono fun value _ both => ⟨scores _ member value both.1, both.2⟩
  · intro member
    rw [← sameDocs] at member
    exact (behaves.tally member).mono fun answer _ both => ⟨tallies _ member answer both.1, both.2⟩
  · intro member
    rw [← sameDocs] at member
    exact counts _ member _ (behaves.count member)

end Refines

namespace Denotes

variable {meaning : Meaning S} {scorer : σ}

theorem of_invariant {holds : σ → Prop} (invariant : Invariant meaning holds) (here : holds scorer)
    (fresh : Cursor.doc scorer = unpositioned) : Denotes scorer meaning :=
  ⟨fresh, invariant.refines here⟩

theorem doc_lt (denotes : Denotes scorer meaning) {doc : DocId} (real : IsReal doc) : Cursor.doc scorer < doc := by
  rw [denotes.fresh]
  exact lt_of_lt_of_le (by decide) real.1

theorem covers (denotes : Denotes scorer meaning) (low : DocId) :
    Covers meaning.docs low (Cursor.doc scorer) := by
  intro doc member _
  exact (denotes.doc_lt (meaning.real doc member)).le

theorem mono {weaker : Meaning S} (denotes : Denotes scorer meaning)
    (sameDocs : meaning.docs = weaker.docs)
    (scores : ∀ doc ∈ meaning.docs, ∀ value, meaning.scores doc value → weaker.scores doc value)
    (tallies : ∀ doc ∈ meaning.docs, ∀ answer, meaning.tallies doc answer → weaker.tallies doc answer)
    (counts : ∀ doc ∈ meaning.docs, ∀ count, meaning.counts doc count → weaker.counts doc count) :
    Denotes scorer weaker :=
  ⟨denotes.fresh, denotes.refines.mono sameDocs scores tallies counts⟩

end Denotes

end Walks

end PostingQuery
