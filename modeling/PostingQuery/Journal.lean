import PostingQuery.Failure

/-!
The journal of an evaluation: the events worth telling, and computations that may fail and report
events. The wording of each event is given once. Events reported before a failure are kept.
-/

namespace PostingQuery

inductive LogLevel where
  | debug
  | trace
  deriving DecidableEq

inductive Event where
  | nothingMatches (required optional minimum : Nat)
  | requiredOnly (required : Nat)
  | optionalOnly (optional : Nat)
  | someOptional (minimum optional : Nat)
  | oneOptional
  | allOptional (optional : Nat)
  | everyClause (required optional : Nat)
  | gated (minimum optional : Nat)
  | bonus (optional : Nat)
  | windowed (optional prohibited : Nat)
  | repeatGroups (groups terms : Nat)
  | windowFilled (bound : DocId) (hits : Nat) (more : Bool)
  | terminatedEarly
  | costOverflow
  deriving DecidableEq

namespace Event

/-- Where additions are checked, a run ends with such an event. Elsewhere it goes on modulo `2 ^ 64`. -/
def isFault : Event → Bool
  | costOverflow => true
  | _ => false

def level : Event → LogLevel
  | windowFilled .. => .trace
  | _ => .debug

def message : Event → String
  | nothingMatches required optional minimum =>
    s!"boolean with {required} required, {optional} optional (mm {minimum}) matches nothing"
  | requiredOnly required => s!"pure conjunction over {required} required clauses"
  | optionalOnly optional => s!"pure disjunction over {optional} optional clauses"
  | someOptional minimum optional => s!"{minimum} of {optional} optional clauses"
  | oneOptional => "single optional clause"
  | allOptional optional => s!"all {optional} optional clauses required"
  | everyClause required optional =>
    s!"conjunction over {required} required and {optional} optional clauses"
  | gated minimum optional => s!"required clauses gated by {minimum} of {optional} optional clauses"
  | bonus optional => s!"required clauses with {optional} optional bonus clauses"
  | windowed optional prohibited =>
    s!"windowed bulk scorer over {optional} optional and {prohibited} prohibited clauses"
  | repeatGroups groups terms => s!"sloppy phrase with {groups} repeat group(s) over {terms} terms"
  | windowFilled bound hits more => s!"filled window ending at {bound} with {hits} hits, more: {more}"
  | terminatedEarly => "collection terminated early"
  | costOverflow => "attempt to add with overflow"

def render (event : Event) : String :=
  match event.level with
  | .debug => "debug: " ++ event.message
  | .trace => "trace: " ++ event.message

end Event

@[ext]
structure Logged (α : Type) where
  outcome : Except Failure α
  events : List Event

namespace Logged

variable {α β : Type}

def silent (outcome : Except Failure α) : Logged α := ⟨outcome, []⟩

def report (event : Event) : Logged Unit := ⟨.ok (), [event]⟩

def map (change : α → β) (logged : Logged α) : Logged β := ⟨logged.outcome.map change, logged.events⟩

/-- Goes on with the second computation unless the first fails. Its events come after those of the
first. -/
def andThen (first : Logged α) (next : α → Logged β) : Logged β :=
  match first.outcome with
  | .ok value =>
    let second := next value
    ⟨second.outcome, first.events ++ second.events⟩
  | .error failure => ⟨.error failure, first.events⟩

instance : Monad Logged where
  pure value := silent (.ok value)
  bind := andThen

instance : MonadLift (Except Failure) Logged where
  monadLift := silent

section Outcome

variable (first : Logged α) (next : α → Logged β)

@[simp] theorem outcome_map (change : α → β) : (first.map change).outcome = first.outcome.map change := rfl

@[simp] theorem outcome_bind : (first >>= next).outcome = first.outcome >>= fun value => (next value).outcome := by
  change (first.andThen next).outcome = _
  unfold andThen
  cases first.outcome with
  | error failure => rfl
  | ok value => rfl

variable {first next} in
theorem outcome_bind_of_ok {value : α} (same : first.outcome = .ok value) :
    (first >>= next).outcome = (next value).outcome := by
  rw [outcome_bind, same]
  rfl

@[simp] theorem outcome_lift (outcome : Except Failure α) : (liftM outcome : Logged α).outcome = outcome := rfl

end Outcome

def fault? (logged : Logged α) : Option (Event × List Event) :=
  match logged.events.span (!·.isFault) with
  | (earlier, fault :: _) => some (fault, earlier)
  | (_, []) => none

end Logged

end PostingQuery
