import Mathlib
import PostingQuery.Proofs.Gather
import PostingQuery.Proofs.Walk
import PostingQuery.Scorer.Conjunction

/-!
The walk of a conjunction, wherever its parts stand when it is made. A part is never brought back, so one that was put
in further on waits there and lets every document before it pass. The invariant of the walk: each follower stands
between the place where it was put in and the document of the conjunction, if that lies beyond. Whatever a legal step
of a part preserves is preserved along with it, for a conjunction asks its parts for legal steps only.
-/

namespace PostingQuery

namespace Placed

variable {S σ : Type} [Scorer S σ]

structure Follows (keeps : σ → Prop) (place : Placed σ) : Prop where
  noted : place.doc = Cursor.doc place.scorer
  here : keeps place.scorer

theorem move_yields {keeps : σ → Prop} (place : Placed σ) {docs : Finset DocId} {low : DocId}
    (move : σ → Step σ DocId)
    (yields : (move place.scorer).Yields fun landing after =>
      Arrival docs low landing after ∧ keeps after) :
    (place.move move).Yields fun landing moved =>
      (moved.doc = landing ∧ Lands docs low landing) ∧ moved.Follows keeps := by
  obtain ⟨landing, after, same, ⟨arrived, lands⟩, here⟩ := yields
  refine ⟨landing, ⟨landing, after⟩, ?_, ⟨rfl, lands⟩, ⟨arrived.symm, here⟩⟩
  simp only [Placed.move, same]

section Follows

variable {meaning : Meaning S} {keeps : σ → Prop} {place : Placed σ}

theorem Follows.doc_le (follows : place.Follows keeps) (invariant : Invariant meaning keeps) :
    place.doc ≤ noMoreDocs :=
  follows.noted ▸ (invariant.refines follows.here).doc_le

theorem Follows.member (follows : place.Follows keeps) (invariant : Invariant meaning keeps)
    (real : IsReal place.doc) : place.doc ∈ meaning.docs := by
  rw [follows.noted] at real ⊢
  exact invariant.member_of_real follows.here real

theorem Follows.tally (follows : place.Follows keeps) (invariant : Invariant meaning keeps)
    (real : IsReal place.doc) :
    ((Scorer.scoreCounting place.scorer).within (Placed.mk place.doc)).Yields fun answer after =>
      (meaning.tallies place.doc answer ∧ after.doc = place.doc) ∧ after.Follows keeps := by
  have member : Cursor.doc place.scorer ∈ meaning.docs := follows.noted ▸ follows.member invariant real
  obtain ⟨answer, after, same, ⟨tallied, stays⟩, here⟩ := invariant.tally _ follows.here member
  rw [← follows.noted] at tallied stays
  exact ⟨answer, ⟨place.doc, after⟩, by rw [same]; rfl, ⟨tallied, rfl⟩, ⟨stays.symm, here⟩⟩

end Follows

variable {holds : Meaning S → σ → Prop}

/-- A part with the document on which it was put in. It still stands there, or it has been moved up to a candidate at
most. -/
structure Trails (holds : Meaning S → σ → Prop) (candidate : DocId) (part : Meaning S × DocId) (place : Placed σ) :
    Prop where
  follows : place.Follows (holds part.1)
  started : part.2 ≤ place.doc
  behind : place.doc ≤ max candidate part.2

section Trails

variable {candidate : DocId} {part : Meaning S × DocId} {place : Placed σ}

theorem Trails.mono (trails : place.Trails holds candidate part) {later : DocId} (le : candidate ≤ later) :
    place.Trails holds later part := by
  refine { trails with behind := ?_ }
  calc
    place.doc ≤ max candidate part.2 := trails.behind
    _ ≤ max later part.2 := max_le_max_right part.2 le

theorem Trails.doc_eq (trails : place.Trails holds candidate part) (reached : candidate ≤ place.doc) :
    place.doc = max candidate part.2 :=
  le_antisymm trails.behind (max_le reached trails.started)

theorem Follows.trails (follows : place.Follows (holds part.1)) (here : place.doc = candidate)
    (started : part.2 ≤ candidate) : place.Trails holds candidate part :=
  ⟨follows, here ▸ started, here ▸ le_max_left _ _⟩

end Trails

/-- How a sweep over the followers ends: with none of them before the candidate, or with one that it has moved beyond
it and that shows that no shared document lies between. -/
def Leveled (holds : Meaning S → σ → Prop) (parts : List (Meaning S × DocId)) (candidate : DocId)
    (places : List (Placed σ)) : Option DocId → Prop
  | none => List.Forall₂ (fun part place => Trails holds candidate part place) parts places ∧
      ∀ place ∈ places, candidate ≤ place.doc
  | some beyond => candidate < beyond ∧ beyond ≤ noMoreDocs ∧
      List.Forall₂ (fun part place => Trails holds beyond part place) parts places ∧
      ∃ part ∈ parts, part.2 ≤ candidate ∧ Covers part.1.docs candidate beyond

theorem align_yields (invariant : ∀ part, Invariant part (holds part)) {candidate : DocId} (real : IsReal candidate)
    {parts : List (Meaning S × DocId)} {places : List (Placed σ)}
    (trails : List.Forall₂ (fun part place => Trails holds candidate part place) parts places) :
    (align candidate places).Yields fun answer after => Leveled holds parts candidate after answer := by
  induction trails with
  | nil => exact ⟨none, [], rfl, .nil, nofun⟩
  | @cons part place parts places head tail ih =>
    -- A part on the candidate, or put in beyond it, leaves the verdict to those after it.
    have goOn : ∀ settled : Placed σ, settled.Trails holds candidate part → candidate ≤ settled.doc →
        ((align candidate places).within (settled :: ·)).Yields fun answer after =>
          Leveled holds (part :: parts) candidate after answer := by
      intro settled settledTrails reached
      refine Step.Yields.within (ih.mono fun answer after leveled => ?_)
      cases answer with
      | none => exact ⟨.cons settledTrails leveled.1, List.forall_mem_cons.mpr ⟨reached, leveled.2⟩⟩
      | some beyond =>
        obtain ⟨further, inside, trailing, other, member, covers⟩ := leveled
        exact ⟨further, inside, .cons (settledTrails.mono further.le) trailing, other,
          List.mem_cons_of_mem part member, covers⟩
    simp only [align]
    split
    next lagging =>
      have lags : Cursor.doc place.scorer < candidate := head.follows.noted ▸ lagging
      have started : part.2 < candidate := head.started.trans_lt lagging
      obtain ⟨landing, moved, same, ⟨here, lands⟩, follows⟩ :=
        place.move_yields (Cursor.advance · candidate)
          ((invariant part.1).advance _ candidate head.follows.here lags real.2.le)
      simp only [same]
      split
      next overshot =>
        have ahead : moved.Trails holds landing part := follows.trails here (started.trans overshot).le
        have inside : landing ≤ noMoreDocs := here ▸ follows.doc_le (invariant part.1)
        have others := tail.imp fun _ _ trails => trails.mono overshot.le
        exact ⟨some landing, moved :: places, rfl, overshot, inside, .cons ahead others, part, List.mem_cons_self,
          started.le, lands.covers⟩
      next within =>
        have landed : landing = candidate := le_antisymm (not_lt.mp within) lands.reached
        exact goOn moved (follows.trails (here.trans landed) started.le) (here.trans landed).ge
    next level => exact goOn place head (not_lt.mp level)

end Placed

namespace Conjunction

variable {S σ : Type} [Scorer S σ]

/-- A conjunction whose parts have been put in anywhere. On its documents, no follower stands before the lead, but
those that were put in further on still wait there. -/
structure Staggered (holds : Meaning S → σ → Prop) (lead : Meaning S) (parts : List (Meaning S × DocId)) (factor : S)
    (counting : Bool) (conjunction : Conjunction S σ) : Prop where
  lead : conjunction.lead.Follows (holds lead)
  /-- Before its first move, the conjunction does not tell where the lead was put in. -/
  leads : conjunction.lead.doc = conjunction.doc ∨
    (conjunction.doc = unpositioned ∧ conjunction.lead.doc ≠ noMoreDocs)
  followers : List.Forall₂ (fun part place => Placed.Trails holds conjunction.doc part place) parts
    conjunction.followers
  level : conjunction.doc ≠ noMoreDocs → ∀ place ∈ conjunction.followers, conjunction.doc ≤ place.doc
  factor : conjunction.factor = factor
  counting : conjunction.counting = counting

/-- Documents that the lead has and that every follower has or was put in beyond. -/
def Admitted (docs : Finset DocId) (lead : Meaning S) (parts : List (Meaning S × DocId)) : Prop :=
  ∀ doc, doc ∈ docs ↔ doc ∈ lead.docs ∧ ∀ part ∈ parts, doc ∈ part.1.docs ∨ doc < part.2

variable {holds : Meaning S → σ → Prop} {leadMeaning : Meaning S} {parts : List (Meaning S × DocId)}
  {docs : Finset DocId} {factor : S} {counting : Bool} (invariant : ∀ part, Invariant part (holds part))
  {conjunction : Conjunction S σ}

theorem Staggered.lead_doc (staggered : Staggered holds leadMeaning parts factor counting conjunction)
    (real : IsReal conjunction.doc) : conjunction.lead.doc = conjunction.doc := by
  refine staggered.leads.resolve_right fun ⟨fresh, _⟩ => ?_
  rw [fresh] at real
  exact absurd real (by decide)

include invariant

theorem Staggered.bounds (staggered : Staggered holds leadMeaning parts factor counting conjunction) :
    unpositioned ≤ conjunction.doc ∧ conjunction.doc ≤ conjunction.lead.doc := by
  have low : unpositioned ≤ conjunction.lead.doc := by
    rw [staggered.lead.noted]
    exact ((invariant leadMeaning).refines staggered.lead.here).le_doc
  rcases staggered.leads with leads | ⟨fresh, -⟩
  · exact ⟨leads ▸ low, leads.ge⟩
  · exact ⟨fresh.ge, fresh ▸ low⟩

theorem Staggered.member (staggered : Staggered holds leadMeaning parts factor counting conjunction)
    (admitted : Admitted docs leadMeaning parts) (real : IsReal conjunction.doc) : conjunction.doc ∈ docs := by
  refine (admitted _).mpr ⟨?_, fun part member => ?_⟩
  · have leads := staggered.lead_doc real
    rw [← leads] at real ⊢
    exact staggered.lead.member (invariant leadMeaning) real
  · obtain ⟨place, placed, trails⟩ := exists_partner staggered.followers member
    have here := trails.doc_eq (staggered.level real.ne_noMoreDocs place placed)
    rcases lt_or_ge conjunction.doc part.2 with before | started
    · exact .inr before
    · rw [max_eq_left started] at here
      rw [← here] at real ⊢
      exact .inl (trails.follows.member (invariant part.1) real)

theorem settle_yields (admitted : Admitted docs leadMeaning parts) {low : DocId} (moves : Nat)
    (conjunction : Conjunction S σ) (candidate : DocId) (lead : conjunction.lead.Follows (holds leadMeaning))
    (leads : conjunction.lead.doc = candidate)
    (followers : List.Forall₂ (fun part place => Placed.Trails holds candidate part place) parts
      conjunction.followers)
    (factorSame : conjunction.factor = factor) (countingSame : conjunction.counting = counting)
    (covers : Covers docs low candidate) (reached : low ≤ candidate) (nonneg : 0 ≤ candidate)
    (enough : noMoreDocs < candidate + moves) :
    (settle moves conjunction candidate).Yields fun landing after =>
      (after.doc = landing ∧ Lands docs low landing) ∧
      Staggered holds leadMeaning parts factor counting after := by
  have inside : candidate ≤ noMoreDocs := leads ▸ lead.doc_le (invariant leadMeaning)
  induction moves generalizing conjunction candidate with
  | zero => lia
  | succ moves ih =>
    unfold settle
    split
    next ended =>
      refine ⟨noMoreDocs, _, rfl, ⟨rfl, ?_⟩, ⟨lead, .inl (leads.trans ended), ended ▸ followers, ?_, factorSame,
        countingSame⟩⟩
      · exact (ended ▸ covers).lands (ended ▸ reached) (.inr rfl)
      · intro live
        exact absurd rfl live
    next live =>
      have real : IsReal candidate := ⟨nonneg, lt_of_le_of_ne inside live⟩
      obtain ⟨answer, swept, same, verdict⟩ := Placed.align_yields invariant real followers
      rw [same]
      cases answer with
      | none =>
        have staggered : Staggered holds leadMeaning parts factor counting
            { conjunction with followers := swept, doc := candidate } :=
          ⟨lead, .inl leads, verdict.1, fun _ => verdict.2, factorSame, countingSame⟩
        have member := staggered.member invariant admitted real
        exact ⟨candidate, _, rfl, ⟨rfl, covers.lands reached (.inl member)⟩, staggered⟩
      | some beyond =>
        obtain ⟨further, beyondInside, trailing, part, listed, started, partCovers⟩ := verdict
        have lags : Cursor.doc conjunction.lead.scorer < beyond := by
          rw [← lead.noted, leads]
          exact further
        obtain ⟨landing, moved, leadSame, ⟨here, lands⟩, leadFollows⟩ :=
          conjunction.lead.move_yields (Cursor.advance · beyond)
            ((invariant leadMeaning).advance _ beyond lead.here lags beyondInside)
        simp only [leadSame]
        have jumped : beyond ≤ landing := lands.reached
        refine ih { conjunction with lead := moved, followers := swept } landing leadFollows here
          (trailing.imp fun _ _ trails => trails.mono jumped) factorSame countingSame ?_ ?_ ?_ ?_ ?_
        · -- The lead and the part that overshot rule out all documents up to the landing.
          intro doc member from_low
          obtain ⟨leadHas, each⟩ := (admitted doc).mp member
          have from_candidate := covers doc member from_low
          have partHas : doc ∈ part.1.docs :=
            (each part listed).resolve_right (not_lt.mpr (started.trans from_candidate))
          exact lands.first doc leadHas (partCovers doc partHas from_candidate)
        · lia
        · lia
        · lia
        · exact here ▸ leadFollows.doc_le (invariant leadMeaning)

theorem Staggered.moveLead_yields (staggered : Staggered holds leadMeaning parts factor counting conjunction)
    (admitted : Admitted docs leadMeaning parts) {low : DocId} {move : σ → Step σ DocId}
    (beyond : conjunction.doc < low) (nonneg : 0 ≤ low)
    (yields : (move conjunction.lead.scorer).Yields fun landing after =>
      Arrival leadMeaning.docs low landing after ∧ holds leadMeaning after) :
    (conjunction.moveLead move).Yields fun landing after =>
      (after.doc = landing ∧ Lands docs low landing) ∧
      Staggered holds leadMeaning parts factor counting after := by
  obtain ⟨landing, moved, same, ⟨here, lands⟩, follows⟩ := conjunction.lead.move_yields move yields
  simp only [moveLead, same]
  have jumped : low ≤ landing := lands.reached
  refine settle_yields invariant admitted moveLimit { conjunction with lead := moved } landing follows here
    (staggered.followers.imp fun _ _ trails => trails.mono (beyond.le.trans jumped)) staggered.factor
    staggered.counting ?_ jumped (nonneg.trans jumped) ?_
  · intro doc member from_low
    exact lands.first doc ((admitted doc).mp member).1 from_low
  · simp only [noMoreDocs, moveLimit] at *
    lia

theorem Staggered.next_yields (staggered : Staggered holds leadMeaning parts factor counting conjunction)
    (admitted : Admitted docs leadMeaning parts) (live : conjunction.doc ≠ noMoreDocs) :
    conjunction.next.Yields fun landing after =>
      (after.doc = landing ∧ Lands docs (conjunction.lead.doc + 1) landing) ∧
      Staggered holds leadMeaning parts factor counting after := by
  have noted := staggered.lead.noted
  obtain ⟨low, bound⟩ := staggered.bounds invariant
  have leadLive : conjunction.lead.doc ≠ noMoreDocs := by
    rcases staggered.leads with leads | ⟨-, started⟩
    · rwa [leads]
    · exact started
  have yields := (invariant leadMeaning).next _ staggered.lead.here (noted ▸ leadLive)
  rw [← noted] at yields
  unfold unpositioned at low
  exact staggered.moveLead_yields invariant admitted (by lia) (by lia) yields

theorem Staggered.advance_yields (staggered : Staggered holds leadMeaning parts factor counting conjunction)
    (admitted : Admitted docs leadMeaning parts) {target : DocId} (beyond : conjunction.doc < target)
    (inside : target ≤ noMoreDocs) :
    (conjunction.advance target).Yields fun landing after =>
      (after.doc = landing ∧ Lands docs (max target conjunction.lead.doc) landing) ∧
      Staggered holds leadMeaning parts factor counting after := by
  have noted := staggered.lead.noted
  obtain ⟨low, bound⟩ := staggered.bounds invariant
  have nonneg : 0 ≤ target := nonneg_of_unpositioned_lt (low.trans_lt beyond)
  unfold advance
  split
  next lags =>
    rw [max_eq_left lags.le]
    have yields := (invariant leadMeaning).advance _ target staggered.lead.here (noted ▸ lags) inside
    exact staggered.moveLead_yields invariant admitted beyond nonneg yields
  next there =>
    have reached : target ≤ conjunction.lead.doc := not_lt.mp there
    rw [max_eq_right reached]
    refine settle_yields invariant admitted moveLimit conjunction conjunction.lead.doc staggered.lead rfl
      (staggered.followers.imp fun _ _ trails => trails.mono bound) staggered.factor staggered.counting
      (Covers.of_le le_rfl) le_rfl (nonneg.trans reached) ?_
    simp only [noMoreDocs, moveLimit]
    lia

theorem Staggered.scoreCounting_yields [Score S]
    (staggered : Staggered holds leadMeaning parts factor counting conjunction)
    (live : ∀ part ∈ parts, part.2 < noMoreDocs) (real : IsReal conjunction.doc) :
    conjunction.scoreCounting.Yields fun answer after =>
      ((∃ answers : List (S × Nat),
        List.Forall₂ (fun (part : Meaning S × DocId) answer => part.1.tallies (max conjunction.doc part.2) answer)
          ((leadMeaning, unpositioned) :: parts) answers ∧
        answer = (Score.round (Score.total (answers.map (·.1))) * factor,
          (answers.map (·.2)).sum + if counting then answers.length else 0)) ∧
        after.doc = conjunction.doc) ∧
      Staggered holds leadMeaning parts factor counting after := by
  have leads := staggered.lead_doc real
  obtain ⟨first, lead, leadSame, ⟨firstTallied, leadStays⟩, leadFollows⟩ :=
    staggered.lead.tally (invariant leadMeaning) (leads ▸ real)
  have single : List.Forall₂ (fun (part : Meaning S × DocId) (place : Placed σ) =>
      ((Scorer.scoreCounting place.scorer).within (Placed.mk place.doc)).Yields fun answer after =>
        (part.1.tallies (max conjunction.doc part.2) answer ∧ conjunction.doc ≤ after.doc) ∧
          after.Trails holds conjunction.doc part) parts conjunction.followers := by
    rw [List.forall₂_iff_get]
    refine ⟨staggered.followers.length_eq, fun i inParts inFollowers => ?_⟩
    have trails := staggered.followers.get inParts inFollowers
    have reached := staggered.level real.ne_noMoreDocs _ (List.get_mem conjunction.followers ⟨i, inFollowers⟩)
    have here := trails.doc_eq reached
    have placed : IsReal (max conjunction.doc (parts.get ⟨i, inParts⟩).2) :=
      ⟨real.1.trans (le_max_left _ _), max_lt real.2 (live _ (List.get_mem ..))⟩
    refine (trails.follows.tally (invariant _) (here ▸ placed)).mono fun answer after ⟨⟨tallied, stays⟩, follows⟩ => ?_
    exact ⟨⟨here ▸ tallied, stays ▸ reached⟩, follows, stays ▸ trails.started, stays ▸ trails.behind⟩
  obtain ⟨results, eachSame, each⟩ := Step.each_yields
    (fun (part : Meaning S × DocId) (result : (S × Nat) × Placed σ) =>
      (part.1.tallies (max conjunction.doc part.2) result.1 ∧ conjunction.doc ≤ result.2.doc) ∧
        result.2.Trails holds conjunction.doc part) single
  have answered : List.Forall₂ (fun (part : Meaning S × DocId) answer =>
      part.1.tallies (max conjunction.doc part.2) answer) parts (results.map (·.1)) :=
    List.forall₂_map_right_iff.mpr (each.imp fun _ _ holds => holds.1.1)
  have trailing : List.Forall₂ (fun part place => Placed.Trails holds conjunction.doc part place) parts
      (results.map (·.2)) :=
    List.forall₂_map_right_iff.mpr (each.imp fun _ _ holds => holds.2)
  have level : ∀ place ∈ results.map (·.2), conjunction.doc ≤ place.doc := by
    intro place placed
    obtain ⟨result, member, rfl⟩ := List.mem_map.mp placed
    obtain ⟨part, _, holds⟩ := exists_partner each.flip member
    exact holds.1.2
  have sizes : conjunction.followers.length = results.length :=
    staggered.followers.length_eq.symm.trans each.length_eq
  have ownTally : leadMeaning.tallies (max conjunction.doc unpositioned) first := by
    rw [max_eq_left (staggered.bounds invariant).1, ← leads]
    exact firstTallied
  have same : conjunction.scoreCounting =
      (.ok (Score.round (Score.total ((first :: results.map (·.1)).map (·.1))) * factor,
        ((first :: results.map (·.1)).map (·.2)).sum +
          if counting then (first :: results.map (·.1)).length else 0),
        { conjunction with lead := lead, followers := results.map (·.2) }) := by
    simp [scoreCounting, leadSame, eachSame, ← staggered.factor, ← staggered.counting, size, Conjunction.parts, sizes,
      List.sum, List.foldr_map]
  exact ⟨_, _, same, ⟨⟨_, .cons ownTally answered, rfl⟩, rfl⟩,
    leadFollows, .inl (leadStays.trans leads), trailing, fun _ => level, staggered.factor, staggered.counting⟩

end Conjunction

end PostingQuery
