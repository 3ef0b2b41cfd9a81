import Mathlib
import PostingQuery.Collect.Search
import PostingQuery.Proofs.ExactScore
import PostingQuery.Proofs.Window

/-!
Searches for all hits of a boolean query. The windowed search and the search in document order find the
same documents and, where scores are exact, give them the same scores.
-/

namespace PostingQuery

open BucketTable (gathered)
open LabeledMeaning (matched Wanted)

variable {S σ κ : Type}

theorem HitList.byDoc_perm (list : HitList S) : list.byDoc.Perm list.hits.toList :=
  StableSort.sort_perm _ _

theorem HitList.byDoc_pairwise {list : HitList S} (distinct : (list.hits.toList.map (·.doc)).Nodup) :
    (list.byDoc.map (·.doc)).Pairwise (· < ·) := by
  have weakly : list.byDoc.Pairwise fun a b => decide (a.doc ≤ b.doc) = true := by
    have total : Std.Total fun a b : Hit S => decide (a.doc ≤ b.doc) = true :=
      ⟨fun a b => by simpa using le_total a.doc b.doc⟩
    have transitive : IsTrans (Hit S) fun a b => decide (a.doc ≤ b.doc) = true :=
      ⟨fun a b c first second => by simpa using (of_decide_eq_true first).trans (of_decide_eq_true second)⟩
    rw [byDoc, StableSort.sort_eq_insertionSort]
    exact List.pairwise_insertionSort _ _
  have differ : (list.byDoc.map (·.doc)).Nodup := (list.byDoc_perm.map _).nodup_iff.mpr distinct
  rw [List.Nodup, List.pairwise_map] at differ
  rw [List.pairwise_map]
  exact weakly.imp₂ (fun a b le ne => lt_of_le_of_ne (of_decide_eq_true le) ne) differ

theorem eq_of_pairwise_lt {docs others : List DocId} (inOrder : docs.Pairwise (· < ·))
    (othersInOrder : others.Pairwise (· < ·)) (same : ∀ doc, doc ∈ docs ↔ doc ∈ others) : docs = others := by
  have perm : docs.Perm others :=
    (List.perm_ext_iff_of_nodup (inOrder.imp LT.lt.ne) (othersInOrder.imp LT.lt.ne)).mpr same
  exact perm.eq_of_pairwise (fun _ _ _ _ less more => absurd (less.trans more) (lt_irrefl _)) inOrder
    othersInOrder

theorem hits_eq_map {hits : List (Hit S)} {value : DocId → S}
    (scored : ∀ hit ∈ hits, hit.score = value hit.doc) :
    hits = (hits.map (·.doc)).map fun doc => ⟨doc, value doc⟩ := by
  rw [List.map_map]
  conv_lhs => rw [← List.map_id hits]
  refine List.map_congr_left fun hit member => ?_
  rw [Function.comp_apply, ← scored hit member]
  rfl

section Clauses

variable {optional prohibited : List (Meaning S)} {doc : DocId}

def labeled (optional prohibited : List (Meaning S)) : List (LabeledMeaning S) :=
  optional.map (·, false) ++ prohibited.map (·, true)

theorem matched_labeled (optional prohibited : List (Meaning S)) (doc : DocId) :
    matched (labeled optional prohibited) doc =
      labeled (Meaning.matching optional doc) (Meaning.matching prohibited doc) := by
  rw [matched, labeled, List.filter_append, List.filter_map, List.filter_map]
  rfl

/-- A wanted document has no prohibited clause and enough of the optional ones, but one at least. -/
theorem wanted_iff {minimum : Nat} : Wanted (labeled optional prohibited) minimum doc ↔
    Meaning.matching prohibited doc = [] ∧ minimum ≤ (Meaning.matching optional doc).length ∧
      0 < (Meaning.matching optional doc).length := by
  constructor
  · rintro ⟨some, allowed, enough⟩
    rw [matched_labeled] at some allowed enough
    have none : Meaning.matching prohibited doc = [] := by
      refine List.eq_nil_iff_forall_not_mem.mpr fun clause member => ?_
      have flag := allowed (clause, true) (List.mem_append_right _ (List.mem_map_of_mem member))
      exact absurd flag (show ¬true = false by decide)
    rw [none, labeled, List.map_nil, List.append_nil] at some enough
    rw [List.length_map] at enough
    exact ⟨none, enough, List.length_pos_of_ne_nil fun empty => some (by rw [empty, List.map_nil])⟩
  · rintro ⟨none, enough, some⟩
    have same : matched (labeled optional prohibited) doc = (Meaning.matching optional doc).map (·, false) := by
      rw [matched_labeled, none, labeled, List.map_nil, List.append_nil]
    refine ⟨?_, ?_, ?_⟩
    · rw [same]
      exact List.ne_nil_of_length_pos (by rwa [List.length_map])
    · rw [same]
      simp
    · rwa [same, List.length_map]

theorem wanted_iff_max {minimum : Nat} : Wanted (labeled optional prohibited) minimum doc ↔
    (∀ clause ∈ prohibited, doc ∉ clause.docs) ∧ max minimum 1 ≤ (Meaning.matching optional doc).length := by
  rw [wanted_iff, max_le_iff]
  refine and_congr ?_ Iff.rfl
  simp [Meaning.matching]

theorem mem_selected_iff_wanted {minimum : Nat} : doc ∈ Meaning.selected [] optional prohibited minimum ↔
    IsReal doc ∧ Wanted (labeled optional prohibited) minimum doc := by
  rw [wanted_iff, Meaning.mem_selected, List.length_eq_zero_iff]
  refine and_congr_right fun _ => ?_
  simp [Meaning.matching]

variable [Score S] {minimum : Nat} {coordination : CoordinationTable S} {hits : List (Hit S)}

theorem Results.mem_selected
    (results : Results (labeled optional prohibited) minimum coordination 0 noMoreDocs hits) (doc : DocId) :
    doc ∈ hits.map (·.doc) ↔ doc ∈ Meaning.selected [] optional prohibited minimum := by
  rw [results.mem_docs, mem_selected_iff_wanted]
  rfl

variable [Score.IsExact S]

theorem round_gathered (scores : List S) : Score.round (gathered scores) = Score.sum scores := by
  cases scores with
  | nil => exact Score.IsExact.round_nothing
  | cons first rest => rw [gathered, Score.round_foldl, Score.IsExact.round_widen, Score.sum_cons]

theorem Results.score_eq {low bound : DocId}
    (results : Results (labeled optional prohibited) minimum coordination low bound hits)
    (valued : ∀ clause ∈ optional, clause.Valued) {hit : Hit S} (member : hit ∈ hits) :
    hit.score = Meaning.coordinatedSum optional coordination hit.doc := by
  have wanted := ((results.mem_docs hit.doc).mp (List.mem_map_of_mem member)).2
  obtain ⟨none, -, -⟩ := wanted_iff.mp wanted
  obtain ⟨scores, each, scored⟩ := results.scored hit member
  rw [matched_labeled, none, labeled, List.map_nil, List.append_nil, List.forall₂_map_left_iff] at each
  have summed := Meaning.round_total_gathered valued (Gathers.of_forall₂ each)
  rw [Score.round_total] at summed
  rw [scored, Score.IsExact.scaled_eq, round_gathered, summed, ← each.length_eq]
  rfl

end Clauses

variable [Score S] [Scorer S σ] [Collector S κ] {optional prohibited : List (Meaning S)}

theorem Settings.tableSize_le {settings : Settings} (valid : settings.validate = .ok ()) :
    0 < settings.bucketTableSize.toNat ∧ (settings.bucketTableSize.toNat : Int) ≤ noMoreDocs := by
  unfold validate at valid
  split at valid
  next => cases valid
  next unrefused =>
    unfold refusal at unrefused
    split at unrefused
    · cases unrefused
    · split at unrefused
      · cases unrefused
      · rename_i sized small
        rw [UInt64.lt_iff_toNat_lt] at small
        rw [Bool.or_eq_true, not_or, decide_eq_true_iff, UInt64.lt_iff_toNat_lt] at sized
        have least := sized.1
        change ¬_ < 2 at least
        change ¬2147483647 < _ at small
        unfold noMoreDocs
        omega

omit [Collector S κ] in
theorem WindowedSearch.ofClauses_standing {clauses excluded : List σ} (should : AllDenote optional clauses)
    (mustNot : AllDenote prohibited excluded) {minimum : Nat} {coordination : CoordinationTable S}
    {settings : Settings} (valid : settings.validate = .ok ()) (some : clauses ≠ [])
    (inside : minimum ≤ clauses.length) (covered : clauses.length ≤ coordination.largest) :
    ∃ search, ofClauses clauses excluded minimum coordination settings = .ok search ∧
      Standing (labeled optional prohibited) 0 search ∧ search.windowEnd = 0 ∧
      search.terms = (minimum, coordination) := by
  have nonzero : clauses.length ≠ 0 := fun none => some (List.eq_nil_of_length_eq_zero none)
  obtain ⟨positive, small⟩ := settings.tableSize_le valid
  let search : WindowedSearch S σ := ⟨settings.bucketTableSize.toNat - 1, .empty _,
    clauses.map (⟨·, false, true⟩) ++ excluded.map (⟨·, true, true⟩), minimum, coordination, 0, none⟩
  refine ⟨search, ?_, ⟨le_rfl, le_rfl, show (0 : DocId) ≤ noMoreDocs by decide, ?_, ?_, [], [], ?_, ?_⟩, rfl,
    rfl⟩
  · rw [ofClauses, valid]
    change (if clauses.length = 0 then _ else _) = _
    rw [if_neg nonzero, if_neg (by omega), if_neg (by omega)]
    rfl
  · change ((settings.bucketTableSize.toNat - 1 : Nat) : Int) + 1 ≤ noMoreDocs
    omega
  · refine List.rel_append ?_ ?_
    · rw [List.forall₂_map_left_iff, List.forall₂_map_right_iff]
      exact should.imp fun clause scorer denotes =>
        ⟨rfl, fun _ => denotes.waiting, fun more => by cases more⟩
    · rw [List.forall₂_map_left_iff, List.forall₂_map_right_iff]
      exact mustNot.imp fun clause scorer denotes =>
        ⟨rfl, fun _ => denotes.waiting, fun more => by cases more⟩
  · refine BucketTable.holds_nil (fun slot => ?_) rfl
    simp [search, BucketTable.empty, unpositioned]
  · refine ⟨fun report member => absurd member List.not_mem_nil, fun doc from_start before => ?_⟩
    exact absurd before (not_lt.mpr from_start)

theorem WindowedSearch.ofClauses_results (willing : Collector.Willing S κ) {clauses excluded : List σ}
    (should : AllDenote optional clauses) (mustNot : AllDenote prohibited excluded) {minimum : Nat}
    {coordination : CoordinationTable S} {settings : Settings} (valid : settings.validate = .ok ())
    (some : clauses ≠ []) (inside : minimum ≤ clauses.length)
    (covered : clauses.length ≤ coordination.largest) :
    ∃ search, ofClauses clauses excluded minimum coordination settings = .ok search ∧
      ∀ sink : κ, ∃ hits,
        Results (labeled optional prohibited) minimum coordination 0 noMoreDocs hits ∧
        (search.drain sink noMoreDocs).outcome = .ok false ∧
        (search.drain sink noMoreDocs).sink = Collector.deliver sink hits := by
  obtain ⟨search, made, standing, fresh, terms⟩ :=
    ofClauses_standing should mustNot valid some inside covered
  obtain ⟨rfl, rfl⟩ := Prod.mk.inj terms
  refine ⟨search, made, fun sink => drainWithin_results willing moveLimit search standing sink [] ?_⟩
  rw [fresh]
  decide

theorem BulkSearch.drainAll_inOrder (σ : Type) [Scorer S σ] {ρ : Type} [Scorer S ρ]
    (willing : Collector.Willing S κ) {scorer : ρ} {meaning : Meaning S} (denotes : Denotes scorer meaning)
    (sink : κ) :
    ∃ hits, Delivers meaning 0 noMoreDocs hits ∧
      ((inOrder scorer : BulkSearch S σ ρ).drainAll sink).outcome = .ok () ∧
      ((inOrder scorer : BulkSearch S σ ρ).drainAll sink).sink = Collector.deliver sink hits := by
  obtain ⟨hits, delivers, left, after, same, delivered, -⟩ :=
    InOrder.drain_yields willing denotes.waiting sink le_rfl (by decide) le_rfl
  refine ⟨hits, delivers, ?_, ?_⟩
  · rw [drainAll, drain, same]
    rfl
  · rw [drainAll, drain, same]
    exact delivered

namespace BooleanQuery

omit [Scorer S σ] in
theorem table_largest (query : BooleanQuery S σ) :
    query.table.largest = query.required.length + query.optional.length := by
  unfold table CoordinationTable.largest
  split
  all_goals simp [CoordinationTable.disabled, CoordinationTable.ofPolicy]

theorem buildSearch_eq (query : BooleanQuery S σ) (noneRequired : query.required = [])
    (some : query.optional ≠ []) (few : query.minimum ≤ 1) {search : WindowedSearch S σ}
    {scorer : BooleanScorer S σ} (built : query.build.outcome = .ok scorer)
    (made : WindowedSearch.ofClauses query.optional query.prohibited query.minimum query.table
      query.settings = .ok search) :
    (query.buildSearch true).outcome = .ok (.windowed search) ∧
      (query.buildSearch false).outcome = .ok (.inOrder scorer) := by
  have unfolded : ∀ anyOrder, query.buildSearch anyOrder =
      if query.isWindowed anyOrder then
        Logged.andThen (.report (.windowed query.optional.length query.prohibited.length)) fun _ =>
          Logged.andThen (.silent (WindowedSearch.ofClauses query.optional query.prohibited query.minimum
            query.table query.settings)) fun search => .silent (.ok (BulkSearch.windowed search))
      else Logged.andThen query.build fun scorer => .silent (.ok (BulkSearch.inOrder scorer)) :=
    fun _ => rfl
  have windowed : query.isWindowed true = true := by simp [isWindowed, noneRequired, some, few]
  have inOrder : ¬query.isWindowed false = true := Bool.false_ne_true
  constructor
  · rw [unfolded, if_pos windowed, made]
    rfl
  · rw [unfolded, if_neg inOrder, Logged.andThen, built]
    rfl

/-- Both searches for all hits of a query with optional and prohibited clauses find the same documents,
each once: the selected ones. Sorted by document the hits of the windowed search are those of the search
in document order, and where scores are exact each has the sum of its matching clauses times the factor
for their number. A windowed search also finds the right documents for every larger minimum. -/
theorem windowed_hits_are_hits_in_order (willing : Collector.Willing S κ) {query : BooleanQuery S σ}
    (should : AllDenote optional query.optional) (mustNot : AllDenote prohibited query.prohibited)
    (some : query.optional ≠ []) (valid : query.settings.validate = .ok ()) :
    (query.required = [] → query.minimum ≤ 1 →
      ∃ search scorer, (query.buildSearch true).outcome = .ok (.windowed search) ∧
        (query.buildSearch false).outcome = .ok (.inOrder scorer) ∧
        ∀ sink : κ, ∃ hits inOrder : List (Hit S),
          ((BulkSearch.windowed search : BulkSearch S σ (BooleanScorer S σ)).drainAll sink).outcome = .ok () ∧
          ((BulkSearch.windowed search : BulkSearch S σ (BooleanScorer S σ)).drainAll sink).sink =
            Collector.deliver sink hits ∧
          ((BulkSearch.inOrder scorer : BulkSearch S σ (BooleanScorer S σ)).drainAll sink).outcome = .ok () ∧
          ((BulkSearch.inOrder scorer : BulkSearch S σ (BooleanScorer S σ)).drainAll sink).sink =
            Collector.deliver sink inOrder ∧
          (inOrder.map (·.doc)).Pairwise (· < ·) ∧
          (∀ doc, doc ∈ inOrder.map (·.doc) ↔
            doc ∈ Meaning.selected [] optional prohibited query.minimum) ∧
          (HitList.mk hits.toArray true).byDoc.map (·.doc) = inOrder.map (·.doc) ∧
          (Score.IsExact S → (∀ clause ∈ optional, clause.Valued) →
            (HitList.mk hits.toArray true).byDoc = inOrder ∧
            ∀ hit ∈ inOrder, hit.score = Meaning.coordinatedSum optional query.table hit.doc)) ∧
    ∀ (minimum : Nat) (table : CoordinationTable S), minimum ≤ query.optional.length →
      query.optional.length ≤ table.largest →
      ∃ search, WindowedSearch.ofClauses query.optional query.prohibited minimum table query.settings =
          .ok search ∧
        ∀ sink : κ, ∃ hits : List (Hit S), (search.drain sink noMoreDocs).outcome = .ok false ∧
          (search.drain sink noMoreDocs).sink = Collector.deliver sink hits ∧
          (hits.map (·.doc)).Nodup ∧
          ∀ doc, doc ∈ hits.map (·.doc) ↔ IsReal doc ∧ (∀ clause ∈ prohibited, doc ∉ clause.docs) ∧
            max minimum 1 ≤ (Meaning.matching optional doc).length := by
  constructor
  · intro noneRequired few
    have must : AllDenote [] query.required := noneRequired ▸ .nil
    obtain ⟨scorer, built, denotes⟩ := build_denotes must should mustNot valid
    have positive : 0 < query.optional.length := List.length_pos_of_ne_nil some
    have covered : query.optional.length ≤ query.table.largest := by
      rw [table_largest]
      omega
    obtain ⟨search, made, drains⟩ := WindowedSearch.ofClauses_results willing should mustNot valid some
      (few.trans positive) covered
    obtain ⟨windowedBuilt, inOrderBuilt⟩ := query.buildSearch_eq noneRequired some few built made
    refine ⟨search, scorer, windowedBuilt, inOrderBuilt, fun sink => ?_⟩
    obtain ⟨hits, results, outcome, delivered⟩ := drains sink
    obtain ⟨inOrder, delivers, inOrderOutcome, inOrderDelivered⟩ :=
      BulkSearch.drainAll_inOrder σ willing denotes sink
    have docs := ofPlan_docs query must.length_eq should.length_eq mustNot.length_eq
    have visited : ∀ doc, doc ∈ inOrder.map (·.doc) ↔
        doc ∈ Meaning.selected [] optional prohibited query.minimum := by
      intro doc
      rw [delivers.mem_docs, ← docs, and_iff_left_iff_imp]
      exact fun member => (Meaning.real _ doc member)
    have sorted : (HitList.mk hits.toArray true).byDoc.Perm hits := HitList.byDoc_perm _
    have sortedDocs : (HitList.mk hits.toArray true).byDoc.map (·.doc) = inOrder.map (·.doc) := by
      refine eq_of_pairwise_lt (HitList.byDoc_pairwise results.distinct) delivers.inOrder fun doc => ?_
      rw [(sorted.map _).mem_iff, results.mem_selected, visited]
    refine ⟨hits, inOrder, ?_, delivered, inOrderOutcome, inOrderDelivered, delivers.inOrder, visited,
      sortedDocs, fun exact valued => ?_⟩
    · exact congrArg (Except.map fun _ => ()) outcome
    · have totals : Meaning.Totals (.ofPlan [] optional prohibited query.minimum query.table query.plan)
          optional query.table := by
        refine ofPlan_totals query must.length_eq should.length_eq valued fun other => ?_
        rcases other with someRequired | several
        · exact absurd noneRequired someRequired
        · omega
      have windowedScores : ∀ hit ∈ (HitList.mk hits.toArray true).byDoc,
          hit.score = Meaning.coordinatedSum optional query.table hit.doc := fun hit member =>
        results.score_eq valued (sorted.mem_iff.mp member)
      have inOrderScores : ∀ hit ∈ inOrder,
          hit.score = Meaning.coordinatedSum optional query.table hit.doc := by
        intro hit member
        have has := ((delivers.mem_docs hit.doc).mp (List.mem_map_of_mem member)).1
        exact (totals hit.doc has).1 hit.score (delivers.scored hit member)
      refine ⟨?_, inOrderScores⟩
      rw [hits_eq_map windowedScores, sortedDocs, ← hits_eq_map inOrderScores]
  · intro minimum table inside covered
    obtain ⟨search, made, drains⟩ :=
      WindowedSearch.ofClauses_results willing should mustNot valid some inside covered
    refine ⟨search, made, fun sink => ?_⟩
    obtain ⟨hits, results, outcome, delivered⟩ := drains sink
    refine ⟨hits, outcome, delivered, results.distinct, fun doc => ?_⟩
    rw [results.mem_docs, wanted_iff]
    refine and_congr_right fun _ => and_congr ?_ ?_
    · simp [Meaning.matching]
    · omega

/-- Two optional clauses and a prohibited one, searched with a table of two buckets. -/
theorem windowed_hits_of_two_clauses :
    ∃ search, (BooleanQuery.buildSearch ⟨[],
        [⟨.fresh [.ofDoc 1, .ofDoc 5], .constant (1 : ℚ) 1⟩,
          ⟨.fresh [.ofDoc 5, .ofDoc 2147483646], .constant 1 1⟩],
        [⟨.fresh [.ofDoc 1], .constant 1 1⟩], 1, CoordinationPolicy.share,
        { Settings.standard with bucketTableSize := 2 }⟩ true).outcome =
        .ok (BulkSearch.windowed search : BulkSearch ℚ (TermScorer PostingList ℚ) _) ∧
      ∃ hits : List (Hit ℚ),
        (BulkSearch.drainAll (BulkSearch.windowed search : BulkSearch ℚ (TermScorer PostingList ℚ)
          (BooleanScorer ℚ (TermScorer PostingList ℚ))) ({} : HitList ℚ)).sink = Collector.deliver {} hits ∧
        (HitList.mk hits.toArray true).byDoc = [⟨5, 2⟩, ⟨2147483646, 1 / 2⟩] := by
  have early : Posting.Accepted [.ofDoc 1, .ofDoc 5] := ⟨rfl, by decide⟩
  have late : Posting.Accepted [.ofDoc 5, .ofDoc 2147483646] := ⟨rfl, by decide⟩
  have one : Posting.Accepted [.ofDoc 1] := ⟨rfl, by decide⟩
  have denotesEarly := TermScorer.denotes_of_ofPostings (S := ℚ) rfl early (.constant 1 1)
  have denotesLate := TermScorer.denotes_of_ofPostings (S := ℚ) rfl late (.constant 1 1)
  have denotesOne := TermScorer.denotes_of_ofPostings (S := ℚ) rfl one (.constant 1 1)
  have memEarly : ∀ doc, doc ∈ (TermScorer.meaning early (.constant (1 : ℚ) 1)).docs ↔ doc = 1 ∨ doc = 5 :=
    fun doc => by simp [TermScorer.meaning, Meaning.leaf, Posting.docs, Posting.ofDoc]
  have memLate : ∀ doc, doc ∈ (TermScorer.meaning late (.constant (1 : ℚ) 1)).docs ↔
      doc = 5 ∨ doc = 2147483646 :=
    fun doc => by simp [TermScorer.meaning, Meaning.leaf, Posting.docs, Posting.ofDoc]
  have memOne : ∀ doc, doc ∈ (TermScorer.meaning one (.constant (1 : ℚ) 1)).docs ↔ doc = 1 :=
    fun doc => by simp [TermScorer.meaning, Meaning.leaf, Posting.docs, Posting.ofDoc]
  obtain ⟨search, scorer, built, -, drains⟩ := (@windowed_hits_are_hits_in_order ℚ _ (HitList ℚ) _ _ _ _ _
    (fun _ _ _ => rfl) ⟨[], _, _, 1, CoordinationPolicy.share,
      { Settings.standard with bucketTableSize := 2 }⟩
    (.cons denotesEarly (.cons denotesLate .nil)) (.cons denotesOne .nil) (by simp) rfl).1 rfl le_rfl
  obtain ⟨hits, inOrder, -, delivered, -, -, sorted, visited, docs, exact⟩ := drains {}
  have inOrderDocs : inOrder.map (·.doc) = [5, 2147483646] := by
    refine eq_of_pairwise_lt sorted (by simp) fun doc => ?_
    rw [visited, Meaning.selected, Finset.mem_filter, mem_allDocs, IsReal, noMoreDocs]
    simp only [memEarly, memLate, Meaning.matching, List.filter_cons, List.mem_cons]
    by_cases five : doc = 5
    · simp [five, memEarly, memLate, memOne]
    · by_cases last : doc = 2147483646
      · simp [last, memEarly, memLate, memOne]
      · by_cases first : doc = 1
        · simp [first, memEarly, memLate, memOne]
        · simp [five, last, first]
  obtain ⟨same, scores⟩ := exact inferInstance (by
    intro clause member
    simp only [List.mem_cons, List.not_mem_nil, or_false] at member
    rcases member with rfl | rfl
    all_goals exact Meaning.leaf_valued _ _ _)
  refine ⟨search, built, hits, delivered, ?_⟩
  rw [same, hits_eq_map scores, inOrderDocs, List.map_cons, List.map_singleton]
  have valueEarly : ∀ doc, (TermScorer.meaning early (.constant (1 : ℚ) 1)).value doc = 1 := fun doc => by
    rw [TermScorer.meaning, Meaning.value_leaf]
    exact one_mul 1
  have valueLate : ∀ doc, (TermScorer.meaning late (.constant (1 : ℚ) 1)).value doc = 1 := fun doc => by
    rw [TermScorer.meaning, Meaning.value_leaf]
    exact one_mul 1
  simp [Meaning.coordinatedSum, Meaning.values, Meaning.matching, memEarly, memLate, valueEarly, valueLate]
  change (1 + (1 + 0) : ℚ) * (((2 : Nat) : ℚ) / ((2 : Nat) : ℚ)) = 2 ∧
    (1 + 0 : ℚ) * (((1 : Nat) : ℚ) / ((2 : Nat) : ℚ)) = 2⁻¹
  norm_num

end BooleanQuery

end PostingQuery
