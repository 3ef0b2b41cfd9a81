import Mathlib
import PostingQuery.Proofs.StableSort

/-!
Answers gathered in some order. Combinators ask their parts in an order of their own, by cost or by
place in a heap, so what they gather is known up to that order.
-/

namespace PostingQuery

variable {α β γ : Type}

/-- Every label is answered exactly once, in some order. -/
def Gathers (post : γ → α → Prop) (labels : List γ) (answers : List α) : Prop :=
  ∃ order : List γ, order.Perm labels ∧ List.Forall₂ post order answers

namespace Gathers

variable {post : γ → α → Prop} {labels : List γ} {answers : List α}

theorem of_forall₂ (each : List.Forall₂ post labels answers) : Gathers post labels answers :=
  ⟨labels, .refl _, each⟩

theorem perm {others : List γ} (gathers : Gathers post labels answers) (same : labels.Perm others) :
    Gathers post others answers := by
  obtain ⟨order, perm, each⟩ := gathers
  exact ⟨order, perm.trans same, each⟩

theorem length_eq (gathers : Gathers post labels answers) : answers.length = labels.length := by
  obtain ⟨order, perm, each⟩ := gathers
  rw [← each.length_eq, perm.length_eq]

theorem mono {weaker : γ → α → Prop} (gathers : Gathers post labels answers)
    (implied : ∀ label ∈ labels, ∀ answer, post label answer → weaker label answer) :
    Gathers weaker labels answers := by
  obtain ⟨order, perm, each⟩ := gathers
  refine ⟨order, perm, ?_⟩
  have inside : ∀ label ∈ order, label ∈ labels := fun label member => perm.mem_iff.mp member
  clear perm
  induction each with
  | nil => exact .nil
  | @cons label answer order answers holds _ ih =>
    exact .cons (implied label (inside label List.mem_cons_self) answer holds)
      (ih fun other member => inside other (List.mem_cons_of_mem label member))

theorem map {δ : Type} {name : δ → γ} {sources : List δ}
    (gathers : Gathers (fun source => post (name source)) sources answers) :
    Gathers post (sources.map name) answers := by
  obtain ⟨order, perm, each⟩ := gathers
  exact ⟨order.map name, perm.map name, List.forall₂_map_left_iff.mpr each⟩

theorem map_answers {image : α → β} {read : γ → β → Prop}
    (gathers : Gathers (fun label answer => read label (image answer)) labels answers) :
    Gathers read labels (answers.map image) := by
  obtain ⟨order, perm, each⟩ := gathers
  exact ⟨order, perm, List.forall₂_map_right_iff.mpr each⟩

theorem append {others : List γ} {more : List α} (gathers : Gathers post labels answers)
    (rest : Gathers post others more) : Gathers post (labels ++ others) (answers ++ more) := by
  obtain ⟨order, perm, each⟩ := gathers
  obtain ⟨otherOrder, otherPerm, otherEach⟩ := rest
  exact ⟨order ++ otherOrder, perm.append otherPerm, List.rel_append each otherEach⟩

theorem exists_forall₂ (gathers : Gathers post labels answers) :
    ∃ ordered : List α, ordered.Perm answers ∧ List.Forall₂ post labels ordered := by
  obtain ⟨order, perm, each⟩ := gathers
  obtain ⟨ordered, same, back⟩ := List.perm_comp_forall₂ perm.symm each
  exact ⟨ordered, back, same⟩

theorem perm_map {value : γ → α} (gathers : Gathers post labels answers)
    (only : ∀ label ∈ labels, ∀ answer, post label answer → answer = value label) :
    answers.Perm (labels.map value) := by
  obtain ⟨order, perm, each⟩ := gathers
  have same : answers = order.map value := by
    have inside : ∀ label ∈ order, label ∈ labels := fun label member => perm.mem_iff.mp member
    clear perm
    induction each with
    | nil => rfl
    | @cons label answer order answers holds _ ih =>
      have head := only label (inside label List.mem_cons_self) answer holds
      have tail := ih fun other member => inside other (List.mem_cons_of_mem label member)
      rw [List.map_cons, head, tail]
  rw [same]
  exact perm.map value

end Gathers

theorem map_get_perm_filter {elements : List α} {test : α → Bool}
    {places : List (Fin elements.length)} (distinct : places.Nodup)
    (found : ∀ i, i ∈ places ↔ test (elements.get i)) :
    (places.map elements.get).Perm (elements.filter test) := by
  have listing : (List.finRange elements.length).map elements.get = elements := by
    rw [← List.ofFn_eq_map, List.ofFn_get]
  have perm : places.Perm ((List.finRange elements.length).filter (test ∘ elements.get)) := by
    refine (List.perm_ext_iff_of_nodup distinct ((List.nodup_finRange _).filter _)).mpr fun i => ?_
    simp [found]
  conv_rhs => rw [← listing, List.filter_map]
  exact perm.map elements.get

theorem exists_fin_places {places : List Nat} {count : Nat} (inside : ∀ i ∈ places, i < count) :
    ∃ indices : List (Fin count), indices.map Fin.val = places :=
  ⟨places.pmap Fin.mk inside, by simp [List.map_pmap]⟩

theorem forall₂_of_perm {post : γ → α → Prop} {labels : List γ} {states reordered : List α}
    (each : List.Forall₂ post labels states) (perm : reordered.Perm states) :
    ∃ order : List γ, order.Perm labels ∧ List.Forall₂ post order reordered := by
  obtain ⟨order, flipped, back⟩ := List.perm_comp_forall₂ perm each.flip
  exact ⟨order, back, flipped.flip⟩

theorem exists_partner {post : γ → α → Prop} {labels : List γ} {states : List α}
    (each : List.Forall₂ post labels states) {label : γ} (member : label ∈ labels) :
    ∃ state ∈ states, post label state := by
  induction each with
  | nil => cases member
  | @cons first state labels states holds _ ih =>
    rcases List.mem_cons.mp member with same | later
    · exact ⟨state, List.mem_cons_self, same ▸ holds⟩
    · obtain ⟨partner, inside, partnerHolds⟩ := ih later
      exact ⟨partner, List.mem_cons_of_mem state inside, partnerHolds⟩

theorem exists_labels {post : γ → α → Prop} {states : List α} (each : ∀ state ∈ states, ∃ label, post label state) :
    ∃ labels, List.Forall₂ post labels states := by
  induction states with
  | nil => exact ⟨[], .nil⟩
  | cons state states ih =>
    obtain ⟨first, rest⟩ := List.forall_mem_cons.mp each
    obtain ⟨label, holds⟩ := first
    obtain ⟨labels, paired⟩ := ih rest
    exact ⟨label :: labels, .cons holds paired⟩

theorem forall₂_sort {post : γ → α → Prop} {labels : List γ} {states : List α}
    (ordered : α → α → Bool) (each : List.Forall₂ post labels states) :
    ∃ order : List γ, order.Perm labels ∧ List.Forall₂ post order (StableSort.sort ordered states) :=
  forall₂_of_perm each (StableSort.sort_perm ordered states)

theorem isGreatest_foldl_max [LinearOrder α] (first : α) (rest : List α) :
    IsGreatest {element | element ∈ first :: rest} (rest.foldl max first) := by
  induction rest generalizing first with
  | nil => exact ⟨List.mem_cons_self, fun element member => (List.mem_singleton.mp member).le⟩
  | cons second rest ih =>
    obtain ⟨listed, upper⟩ := ih (max first second)
    rw [List.foldl_cons]
    refine ⟨?_, fun element member => ?_⟩
    · rcases List.mem_cons.mp listed with top | later
      · change _ ∈ first :: second :: rest
        rw [top]
        rcases max_choice first second with same | same
        · rw [same]
          exact List.mem_cons_self
        · rw [same]
          exact List.mem_cons_of_mem first List.mem_cons_self
      · exact List.mem_cons_of_mem first (List.mem_cons_of_mem second later)
    · have top := upper (a := max first second) List.mem_cons_self
      rcases List.mem_cons.mp member with rfl | member
      · exact (le_max_left _ _).trans top
      · rcases List.mem_cons.mp member with rfl | member
        · exact (le_max_right _ _).trans top
        · exact upper (List.mem_cons_of_mem _ member)

end PostingQuery
