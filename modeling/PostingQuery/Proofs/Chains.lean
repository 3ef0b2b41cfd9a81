import Mathlib
import PostingQuery.Phrase.Chains

/-!
What chains tell. The stamps are behind the definition of `length?`: whatever was written to the slots for earlier
chunks, and however often the stamps have started over, the chains of a chunk are those that its terms have made.
-/

namespace PostingQuery

namespace Chains

variable {size : Nat} {chains : Chains size} {length : Nat}

@[simp]
theorem length?_renew (chains : Chains size) (slot : Fin size) : chains.renew.length? slot = none := by
  unfold renew length?
  split
  next wrapped => simp [Vector.get_eq_getElem]
  next unwrapped =>
    have older := UInt32.lt_of_le_of_lt (chains.current slot) (lt_add_one_of_ne_zero unwrapped)
    exact if_neg (UInt32.ne_of_lt older)

theorem length?_start (chains : Chains size) (slot other : Fin size) :
    (chains.start slot).length? other = if other = slot then some 1 else chains.length? other := by
  by_cases same : other = slot
  · subst same
    simp [length?, start, Vector.get_eq_getElem]
  · have apart : slot.val ≠ other.val := fun equal => same (Fin.ext equal).symm
    simp [length?, start, Vector.get_eq_getElem, same, apart]

theorem length?_lengthen (chains : Chains size) (slot other : Fin size) :
    (chains.lengthen slot).length? other =
      if other = slot then (chains.length? slot).map (· + 1) else chains.length? other := by
  by_cases same : other = slot
  · subst same
    simp [length?, lengthen, Vector.get_eq_getElem]
  · have apart : slot.val ≠ other.val := fun equal => same (Fin.ext equal).symm
    simp [length?, lengthen, Vector.get_eq_getElem, same, apart]

theorem length?_foldr_start (slots : List (Fin size)) (chains : Chains size) (slot : Fin size) :
    (slots.foldr start chains).length? slot = if slot ∈ slots then some 1 else chains.length? slot := by
  induction slots with
  | nil => rfl
  | cons other slots ih =>
    rw [List.foldr_cons, length?_start, ih]
    by_cases same : slot = other
    · simp [same]
    · simp [same]

theorem length?_foldr_lengthen {slots : List (Fin size)} (nodup : slots.Nodup) (chains : Chains size)
    (slot : Fin size) : (slots.foldr lengthen chains).length? slot =
      if slot ∈ slots then (chains.length? slot).map (· + 1) else chains.length? slot := by
  induction slots with
  | nil => rfl
  | cons other slots ih =>
    obtain ⟨apart, rest⟩ := List.nodup_cons.mp nodup
    rw [List.foldr_cons, length?_lengthen]
    by_cases same : slot = other
    · subst same
      rw [if_pos rfl, if_pos List.mem_cons_self, ih rest, if_neg apart]
    · rw [if_neg same, ih rest]
      simp [same]

def atLength (chains : Chains size) (length : Nat) (slots : List (Fin size)) : List (Fin size) :=
  slots.filter fun slot => chains.length? slot = some length

theorem mem_atLength {slots : List (Fin size)} {slot : Fin size} :
    slot ∈ chains.atLength length slots ↔ slot ∈ slots ∧ chains.length? slot = some length := by
  rw [atLength, List.mem_filter, decide_eq_true_iff]

theorem atLength_nodup {slots : List (Fin size)} (nodup : slots.Nodup) : (chains.atLength length slots).Nodup :=
  nodup.filter _

theorem foldr_extend {slots : List (Fin size)} (nodup : slots.Nodup) (chains : Chains size) :
    slots.foldr (extend length) (chains, false) =
      ((chains.atLength length slots).foldr lengthen chains, !(chains.atLength length slots).isEmpty) := by
  induction slots with
  | nil => rfl
  | cons slot slots ih =>
    obtain ⟨apart, rest⟩ := List.nodup_cons.mp nodup
    -- The slots that are taken up before are others, so the chain at this one is still as it was.
    have unmoved : ((chains.atLength length slots).foldr lengthen chains).length? slot = chains.length? slot := by
      rw [length?_foldr_lengthen (atLength_nodup rest), if_neg]
      exact fun again => apart (mem_atLength.mp again).1
    rw [List.foldr_cons, ih rest, extend, unmoved]
    by_cases found : chains.length? slot = some length
    · simp [atLength, found]
    · simp [atLength, found]

theorem foldr_complete (slots : List (Fin size)) (chains : Chains size) :
    slots.foldr (fun slot count => if chains.length? slot = some length then count + 1 else count) 0 =
      (chains.atLength length slots).length := by
  induction slots with
  | nil => rfl
  | cons slot slots ih =>
    rw [List.foldr_cons, ih]
    by_cases found : chains.length? slot = some length
    · simp [atLength, found]
    · simp [atLength, found]

/-- Once some terms have been through a chunk, no chain is longer than they are many. -/
def Within (chains : Chains size) (length : Nat) : Prop :=
  ∀ slot longer, chains.length? slot = some longer → longer ≤ length

theorem within_started (slots : List (Fin size)) (chains : Chains size) :
    (slots.foldr start chains.renew).Within 1 := by
  intro slot longer
  rw [length?_foldr_start, length?_renew]
  split
  next => exact fun found => (Option.some.inj found).ge
  next => exact fun found => nomatch found

theorem length?_started (slots : List (Fin size)) (chains : Chains size) (slot : Fin size) :
    (slots.foldr start chains.renew).length? slot = some 1 ↔ slot ∈ slots := by
  rw [length?_foldr_start, length?_renew]
  simp

theorem Within.extended {slots : List (Fin size)} (within : chains.Within length) (nodup : slots.Nodup) :
    ((chains.atLength length slots).foldr lengthen chains).Within (length + 1) := by
  intro slot longer
  rw [length?_foldr_lengthen (atLength_nodup nodup)]
  split
  next member =>
    rw [(mem_atLength.mp member).2]
    exact fun found => (Option.some.inj found).ge
  next => exact fun found => (within slot longer found).trans (Nat.le_succ length)

theorem Within.length?_extended {slots : List (Fin size)} (within : chains.Within length) (nodup : slots.Nodup)
    (slot : Fin size) : ((chains.atLength length slots).foldr lengthen chains).length? slot = some (length + 1) ↔
      slot ∈ chains.atLength length slots := by
  rw [length?_foldr_lengthen (atLength_nodup nodup)]
  split
  next member =>
    rw [(mem_atLength.mp member).2]
    exact iff_of_true rfl member
  next absent =>
    refine iff_of_false (fun found => ?_) absent
    have longest := within slot _ found
    omega

end Chains

end PostingQuery
