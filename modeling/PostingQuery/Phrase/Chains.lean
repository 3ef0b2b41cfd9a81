/-!
Chains over the slots of a chunk. Slots are never cleared between chunks: a chain counts only if it bears the
stamp of the chunk that is counted, and each chunk has a new stamp.
-/

namespace PostingQuery

/-- The lengths of the chains, each with the stamp it was written under. No stamp is ahead of its time. -/
structure Chains (size : Nat) where
  lengths : Vector Nat size
  stamps : Vector UInt32 size
  stamp : UInt32
  current : ∀ slot : Fin size, stamps.get slot ≤ stamp

namespace Chains

variable {size : Nat}

theorem get_replicate (stamp : UInt32) (slot : Fin size) : (Vector.replicate size stamp).get slot = stamp := by
  change getElem (Vector.replicate size stamp) slot.val slot.isLt = stamp
  simp

def empty : Chains size where
  lengths := Vector.replicate size 0
  stamps := Vector.replicate size 0
  stamp := 0
  current slot := by simp [get_replicate]

theorem lt_add_one_of_ne_zero {stamp : UInt32} (unwrapped : stamp + 1 ≠ 0) : stamp < stamp + 1 := by
  rw [UInt32.lt_iff_toNat_lt, UInt32.toNat_add]
  have wraps : (stamp + 1).toNat ≠ 0 := fun zero => unwrapped (UInt32.toNat_inj.mp zero)
  rw [UInt32.toNat_add] at wraps
  have bound := stamp.toNat_lt
  simp only [UInt32.toNat_ofNat] at wraps ⊢
  omega

/-- Drops all chains. Slots are written only when the stamps start over, for an old stamp would count again. -/
def renew (chains : Chains size) : Chains size :=
  if wrapped : chains.stamp + 1 = 0 then
    { chains with
      stamps := Vector.replicate size 0
      stamp := 1
      current := fun slot => by simp [get_replicate] }
  else
    { chains with
      stamp := chains.stamp + 1
      current := fun slot => UInt32.le_trans (chains.current slot)
        (UInt32.le_of_lt (lt_add_one_of_ne_zero wrapped)) }

def length? (chains : Chains size) (slot : Fin size) : Option Nat :=
  if chains.stamps.get slot = chains.stamp then some (chains.lengths.get slot) else none

def start (slot : Fin size) (chains : Chains size) : Chains size where
  lengths := chains.lengths.set slot 1 slot.isLt
  stamps := chains.stamps.set slot chains.stamp slot.isLt
  stamp := chains.stamp
  current other := by
    change getElem (chains.stamps.set slot chains.stamp slot.isLt) other.val other.isLt ≤ chains.stamp
    by_cases same : slot = other
    · subst same
      simp
    · have apart : slot.val ≠ other.val := fun equal => same (Fin.ext equal)
      have before : getElem chains.stamps other.val other.isLt ≤ chains.stamp := chains.current other
      simpa [apart] using before

def lengthen (slot : Fin size) (chains : Chains size) : Chains size :=
  { chains with lengths := chains.lengths.set slot (chains.lengths.get slot + 1) slot.isLt }

def extend (length : Nat) (slot : Fin size) : Chains size × Bool → Chains size × Bool
  | (chains, any) => if chains.length? slot = some length then (chains.lengthen slot, true) else (chains, any)

end Chains

end PostingQuery
