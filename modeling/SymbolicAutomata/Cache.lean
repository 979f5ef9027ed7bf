import SymbolicAutomata.Failure
import SymbolicAutomata.Pairing
/-!
# Direct-mapped caches

A key has one slot. An insertion evicts what the slot held before, and a search compares the whole
key, so a cache only ever forgets.
-/
namespace SymbolicAutomata

structure Cache (κ ν : Type) where
  slots : Array (Option (κ × ν))
  hits : Nat
  misses : Nat

namespace Cache

variable {κ ν : Type}

def new (bits : Nat) : Except Failure (Cache κ ν) :=
  if bits ≤ 31 then .ok ⟨Array.replicate (Nat.pow 2 bits) none, 0, 0⟩ else .error .cacheBits

/-- Forget all entries; the counters go on. -/
def clear (c : Cache κ ν) : Cache κ ν :=
  { c with slots := Array.replicate c.slots.size none }

variable [Slotted κ] [DecidableEq κ]

def slotOf (slots : Nat) (k : κ) : Nat := (slot k % UInt64.ofNat slots).toNat

def find? (c : Cache κ ν) (k : κ) : Option ν :=
  match c.slots[slotOf c.slots.size k]? with
  | some (some (k', v)) => if k' = k then some v else none
  | _ => none

def get (c : Cache κ ν) (k : κ) : Option ν × Cache κ ν :=
  match c.find? k with
  | some v => (some v, { c with hits := c.hits + 1 })
  | none => (none, { c with misses := c.misses + 1 })

def insert : Cache κ ν → κ → ν → Cache κ ν
  | ⟨slots, hits, misses⟩, k, v =>
    ⟨slots.setIfInBounds (slotOf slots.size k) (some (k, v)), hits, misses⟩

theorem find?_insert {c : Cache κ ν} {k l : κ} {v w : ν} (h : (c.insert k v).find? l = some w) :
    l = k ∧ w = v ∨ c.find? l = some w := by
  unfold find? insert at h
  simp only [Array.size_setIfInBounds, Array.getElem?_setIfInBounds] at h
  unfold find?
  split at h
  · rename_i k' v' heq
    split at heq
    · split at heq
      · simp at heq
        obtain ⟨rfl, rfl⟩ := heq
        split at h <;> simp_all
      · simp at heq
    · rw [heq]
      exact .inr h
  · simp at h

/-- Searching does not change what later searches find. -/
theorem find?_get (c : Cache κ ν) (k l : κ) : (c.get k).2.find? l = c.find? l := by
  unfold get
  split <;> rfl

end Cache

end SymbolicAutomata
