import SymbolicAutomata.Failure
import SymbolicAutomata.Pairing
/-!
# Hash-consing tables

`put` gives equal values the same index. Cells are numbered from 1 in the order of their creation
and are never freed; the table doubles when it is full. Each bucket heads a chain of cells that
runs from the newest cell to the oldest. Cells made by `add` join a chain only when the chains are
rebuilt.
-/
namespace SymbolicAutomata

structure Table (α : Type) where
  /-- The values of all cells, occupied or blank; cell 0 stays blank. -/
  values : Array α
  /-- For each cell the next one of its chain; 0 ends a chain. -/
  links : Array Nat
  buckets : Array Nat
  last : Nat

namespace Table

variable {α : Type}

def capacity (t : Table α) : Nat := t.values.size

def size (t : Table α) : Nat := t.last

@[inline] def read {β : Type} (xs : Array β) (i : Nat) : Except Failure β :=
  if i = 0 then .error .cellZero
  else match xs[i]? with
    | some x => .ok x
    | none => .error .outOfBounds

@[inline] def value (t : Table α) (i : Nat) : Except Failure α := read t.values i

@[inline] def next (t : Table α) (i : Nat) : Except Failure Nat := read t.links i

def setNext (t : Table α) (i j : Nat) : Except Failure (Table α) := do
  let _ ← t.next i
  return { t with links := t.links.setIfInBounds i j }

section Growth

variable [Inhabited α]

def new (bits : Nat) : Except Failure (Table α) :=
  if bits ≤ 31 then
    .ok ⟨Array.replicate (Nat.pow 2 bits) default, Array.replicate (Nat.pow 2 bits) 0,
      Array.replicate (Nat.pow 2 (min bits 16)) 0, 0⟩
  else .error .storageBits

/-- Occupy one more cell, doubling the table when none is left. -/
def alloc : Table α → Table α
  | ⟨values, links, buckets, last⟩ =>
    if last + 1 < values.size then ⟨values, links, buckets, last + 1⟩
    else
      let missing := max (2 * values.size) 2 - values.size
      ⟨values ++ Array.replicate missing default, links ++ Array.replicate missing 0, buckets,
        last + 1⟩

/-- Store a value in a fresh cell that belongs to no chain. -/
def add (t : Table α) (v : α) : Nat × Table α :=
  match t.alloc with
  | ⟨values, links, buckets, last⟩ =>
    (last, ⟨values.setIfInBounds last v, links.setIfInBounds last 0, buckets, last⟩)

theorem size_alloc (t : Table α) : t.alloc.size = t.size + 1 := by
  unfold alloc size
  dsimp only
  split <;> rfl

/-- Indices are given in ascending order without gaps. -/
theorem index_add (t : Table α) (v : α) : (t.add v).1 = t.size + 1 := size_alloc t

end Growth

section Chains

variable [Slotted α]

def bucketOf (buckets : Nat) (v : α) : Nat := (slot v % UInt64.ofNat buckets).toNat

def link : Table α → Nat → Nat → Table α
  | ⟨values, links, buckets, last⟩, b, i =>
    let head := buckets[b]?.getD 0
    ⟨values, links.setIfInBounds i head, buckets.setIfInBounds b i, last⟩

/-- Rebuild all chains over another number of buckets, oldest cell first. -/
def rehash : Table α → Nat → Table α
  | ⟨values, links, _, last⟩, buckets =>
    (List.range' 1 last).foldl
      (fun t i =>
        match t.values[i]? with
        | some v => t.link (bucketOf buckets v) i
        | none => t)
      ⟨values, links, Array.replicate buckets 0, last⟩

/-- Chains are rebuilt over twice the buckets once they hold four cells on average. -/
def balance (t : Table α) : Table α :=
  if 4 * t.buckets.size < t.last ∧ t.buckets.size < Nat.pow 2 24 then t.rehash (2 * t.buckets.size)
  else t

variable [DecidableEq α]

def findFrom (t : Table α) (v : α) : Nat → Nat → Except Failure (Option Nat)
  | 0, _ => .error .cyclicNodes
  | fuel + 1, i =>
    if i = 0 then .ok none
    else do
      if (← t.value i) = v then return some i else t.findFrom v fuel (← t.next i)

/-- The cell of an equal value stored before. A chain is no longer than the table. -/
def find? (t : Table α) (v : α) : Except Failure (Option Nat) :=
  t.findFrom v (t.capacity + 1) (t.buckets[bucketOf t.buckets.size v]?.getD 0)

variable [Inhabited α]

def insertNew (t : Table α) (v : α) : Nat × Table α :=
  let b := bucketOf t.buckets.size v
  match t.add v with
  | (i, t) => (i, (t.link b i).balance)

/-- The index of a value, stored now if it was not stored before. -/
def put (t : Table α) (v : α) : Except Failure (Nat × Table α) := do
  match ← t.find? v with
  | some i => return (i, t)
  | none => return t.insertNew v

end Chains

end Table

end SymbolicAutomata
