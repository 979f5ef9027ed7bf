import SymbolicAutomata.Cache
import SymbolicAutomata.DomainArithmetic
import SymbolicAutomata.Table
/-!
# The manager of decision diagrams

A manager is a store of shared nodes. A node decides one variable; a reference to it may be
complemented, and the high child of a stored node never is. Equal functions are then equal
references. The manager also remembers results of the recursive operations.
-/
namespace SymbolicAutomata

structure Node where
  var : Nat
  low : Ref
  high : Ref
  deriving DecidableEq, Repr

/-- The content of a blank cell, and of the terminal node: no variable and no children. -/
instance : Inhabited Node := ⟨⟨0, .invalid, .invalid⟩⟩

instance : Slotted Node := ⟨fun n => pair3 (UInt64.ofNat n.var) n.low.word n.high.word⟩

inductive Operation
  | ite (f g h : Ref)
  | exist (f : Ref) (d : Domain)
  deriving DecidableEq, Repr

namespace Operation

def slot : Operation → UInt64
  | ite f g h => pair3 f.word g.word h.word
  | exist f d =>
    pair2 (pair2 f.word (UInt64.ofNat d.base)) (pair2 (UInt64.ofNat d.len) 1)

end Operation

instance : Slotted Operation := ⟨Operation.slot⟩

structure Manager where
  /-- Tells the managers of one session apart. -/
  id : Nat
  nodes : Table Node
  results : Cache Operation Ref

namespace Manager

/-- A manager with a table of `2 ^ storageBits` cells and a cache of `2 ^ cacheBits` slots. -/
def new (id storageBits cacheBits : Nat) : Except Failure Manager := do
  let nodes ← Table.new storageBits
  return ⟨id, nodes.alloc, ← Cache.new cacheBits⟩

def defaultStorageBits : Nat := 20
def defaultCacheBits : Nat := 16

def nodeCount (m : Manager) : Nat := m.nodes.size

/-- No descent is longer. It passes each stored node at most once, and of the nodes made meanwhile
at most one for each index, which has 31 bits. -/
def depthBound (m : Manager) : Nat := Nat.pow 2 31 + m.nodeCount

def describe (m : Manager) : String :=
  "Bdd \x7b capacity: " ++ toString m.nodes.capacity ++ ", size: " ++ toString m.nodes.size ++
    " \x7d"

/-- The variable that the root of `f` decides; 0 for a terminal. -/
def var (m : Manager) (f : Ref) : Except Failure Nat := do return (← m.nodes.value f.index).var

def low (m : Manager) (f : Ref) : Except Failure Ref := do
  return (← m.nodes.value f.index).low.negIf f.negated

def high (m : Manager) (f : Ref) : Except Failure Ref := do
  return (← m.nodes.value f.index).high.negIf f.negated

def cofactors (m : Manager) (f : Ref) (v : Nat) : Except Failure (Ref × Ref) := do
  if v = 0 then throw .zeroVariable
  if f.isTerminal then return (f, f)
  let w ← m.var f
  if v < w then return (f, f)
  if v ≠ w then throw (.cofactorBelowRoot v w)
  return (← m.low f, ← m.high f)

end Manager

end SymbolicAutomata
