import SymbolicAutomata.Manager
import Std.Data.TreeMap
/-!
# Listing the nodes of a function

The nodes are numbered from 2 in the order in which a walk from the root leaves them, the low child
before the high one; 1 is constant one. Equal functions have equal listings in every manager. A root
that stands for no function has no nodes to list.
-/
namespace SymbolicAutomata

inductive Entry
  /-- The function with a number, or its complement. -/
  | numbered (number : Nat) (negated : Bool)
  /-- The child of a terminal, which is no function. -/
  | missing (negated : Bool)
  deriving DecidableEq, Repr

structure Listing where
  /-- The numbers given so far, by node index. -/
  numbers : Std.TreeMap Nat Nat
  /-- Variable, low and high child of each node, the last one first. -/
  lines : List (Nat × Entry × Entry)

namespace Listing

def start : Listing := ⟨∅, []⟩

def entry (l : Listing) (f : Ref) : Entry :=
  .numbered ((l.numbers[f.index]?).getD 1) f.negated

def visit (m : Manager) : Nat → Ref → Listing → Except Failure Listing
  | 0, _, _ => .error .cyclicNodes
  | fuel + 1, f, l => do
    if f.isTerminal || l.numbers.contains f.index then return l
    let n ← m.nodes.value f.index
    let l ← visit m fuel n.low l
    let l ← visit m fuel n.high l
    return ⟨l.numbers.insert f.index (l.numbers.size + 2),
      (n.var, l.entry n.low, l.entry n.high) :: l.lines⟩

end Listing

/-- The entry of a function and the lines of its nodes. -/
def Manager.listing (m : Manager) (f : Ref) :
    Except Failure (Entry × List (Nat × Entry × Entry)) := do
  if f.index = Ref.invalid.index then return (.missing f.negated, [])
  let l ← Listing.visit m m.depthBound f .start
  return (l.entry f, l.lines.reverse)

end SymbolicAutomata
