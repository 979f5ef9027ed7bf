import SymbolicAutomata.Substitution
import Std.Data.TreeSet
/-!
# Splitting a function at a level

The variables below a level decide which of finitely many functions remains. These remaining
functions can be listed, replaced, and traced back to the decisions that lead to them.
-/
namespace SymbolicAutomata

/-- The references a walk has entered, and those of them that it kept, last first. -/
structure Trail where
  visited : Std.TreeSet Ref
  kept : List Ref

namespace Manager

def decidedBelow (m : Manager) (level : Nat) (f : Ref) : Except Failure Bool :=
  if f.isTerminal then .ok true else do return level ≤ (← m.var f)

/-- Enter the references on the stack, each of them once. A reference with nothing left to decide
below `level` is kept, and the sides of any other are put on the stack, the low one on top. -/
def cofactorsFrom (m : Manager) (level : Nat) : Nat → List Ref → Trail → Except Failure Trail
  | _, [], trail => return trail
  | 0, _ :: _, _ => throw .cyclicNodes
  | fuel + 1, f :: stack, trail => do
    if trail.visited.contains f then
      m.cofactorsFrom level fuel stack trail
    else
      let visited := trail.visited.insert f
      if ← m.decidedBelow level f then
        m.cofactorsFrom level fuel stack ⟨visited, f :: trail.kept⟩
      else
        let high ← m.high f
        let low ← m.low f
        m.cofactorsFrom level fuel (low :: high :: stack) ⟨visited, trail.kept⟩

/-- The functions that remain of `f` once every variable below `level` is decided, each once, in
the order of their discovery. -/
def cofactorsBelow (m : Manager) (f : Ref) (level : Nat) : Except Failure (List Ref) := do
  return (← m.cofactorsFrom level (4 * m.depthBound) [f] ⟨∅, []⟩).kept.reverse

end Manager

namespace Bdd

variable {σ : Type}

def replaceFrom (level : Nat) (g : Ref → StateT σ BddM Ref) :
    Nat → Ref → Memo → StateT σ BddM (Ref × Memo)
  | 0, _, _ => throw .cyclicNodes
  | fuel + 1, f, memo => do
    if let some r := memo[f]? then return (r, memo)
    if ← ask (·.decidedBelow level f) then
      let r ← g f
      return (r, memo.insert f r)
    let v ← ask (·.var f)
    let (low, memo) ← replaceFrom level g fuel (← ask (·.low f)) memo
    let (high, memo) ← replaceFrom level g fuel (← ask (·.high f)) memo
    let r ← ite (← literal v) high low
    return (r, memo.insert f r)

/-- The function `f` with each function that remains below `level` replaced by what `g` makes of
it. The replacement may depend on any variable, and may keep a state of its own. -/
def replaceBelow (f : Ref) (level : Nat) (g : Ref → StateT σ BddM Ref) : StateT σ BddM Ref := do
  return (← replaceFrom level g (← depthBound) f ∅).1

def selectBelow (f : Ref) (level : Nat) (s : Ref) : BddM Ref :=
  (replaceBelow f level fun g => pure (if g = s then .one else .zero)).run' ()

end Bdd

end SymbolicAutomata
