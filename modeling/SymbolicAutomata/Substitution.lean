import SymbolicAutomata.Conditional
import SymbolicAutomata.Renaming
/-!
# Fixing and renaming variables

Both walk the shared nodes of one function and visit each reference once.
-/
namespace SymbolicAutomata

/-- What a walk has made of the references it has left. -/
abbrev Memo := Std.TreeMap Ref Ref

/-- Values of some variables; of two entries for a variable the first counts. -/
abbrev Fixing := List (Nat × Bool)

namespace Bdd

def restrictFrom (fixed : Fixing) : Nat → Ref → Memo → BddM (Ref × Memo)
  | 0, _, _ => throw .cyclicNodes
  | fuel + 1, f, memo => do
    if f.isTerminal then return (f, memo)
    if let some r := memo[f]? then return (r, memo)
    let v ← ask (·.var f)
    let (r, memo) ← match fixed.lookup v with
      | some true => do restrictFrom fixed fuel (← ask (·.high f)) memo
      | some false => do restrictFrom fixed fuel (← ask (·.low f)) memo
      | none => do
        let (low, memo) ← restrictFrom fixed fuel (← ask (·.low f)) memo
        let (high, memo) ← restrictFrom fixed fuel (← ask (·.high f)) memo
        pure (← node v low high, memo)
    return (r, memo.insert f r)

def restrict (f : Ref) (fixed : Fixing) : BddM Ref :=
  if fixed.isEmpty then pure f
  else do return (← restrictFrom fixed (← depthBound) f ∅).1

/-- Complements are taken off before a reference is looked up, and put back on the result. -/
def renameFrom (names : Renaming) : Nat → Ref → Memo → BddM (Ref × Memo)
  | 0, _, _ => throw .cyclicNodes
  | fuel + 1, f, memo => do
    if f.isTerminal then return (f, memo)
    let g := f.regular
    if let some r := memo[g]? then return (r.negIf f.negated, memo)
    let v ← ask (·.var g)
    let (low, memo) ← renameFrom names fuel (← ask (·.low g)) memo
    let (high, memo) ← renameFrom names fuel (← ask (·.high g)) memo
    let r ← ite (← literal (names.apply v)) high low
    return (r.negIf f.negated, memo.insert g r)

/-- The function `f` with all variables renamed at once; the names need not keep their order. -/
def rename (f : Ref) (names : Renaming) : BddM Ref :=
  if names.isIdentity then pure f
  else do return (← renameFrom names (← depthBound) f ∅).1

end Bdd

end SymbolicAutomata
