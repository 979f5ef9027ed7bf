import SymbolicAutomata.Conditional
/-!
# Quantification over a domain
-/
namespace SymbolicAutomata.Bdd

/-- Existential quantification by recursion on the root. Once the low side is constant one the high
side is not visited. -/
def existFrom (d : Domain) : Nat → Ref → BddM Ref
  | 0, _ => throw .cyclicNodes
  | fuel + 1, f => do
    if f.isTerminal || d.isEmpty then return f
    let v ← ask (·.var f)
    if (← d.stop) ≤ v then return f
    match ← remembered (.exist f d) with
    | some r => return r
    | none =>
      let low ← existFrom d fuel (← ask (·.low f))
      let r ←
        if ← d.contains v then
          if low = .one then pure .one
          else do disj low (← existFrom d fuel (← ask (·.high f)))
        else do node v low (← existFrom d fuel (← ask (·.high f)))
      remember (.exist f d) r
      return r

def exist (f : Ref) (d : Domain) : BddM Ref := do existFrom d (← depthBound) f

def univ (f : Ref) (d : Domain) : BddM Ref := do return -(← exist (-f) d)

def joinExist (f g : Ref) (d : Domain) : BddM Ref := do exist (← conj f g) d

end SymbolicAutomata.Bdd
