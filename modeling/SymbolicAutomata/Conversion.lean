import SymbolicAutomata.Automaton
/-!
# Changing the encoding

The states of the automaton must be `0, …, n - 1`.
-/
namespace SymbolicAutomata

def SymbolicNfa.ofAutomaton (a : Automaton) : BddM SymbolicNfa := do
  let n ← a.stateCount
  let b ← ofCount n
  if !(← (← a.states).same b.states) then
    let states ← a.states
    throw (.sparseStateSet (← Bdd.ask states.toList))
  let d ← b.stateDomain
  let starting ← (← a.starting).withDomain d
  let accepting ← (← a.accepting).withDomain d
  let edges ← (← a.edges).withDomains (← Layout.transitions b.width)
  return { b with starting := starting, accepting := accepting, edges := edges }

namespace MatrixNfa

/-- The given states without edges; they must be numbered in order. -/
def addStates (starting accepting : ValueSet) (a : MatrixNfa) (qs : List Nat) :
    BddM MatrixNfa :=
  qs.foldlM (fun a q => do
    if q ≠ a.stateCount then throw (.sparseStates q a.stateCount)
    let accepts ← Bdd.ask (accepting.contains q)
    let starts ← Bdd.ask (starting.contains q)
    return (a.addState accepts starts).2) a

def ofAutomaton (a : Automaton) : BddM MatrixNfa := do
  let starting ← a.starting
  let accepting ← a.accepting
  let states ← a.states
  let b ← addStates starting accepting (← empty) (← Bdd.ask states.toList)
  let qs := List.range b.stateCount
  qs.foldlM (fun b p => qs.foldlM (fun b q => do
    let on ← a.edge p q
    if on.isEmpty then return b
    b.addEdge p on q) b) b

end MatrixNfa

end SymbolicAutomata
