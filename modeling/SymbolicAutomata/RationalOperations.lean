import SymbolicAutomata.SubAutomaton
/-!
# Star, concatenation and reversal
-/
namespace SymbolicAutomata.SymbolicNfa

/-- Any number of words of the language. A fresh state starts and accepts; accepting states get the
moves out of the old starting states. -/
def star (a : SymbolicNfa) : BddM SymbolicNfa := do
  let (q, b) ← a.addState true true
  let fresh ← ValueSet.singleton (← b.stateDomain) q
  let first ← (← b.edges.restrict 0 b.starting).project 0
  let edges ← b.edges.union (← first.restrict 0 b.accepting)
  ({ b with edges := edges, starting := fresh, determinism := .unknown } : SymbolicNfa).filterLive

def colored (a : SymbolicNfa) (k : Nat) (color : Bool) :
    BddM (ValueSet × ValueSet × Relation) := do
  let narrow ← Layout.states (k - 1)
  let d ← Layout.states k
  let edges ← a.edges.withDomains (← Layout.transitions (k - 1))
  let edges ← edges.extend 0 d color
  let edges ← edges.extend 2 (← Layout.dests k) color
  let starting ← (← a.starting.withDomain narrow).extend d color
  let accepting ← (← a.accepting.withDomain narrow).extend d color
  return (starting, accepting, edges)

/-- A word of `a` followed by one of `b`. The highest bit of a state tells which automaton it comes
from; accepting states of `a` get the moves out of the starting states of `b`. -/
def concat (a b : SymbolicNfa) : BddM SymbolicNfa := do
  if a.stateCount = 0 ∨ b.stateCount = 0 then return ← empty
  let k := max a.width b.width + 1
  if Layout.maxStateBits < k then throw (.concatenationBits k)
  let (starting1, accepting1, edges1) ← a.colored k false
  let (starting2, accepting2, edges2) ← Bdd.within b.manager (b.colored k true)
  let n := Nat.pow 2 (k - 1) + b.stateCount
  if Nat.pow 2 32 ≤ n then throw (.concatenationStates n)
  let c ← ofCount n
  let acceptsEmpty ← Bdd.within b.manager (b.starting.intersects b.accepting)
  let accepting ← if acceptsEmpty then accepting1.union accepting2 else pure accepting2
  let bridge ← Bdd.within b.manager do
    (← (← edges2.restrict 0 starting2).project 0).restrict 0 accepting1
  let edges ← (← edges1.union edges2).union bridge
  ({ c with starting := starting1, accepting := accepting, edges := edges } :
    SymbolicNfa).filterLive

def reverse (a : SymbolicNfa) : BddM SymbolicNfa := do
  let edges ← a.edges.transpose 0 2
  return { a with
    starting := a.accepting, accepting := a.starting, edges := edges, determinism := .unknown }

end SymbolicAutomata.SymbolicNfa
