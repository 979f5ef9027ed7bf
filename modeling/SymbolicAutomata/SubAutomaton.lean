import SymbolicAutomata.SymbolicNfa
/-!
# Induced sub-automata

The kept states are numbered densely in the order of their old numbers.
-/
namespace SymbolicAutomata.SymbolicNfa

/-- States, flags and edges carried along a map of state numbers onto `0, …, n - 1`. -/
def mapStates (a : SymbolicNfa) (map : Relation) (n : Nat) : BddM SymbolicNfa := do
  let b ← ofCount n
  let starting ← a.starting.image map
  let accepting ← a.accepting.image map
  let edges ← (← a.edges.compose 0 map).compose 2 map
  return { b with starting := starting, accepting := accepting, edges := edges }

def filter (a : SymbolicNfa) (keep : ValueSet) : BddM SymbolicNfa := do
  let keep ← (← a.states.inter keep).withDomain (← a.stateDomain)
  if keep.isEmpty then return ← empty
  let n ← Bdd.ask keep.size
  a.mapStates (← keep.compress) n

def filterReachable (a : SymbolicNfa) : BddM SymbolicNfa := do a.filter (← a.reachable)

def filterProductive (a : SymbolicNfa) : BddM SymbolicNfa := do a.filter (← a.productive)

def filterLive (a : SymbolicNfa) : BddM SymbolicNfa := do a.filter (← a.live)

end SymbolicAutomata.SymbolicNfa
