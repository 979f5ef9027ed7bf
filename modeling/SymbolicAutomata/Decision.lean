import SymbolicAutomata.Product
/-!
# Deciding questions about languages
-/
namespace SymbolicAutomata.SymbolicNfa

def isTotal (a : SymbolicNfa) : BddM Bool := do
  let dests ← a.destDomain
  let symbols ← a.edges.domain 1
  let total ← Bdd.univ (← Bdd.exist a.edges.fn dests) symbols
  Bdd.implies a.states.fn total

/-- Whether no state has two successors on a symbol: two copies of the edge function admit only
equal destinations. -/
def isFunctional (a : SymbolicNfa) : BddM Bool := do
  let dests ← a.destDomain
  let symbols ← a.edges.domain 1
  let copy ← dests.at? (← symbols.stop)
  let second ← Bdd.rename a.edges.fn (← dests.renamingTo copy)
  let vars := (← dests.vars).zip (← copy.vars)
  let same ← Bdd.conjMap (fun (v, w) => do
    let x ← Bdd.literal v
    Bdd.equiv x (← Bdd.literal w)) vars
  let both ← Bdd.conj a.edges.fn second
  return (← Bdd.diff both same) = .zero

/-- Whether there are exactly one starting state and, for each state and symbol, exactly one
successor. -/
def testDeterminism (a : SymbolicNfa) : BddM Bool := do
  if (← Bdd.ask a.starting.size) ≠ 1 then return false
  if ← a.isTotal then a.isFunctional else return false

def classify (a : SymbolicNfa) : BddM SymbolicNfa :=
  match a.determinism with
  | .unknown => do
    return { a with determinism := if ← a.testDeterminism then .complete else .other }
  | _ => pure a

def isCompleteDeterministic (a : SymbolicNfa) : BddM Bool := do
  return (← a.classify).determinism = .complete

/-- The words that are not accepted. Where each word has one run, other states accept. -/
def negate (a : SymbolicNfa) : BddM SymbolicNfa := do
  let a ← a.classify
  if a.determinism = .complete then
    return { a with accepting := ← a.states.sdiff a.accepting }
  (← universal).sdiff a

def acceptsAll (a : SymbolicNfa) : BddM Bool := do
  let d ← a.determinize
  let reachable ← d.reachable
  if reachable.isEmpty then return false
  reachable.subset d.accepting

def acceptsNone (a : SymbolicNfa) : BddM Bool := do return (← a.live).isEmpty

def equivalent (a b : SymbolicNfa) : BddM Bool := do (← a.iff b).acceptsAll

def includedIn (a b : SymbolicNfa) : BddM Bool := do (← a.implies b).acceptsAll

/-- The order of the two languages by inclusion, if they are comparable. -/
def compare? (a b : SymbolicNfa) : BddM (Option Ordering) := do
  let below ← a.includedIn b
  let above ← b.includedIn a
  return match below, above with
    | true, true => some .eq
    | true, false => some .lt
    | false, true => some .gt
    | false, false => none

end SymbolicAutomata.SymbolicNfa
