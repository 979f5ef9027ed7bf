import SymbolicAutomata.Reachability
/-!
# Automata with symbolic transitions

The states are `0, …, n - 1`, and a state number has as many bits as `n` values need. All edges are
one relation over source, symbol and destination. When the state count passes a power of two every
domain grows by a bit, which is absent in the numbers there already.
-/
namespace SymbolicAutomata

/-- What is known of whether an automaton has one starting state and, for each state and symbol, one
successor. -/
inductive Determinism
  | unknown
  | complete
  | other
  deriving DecidableEq, Repr

structure SymbolicNfa where
  manager : Nat
  stateCount : Nat
  states : ValueSet
  starting : ValueSet
  accepting : ValueSet
  edges : Relation
  determinism : Determinism
  deriving DecidableEq, Repr

def ValueSet.firstStates (d : Domain) (n : Nat) : BddM ValueSet :=
  if n = 0 then empty d else range d 0 (n - 1)

namespace SymbolicNfa

def ofCount (n : Nat) : BddM SymbolicNfa := do
  let k := bitsNeeded n
  let d ← Layout.states k
  let states ← ValueSet.firstStates d n
  let noStates ← ValueSet.empty d
  let edges ← Relation.empty (← Layout.transitions k)
  return ⟨← Bdd.managerId, n, states, noStates, noStates, edges, .unknown⟩

def empty : BddM SymbolicNfa := ofCount 0

def width (a : SymbolicNfa) : Nat := bitsNeeded a.stateCount

def stateDomain (a : SymbolicNfa) : Except Failure Domain := Layout.states a.width

def destDomain (a : SymbolicNfa) : Except Failure Domain := Layout.dests a.width

def resize (a : SymbolicNfa) (k : Nat) : BddM SymbolicNfa := do
  let d ← Layout.states k
  let states ← a.states.withDomain d
  let starting ← a.starting.withDomain d
  let accepting ← a.accepting.withDomain d
  let edges ← a.edges.withDomains (← Layout.transitions k)
  return { a with
    states := states, starting := starting, accepting := accepting, edges := edges,
    determinism := .unknown }

def increase (a : SymbolicNfa) (n : Nat) (accepting starting : Bool) : BddM SymbolicNfa := do
  if n ≤ a.stateCount then return a
  let k := bitsNeeded n
  let a ← if a.width < k then a.resize k else pure a
  let added ← ValueSet.range (← Layout.states k) a.stateCount (n - 1)
  let states ← a.states.union added
  let accepting ← if accepting then a.accepting.union added else pure a.accepting
  let starting ← if starting then a.starting.union added else pure a.starting
  return { a with
    stateCount := n, states := states, starting := starting, accepting := accepting,
    determinism := .unknown }

/-- One more state, with its number. State numbers are 32-bit words. -/
def addState (a : SymbolicNfa) (accepting starting : Bool) : BddM (Nat × SymbolicNfa) := do
  let n ← fits 32 (a.stateCount + 1)
  return (a.stateCount, ← a.increase n accepting starting)

def checkState (a : SymbolicNfa) (q : Nat) : Except Failure Unit :=
  if q < a.stateCount then .ok () else .error (.stateOutside q a.stateCount)

def stateSet (a : SymbolicNfa) (qs : List Nat) : BddM ValueSet := ValueSet.ofList a.states.domain qs

def addEdgeSets (a : SymbolicNfa) (s : ValueSet) (on : SymbolSet) (t : ValueSet) :
    BddM SymbolicNfa := do
  let s ← s.moved (← a.stateDomain)
  let t ← t.moved (← a.destDomain)
  let added ← Bdd.conjAll [s.fn, on.fn, t.fn]
  let f ← Bdd.disj a.edges.fn added
  return { a with edges := ← Relation.ofFn a.edges.domains f, determinism := .unknown }

def addEdge (a : SymbolicNfa) (p : Nat) (on : SymbolSet) (q : Nat) : BddM SymbolicNfa := do
  a.checkState p
  a.checkState q
  let d ← a.stateDomain
  let s ← ValueSet.singleton d p
  let t ← ValueSet.singleton d q
  a.addEdgeSets s on t

def addTransitions (a : SymbolicNfa) (r : Relation) : BddM SymbolicNfa := do
  if r.arity ≠ 3 then throw (.ternaryRelation r.arity)
  let targets ← Layout.transitions a.width
  let moved ← Bdd.within r.manager (r.withDomains targets)
  return { a with edges := ← a.edges.union moved, determinism := .unknown }

def universal : BddM SymbolicNfa := do
  let (q, a) ← (← empty).addState true true
  a.addEdge q (.universal a.manager) q

def epsilon : BddM SymbolicNfa := do return (← (← empty).addState true true).2

def ofSymbols (on : SymbolSet) : BddM SymbolicNfa := do
  let (p, a) ← (← empty).addState false true
  let (q, a) ← a.addState true false
  a.addEdge p on q

/-- Other starting and accepting states, taken from the given sets as far as they are states. -/
def withStartingAccepting (a : SymbolicNfa) (starting accepting : ValueSet) :
    BddM SymbolicNfa := do
  let starting ← (← starting.inter a.states).withDomain (← a.stateDomain)
  let accepting ← (← accepting.inter a.states).withDomain (← a.stateDomain)
  return { a with starting := starting, accepting := accepting, determinism := .unknown }

def project (a : SymbolicNfa) (bits : Domain) : BddM SymbolicNfa := do
  let labels ← (SymbolSet.mk a.manager a.edges.fn).project bits
  return { a with edges := ← Relation.ofFn a.edges.domains labels.fn, determinism := .unknown }

def rename (a : SymbolicNfa) (names : Renaming) : BddM SymbolicNfa := do
  let labels ← (SymbolSet.mk a.manager a.edges.fn).rename names
  return { a with edges := ← Relation.ofFn a.edges.domains labels.fn, determinism := .unknown }

def stateFixing (vars : List Nat) (q : Nat) : Fixing :=
  vars.zipIdx.map fun (v, i) => (v, q.testBit i)

/-- The symbols on the edge from `p` to `q`: the edge function with both states fixed. -/
def edge (a : SymbolicNfa) (p q : Nat) : BddM SymbolSet := do
  a.checkState p
  a.checkState q
  let sources ← (← a.stateDomain).vars
  let dests ← (← a.destDomain).vars
  let f ← Bdd.restrict a.edges.fn (stateFixing sources p ++ stateFixing dests q)
  return ⟨a.manager, f⟩

/-- The states one step away on a symbol of `on`. Destinations are renamed to state numbers; the
sources are over the first domain of the edges already. -/
def step (a : SymbolicNfa) (dir : Direction) (s : ValueSet) (on : SymbolSet) : BddM ValueSet := do
  let found ← a.edges.step dir s on
  match dir with
  | .forward => found.withDomain (← a.stateDomain)
  | .backward => return found

def reach (a : SymbolicNfa) (dir : Direction) (s : ValueSet) (on : SymbolSet) : BddM ValueSet := do
  ValueSet.close (a.step dir · on) (← s.moved a.states.domain)

def reachable (a : SymbolicNfa) : BddM ValueSet :=
  a.reach .forward a.starting (.universal a.manager)

def productive (a : SymbolicNfa) : BddM ValueSet :=
  a.reach .backward a.accepting (.universal a.manager)

def live (a : SymbolicNfa) : BddM ValueSet := do
  let s ← a.reachable
  s.inter (← a.productive)

end SymbolicNfa

def Determinism.text : Determinism → String
  | unknown => "Unknown"
  | complete => "CompleteDeterministic"
  | other => "Other"

def SymbolicNfa.describe (a : SymbolicNfa) (m : Manager) : Except Failure String := do
  let starting ← a.starting.text m
  let accepting ← a.accepting.text m
  let nodes ← m.nodesOf a.edges.fn
  return "BNfa \x7b n_states: " ++ toString a.stateCount ++
    ", starting: \"" ++ starting ++ "\", accepting: \"" ++ accepting ++
    "\", transitions: Ref(" ++ toString a.edges.fn.raw ++ "), transitions_size: " ++
    toString nodes ++ ", determinism: " ++ a.determinism.text ++ " \x7d"

end SymbolicAutomata
