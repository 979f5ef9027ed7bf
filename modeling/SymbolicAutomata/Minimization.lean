import SymbolicAutomata.SubAutomaton
import SymbolicAutomata.SubsetConstruction
/-!
# Minimization by partition refinement

A round names the blocks of the partition, for sources and for destinations, and gives every state
its signature: own block, symbol, destination block. States of equal signature stay together. The
signatures are what remains of one function below the names of the source blocks.
-/
namespace SymbolicAutomata.SymbolicNfa

/-- The signatures of all states over source, partition name, symbol and scratch name. -/
def signatures (a : SymbolicNfa) (blocks : List ValueSet) : BddM Ref := do
  let width := bitsNeeded blocks.length
  let sources ← Relation.enumeration blocks (← Layout.partitions width)
  let dests ← a.destDomain
  let moved ← blocks.mapM (·.withDomain dests)
  let goals ← Relation.enumeration moved (Layout.scratch width)
  Bdd.exist (← Bdd.conjAll [a.edges.fn, sources.fn, goals.fn]) dests

def block (a : SymbolicNfa) (all s : Ref) : BddM ValueSet := do
  let members ← Bdd.selectBelow all Layout.partitionBase s
  (← ValueSet.ofFn (← a.stateDomain) members).inter a.states

def refine (a : SymbolicNfa) (blocks : List ValueSet) : BddM (List ValueSet) := do
  let all ← a.signatures blocks
  let found ← Bdd.ask (·.cofactorsBelow all Layout.partitionBase)
  return (← found.mapM (a.block all)).filter (!·.isEmpty)

def stabilize (a : SymbolicNfa) : Nat → List ValueSet → BddM (List ValueSet)
  | 0, _ => throw .tooManyStates
  | fuel + 1, blocks => do
    let refined ← a.refine blocks
    if refined.length = blocks.length then return blocks else a.stabilize fuel refined

/-- States from which nothing is accepted behave as one sink: each leads to each of them. -/
def joinDead (a : SymbolicNfa) : BddM SymbolicNfa := do
  let dead ← a.states.sdiff (← a.productive)
  if dead.isEmpty then return a else a.addEdgeSets dead (.universal a.manager) dead

def initialBlocks (a : SymbolicNfa) : BddM (List ValueSet) := do
  let accepting ← a.states.inter a.accepting
  let rejecting ← a.states.sdiff a.accepting
  return [accepting, rejecting].filter (!·.isEmpty)

/-- The automaton with states of the same future behaviour merged. A quotient of a complete
deterministic automaton is one again; of others nothing is known. -/
def minimize (a : SymbolicNfa) : BddM SymbolicNfa := do
  if a.stateCount = 0 then return a
  let b ← a.joinDead
  let blocks ← b.stabilize maxStates (← b.initialBlocks)
  let names ←
    Relation.enumeration blocks (← Layout.partitions (bitsNeeded blocks.length))
  let c ← b.mapStates names blocks.length
  return { c with determinism := if a.determinism = .complete then .complete else .unknown }

end SymbolicAutomata.SymbolicNfa
