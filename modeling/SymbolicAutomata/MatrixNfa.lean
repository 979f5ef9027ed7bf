import SymbolicAutomata.Reachability
import SymbolicAutomata.SymbolicNfa
/-!
# Automata with a matrix of edge labels
-/
namespace SymbolicAutomata

structure MatrixNfa where
  manager : Nat
  /-- Row `p`, column `q` labels the edge from `p` to `q`. -/
  rows : Array (Array SymbolSet)
  /-- In ascending order. -/
  starting : List Nat
  /-- In ascending order. -/
  accepting : List Nat
  deriving DecidableEq, Repr

namespace MatrixNfa

def empty : BddM MatrixNfa := do return ⟨← Bdd.managerId, #[], [], []⟩

def stateCount (a : MatrixNfa) : Nat := a.rows.size

def addState : MatrixNfa → (accepting starting : Bool) → Nat × MatrixNfa
  | ⟨manager, rows, starts, accepts⟩, accepting, starting =>
    let q := rows.size
    let unlabelled := SymbolSet.empty manager
    let rows := (rows.map (·.push unlabelled)).push (Array.replicate (q + 1) unlabelled)
    (q, ⟨manager, rows, if starting then starts ++ [q] else starts,
      if accepting then accepts ++ [q] else accepts⟩)

def edge (a : MatrixNfa) (p q : Nat) : Except Failure SymbolSet :=
  match a.rows[p]? with
  | none => .error .outOfBounds
  | some row =>
    match row[q]? with
    | none => .error .outOfBounds
    | some on => .ok on

def addEdge (a : MatrixNfa) (p : Nat) (on : SymbolSet) (q : Nat) : BddM MatrixNfa := do
  let n := a.stateCount
  if n ≤ p ∨ n ≤ q then throw (.edgeOutside p q n)
  let label ← (← a.edge p q).union on
  return { a with rows := a.rows.modify p (·.setIfInBounds q label) }

def stateDomain (a : MatrixNfa) : Except Failure Domain := Layout.states (bitsNeeded a.stateCount)

def states (a : MatrixNfa) : BddM ValueSet := do
  ValueSet.firstStates (← a.stateDomain) a.stateCount

def stateSet (a : MatrixNfa) (qs : List Nat) : BddM ValueSet := do
  ValueSet.ofList (← a.states).domain qs

def edges (a : MatrixNfa) : BddM Relation := do
  let states ← a.states
  let source ← Layout.states states.domain.len
  let dest ← Layout.dests states.domain.len
  let qs ← Bdd.ask states.toList
  let f ← qs.foldlM (fun f p => qs.foldlM (fun f q => do
    let on ← a.edge p q
    if on.isEmpty then return f
    let x ← Bdd.value source p
    let y ← Bdd.value dest q
    Bdd.disj f (← Bdd.conjAll [x, on.fn, y])) f) Ref.zero
  Relation.ofFn [source, Layout.alphabet, dest] f

def meetsAccepting (a : MatrixNfa) (qs : List Nat) : Bool := qs.any (a.accepting.contains ·)

/-- The coarsest partition of the alphabet in which each label is a union of blocks. -/
def atoms (labels : List SymbolSet) : BddM (List SymbolSet) := do
  labels.foldlM (fun atoms label => do
    let split ← atoms.mapM fun atom => do
      let inside ← atom.inter label
      return [inside, ← atom.sdiff label]
    return split.flatten.filter (!·.isEmpty)) [.universal (← Bdd.managerId)]

def rowsOf (a : MatrixNfa) (qs : List Nat) : List (List SymbolSet) :=
  qs.filterMap fun q => a.rows[q]?.map Array.toList

/-- The states that an edge from a state of `qs` leads to on a symbol of `atom`, in ascending
order. -/
def successors (a : MatrixNfa) (qs : List Nat) (atom : SymbolSet) : BddM (List Nat) := do
  let hit ← (a.rowsOf qs).mapM fun row => row.zipIdx.filterMapM fun (on, q) => do
    return if (← on.inter atom).isEmpty then none else some q
  return (List.range a.stateCount).filter (hit.flatten.contains ·)

/-- Explicit power-states numbered in the order of their discovery, with the automaton over them. -/
structure PowerSearch where
  found : List (List Nat)
  automaton : MatrixNfa

def follow (a : MatrixNfa) (number : Nat) (qs : List Nat) (s : PowerSearch) (atom : SymbolSet) :
    BddM PowerSearch := do
  let target ← a.successors qs atom
  match s.found.idxOf? target with
  | some q => return { s with automaton := ← s.automaton.addEdge number atom q }
  | none =>
    let (q, b) := s.automaton.addState (a.meetsAccepting target) false
    return ⟨s.found ++ [target], ← b.addEdge number atom q⟩

def followFrom (a : MatrixNfa) : Nat → Nat → PowerSearch → BddM PowerSearch
  | 0, _, _ => throw .tooManyStates
  | fuel + 1, number, s =>
    match s.found[number]? with
    | none => pure s
    | some qs => do
      let labels := (a.rowsOf qs).flatten.filter (!·.isEmpty)
      let s ← (← atoms labels).foldlM (a.follow number qs) s
      a.followFrom fuel (number + 1) s

def determinize (a : MatrixNfa) : BddM MatrixNfa := do
  let blank ← empty
  if a.starting.isEmpty then return blank
  let (_, b) := blank.addState (a.meetsAccepting a.starting) true
  return (← a.followFrom (Nat.pow 2 32) 0 ⟨[a.starting], b⟩).automaton

end MatrixNfa

end SymbolicAutomata
