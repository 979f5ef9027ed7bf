import SymbolicAutomata.Splitting
import SymbolicAutomata.SymbolicNfa
/-!
# Symbolic subset construction

A power-state is a set of states, held as one function over the scratch block. The edges out of a
power-state are a function of symbol and scratch variables; what remains of it below the scratch
block are the power-states reached, one for each class of symbols.
-/
namespace SymbolicAutomata.SymbolicNfa

/-- State numbers are 32-bit words, so no search goes through more states. -/
def maxStates : Nat := Nat.pow 2 32

def discover (found : List Ref) (f : Ref) : List Ref := if f ∈ found then found else found ++ [f]

/-- Follow the moves of the discovered power-states in order, until each has been followed. -/
def explore (moves : Ref → BddM Ref) : Nat → (found followed : List Ref) →
    BddM (List Ref × List Ref)
  | 0, _, _ => throw .tooManyStates
  | fuel + 1, found, followed =>
    match found[followed.length]? with
    | none => pure (found, followed)
    | some p => do
      let f ← moves p
      let targets ← Bdd.ask (·.cofactorsBelow f Layout.scratchBase)
      explore moves fuel (targets.foldl discover found) (followed ++ [f])

def powerMoves (edges : Relation) (states power : Domain) (p : Ref) : BddM Ref := do
  let source ← (← ValueSet.ofFn power p).withDomain states
  return (← (← edges.restrict 0 source).project 0).fn

/-- The number of a power-state, as a destination. What is no power-state is no destination. -/
def numbered (found : List Ref) (dests : Domain) (p : Ref) : BddM Ref :=
  match found.idxOf? p with
  | some i => Bdd.value dests i
  | none => pure .zero

def meeting (found : List Ref) (states : Domain) (f : Ref) : BddM Ref :=
  found.zipIdx.foldlM (fun acc (p, i) => do
    if (← Bdd.conj p f) = .zero then return acc
    Bdd.disj acc (← Bdd.value states i)) .zero

/-- An automaton of the same language with exactly one run on each word. Its states are the
power-states in the order of their discovery; an automaton without starting states gives one
without states. -/
def determinize (a : SymbolicNfa) : BddM SymbolicNfa := do
  if a.determinism = .complete then return a
  if a.starting.isEmpty then return ← empty
  let power := Layout.scratch a.width
  let edges ← a.edges.withDomain 2 power
  let start := (← a.starting.withDomain power).fn
  let (found, moves) ←
    explore (powerMoves edges (← a.stateDomain) power) maxStates [start] []
  let b ← ofCount found.length
  let states ← b.stateDomain
  let dests ← b.destDomain
  let combined ← Bdd.disjMap (fun (f, q) => do Bdd.conj (← Bdd.value states q) f) moves.zipIdx
  let redirected ← (Bdd.replaceBelow combined Layout.scratchBase
    fun p => StateT.lift (numbered found dests p)).run' ()
  let edges ← Relation.ofFn (← Layout.transitions b.width) redirected
  let edges ← edges.restrict 0 b.states
  let accepting := (← a.accepting.withDomain power).fn
  let starting ← ValueSet.singleton states 0
  let accepting ← ValueSet.ofFn states (← meeting found states accepting)
  return { b with
    starting := starting, accepting := accepting, edges := edges, determinism := .complete }

end SymbolicAutomata.SymbolicNfa
