import SymbolicAutomata.Automaton
import Std.Data.TreeSet
/-!
# Simulation between automata

A game decides whether a state of a second automaton simulates one of a first. At a main node the
spoiler moves in the first automaton and thereby names the symbols of an edge; at a challenge node
the duplicator answers with moves of the second automaton that together cover these symbols. Each
automaton moves within its own manager.
-/
namespace SymbolicAutomata

/-- A position of the game: a state of either automaton. -/
inductive GameNode
  | main (left right : Nat)
  /-- The symbols of `on`, which are some, are to be covered. -/
  | challenge (left right : Nat) (on : SymbolSet)
  deriving DecidableEq, Repr

namespace GameNode

def left : GameNode → Nat
  | main p _ => p
  | challenge p _ _ => p

def right : GameNode → Nat
  | main _ q => q
  | challenge _ q _ => q

/-- The function of the symbols to be covered; none are at a main node. -/
def label : GameNode → Ref
  | main _ _ => .zero
  | challenge _ _ on => on.fn

/-- Nodes are ordered by their states and then by the function of their symbols. -/
def order : GameNode → GameNode → Ordering :=
  compareLex (compareOn left) (compareLex (compareOn right) (compareOn label))

instance : Ord GameNode := ⟨order⟩

instance : Std.TransOrd GameNode := inferInstanceAs (Std.TransCmp (compareLex _ _))

def distinct (ns : List GameNode) : List GameNode := ns.eraseDupsBy fun m n => order m n = .eq

def pose (p q : Nat) (on : SymbolSet) : Except Failure GameNode :=
  if on.isEmpty then .error (.emptyChallenge p q) else .ok (.challenge p q on)

def isMain : GameNode → Bool
  | main _ _ => true
  | challenge _ _ _ => false

def isChallenge (n : GameNode) : Bool := !n.isMain

def text : GameNode → String
  | main p q => "(" ++ toString p ++ ", " ++ toString q ++ ")"
  | challenge p q on => "(" ++ toString p ++ ", " ++ toString q ++ ", " ++ on.text ++ ")"

def pair : GameNode → Except Failure (Nat × Nat)
  | main p q => .ok (p, q)
  | n => .error (.notMainNode n.text)

def symbols : GameNode → Except Failure SymbolSet
  | challenge _ _ on => .ok on
  | n => .error (.notChallengeNode n.text)

end GameNode

/-- The game between two automata, limited to some states of each. -/
structure Game where
  first : Automaton
  second : Automaton
  states1 : ValueSet
  states2 : ValueSet

namespace Game

def new (first second : Automaton) (states1 states2 : ValueSet) : BddM Game := do
  let states1 ← states1.moved (← first.within first.states).domain
  let states2 ← states2.moved (← second.within second.states).domain
  return ⟨first, second, states1, states2⟩

def challenges (g : Game) (p q : Nat) : BddM (List GameNode) := g.first.within do
  let source ← g.first.stateSet [p]
  let next ← (← g.first.step .forward source g.first.alphabet).inter g.states1
  (← next.elements).filterMapM fun p' => do
    let on ← g.first.edge p p'
    return if on.isEmpty then none else some (.challenge p' q on)

def answers (g : Game) (p q : Nat) (on : SymbolSet) : BddM (List GameNode) := g.second.within do
  let source ← g.second.stateSet [q]
  let next ← (← g.second.step .forward source on).inter g.states2
  return (← next.elements).map (.main p)

def successors (g : Game) : GameNode → BddM (List GameNode)
  | .main p q => g.challenges p q
  | .challenge p q on => g.answers p q on

def nodes (g : Game) : BddM (List GameNode) := do
  let groups ← (← g.states1.elements).mapM fun p => do
    (← g.states2.elements).mapM fun q => do return .main p q :: (← g.challenges p q)
  return GameNode.distinct groups.flatten.flatten

def uncovered (g : Game) (q : Nat) (on : SymbolSet) (answers : List GameNode) : BddM SymbolSet :=
  answers.foldlM (fun rest n => do
    let covered ← g.second.within (g.second.edge q n.right)
    Bdd.within rest.manager (rest.sdiff covered)) on

/-- A main node survives if all its challenges do, a challenge if the surviving answers cover it. -/
def survives (g : Game) (alive : Std.TreeSet GameNode) (successors : List GameNode) :
    GameNode → BddM Bool
  | .main _ _ => pure (successors.all alive.contains)
  | .challenge _ q on => do
    return (← g.uncovered q on (successors.filter alive.contains)).isEmpty

/-- Remove the nodes that do not survive until all do. Nodes come with their successors. -/
def fixFrom (g : Game) : Nat → List (GameNode × List GameNode) →
    BddM (List (GameNode × List GameNode))
  | 0, _ => throw .tooManyStates
  | fuel + 1, current => do
    let alive := Std.TreeSet.ofList (current.map (·.1))
    let next ← current.filterM fun (n, successors) => g.survives alive successors n
    if next.length = current.length then return current else g.fixFrom fuel next

def fixpoint (g : Game) (initial : List GameNode) : BddM (List GameNode) := do
  let current ← (GameNode.distinct initial).mapM fun n => do return (n, ← g.successors n)
  return (← g.fixFrom (current.length + 1) current).map (·.1)

def isBad (bad1 bad2 : ValueSet) : GameNode → BddM Bool
  | .main p q => do if ← bad1.holds p then bad2.holds q else return false
  | .challenge _ _ _ => pure false

/-- The pairs of the main nodes that survive when the pairs of a state in `bad1` and one in `bad2`
are excluded, in ascending order. -/
def maximal (g : Game) (bad1 bad2 : ValueSet) : BddM (List (Nat × Nat)) := do
  let initial ← (← g.nodes).filterM fun n => do return !(← isBad bad1 bad2 n)
  let pairs := (← g.fixpoint initial).filterMap fun
    | .main p q => some (p, q)
    | .challenge _ _ _ => none
  return sortByKey (·.1) (sortByKey (·.2) pairs)

end Game

/-- The pairs of a state in `s1` and one in `s2` that simulates it, along edges in the given
direction and for the states where a walk against it begins. -/
def simulationWithin (dir : Direction) (a b : Automaton) (s1 s2 : ValueSet) :
    BddM (List (Nat × Nat)) := do
  let view (a : Automaton) : Automaton := if dir = .forward then a else .reversed a
  let g ← Game.new (view a) (view b) s1 s2
  let other ← b.within do (← b.states).sdiff (← b.ends dir.flip)
  g.maximal (← a.within (a.ends dir.flip)) other

def simulation (dir : Direction) (a b : Automaton) : BddM (List (Nat × Nat)) := do
  let s1 ← a.within a.states
  simulationWithin dir a b s1 (← b.within b.states)

end SymbolicAutomata
