import SymbolicAutomata.MatrixNfa
import SymbolicAutomata.SymbolicNfa
/-!
# Word automata in any encoding

One set of questions is answered by every encoding. An automaton known only by its edge relation
answers them from that relation; a reversed view answers them from the automaton it shows, with
every edge turned round and the roles of starting and accepting states exchanged.
-/
namespace SymbolicAutomata

inductive Automaton
  | symbolic (a : SymbolicNfa)
  | matrix (a : MatrixNfa)
  /-- Known by its state sets and its edge relation alone. Every other answer is the default one,
  which an encoding without an answer of its own finds from them. -/
  | relational (a : SymbolicNfa)
  | reversed (a : Automaton)
  deriving DecidableEq, Repr

namespace Automaton

def manager : Automaton → Nat
  | symbolic a => a.manager
  | matrix a => a.manager
  | relational a => a.manager
  | reversed a => a.manager

def within {α : Type} (a : Automaton) (x : BddM α) : BddM α := Bdd.within a.manager x

def states : Automaton → BddM ValueSet
  | symbolic a => pure a.states
  | matrix a => a.states
  | relational a => pure a.states
  | reversed a => a.states

/-- The states where a walk in the given direction begins. -/
def ends : Automaton → Direction → BddM ValueSet
  | symbolic a, .forward => pure a.starting
  | symbolic a, .backward => pure a.accepting
  | matrix a, .forward => a.stateSet a.starting
  | matrix a, .backward => a.stateSet a.accepting
  | relational a, .forward => pure a.starting
  | relational a, .backward => pure a.accepting
  | reversed a, dir => a.ends dir.flip

def starting (a : Automaton) : BddM ValueSet := a.ends .forward

def accepting (a : Automaton) : BddM ValueSet := a.ends .backward

def stateCount : Automaton → BddM Nat
  | symbolic a => pure a.stateCount
  | matrix a => pure a.stateCount
  | relational a => Bdd.ask a.states.size
  | reversed a => a.stateCount

def alphabet (a : Automaton) : SymbolSet := .universal a.manager

def stateSet (a : Automaton) (qs : List Nat) : BddM ValueSet := do
  ValueSet.ofList (← a.states).domain qs

def labels : Automaton → ValueSet → ValueSet → BddM SymbolSet
  | symbolic a, s, t => a.edges.labels s t
  | matrix a, s, t => do (← a.edges).labels s t
  | relational a, s, t => a.edges.labels s t
  | reversed a, s, t => a.labels t s

def edge : Automaton → Nat → Nat → BddM SymbolSet
  | symbolic a, p, q => a.edge p q
  | matrix a, p, q => a.edge p q
  | relational a, p, q => do
    let s ← a.stateSet [p]
    a.edges.labels s (← a.stateSet [q])
  | reversed a, p, q => a.edge q p

def edges : Automaton → BddM Relation
  | symbolic a => pure a.edges
  | matrix a => a.edges
  | relational a => pure a.edges
  | reversed _ => throw .reversedTransitions

def step : Automaton → Direction → ValueSet → SymbolSet → BddM ValueSet
  | symbolic a, dir, s, on => a.step dir s on
  | matrix a, dir, s, on => do
    let d := (← a.states).domain
    (← (← a.edges).step dir s on).withDomain d
  | relational a, dir, s, on => do (← a.edges.step dir s on).withDomain a.states.domain
  | reversed a, dir, s, on => a.step dir.flip s on

def reach (a : Automaton) (dir : Direction) (s : ValueSet) (on : SymbolSet) : BddM ValueSet := do
  ValueSet.close (a.step dir · on) (← s.moved (← a.states).domain)

def reachable (a : Automaton) : BddM ValueSet := do
  a.reach .forward (← a.starting) a.alphabet

def productive (a : Automaton) : BddM ValueSet := do
  a.reach .backward (← a.accepting) a.alphabet

def live (a : Automaton) : BddM ValueSet := do
  let s ← a.reachable
  s.inter (← a.productive)

def addState : Automaton → (accepting starting : Bool) → BddM (Nat × Automaton)
  | symbolic a, accepting, starting => do
    let (q, b) ← a.addState accepting starting
    return (q, symbolic b)
  | matrix a, accepting, starting =>
    let (q, b) := a.addState accepting starting
    pure (q, matrix b)
  | relational a, accepting, starting => do
    let (q, b) ← a.addState accepting starting
    return (q, relational b)
  | reversed _, _, _ => throw .reversedAddState

def addEdge : Automaton → Nat → SymbolSet → Nat → BddM Automaton
  | symbolic a, p, on, q => symbolic <$> a.addEdge p on q
  | matrix a, p, on, q => matrix <$> a.addEdge p on q
  | relational a, p, on, q => do
    let s ← a.stateSet [p]
    let t ← a.stateSet [q]
    relational <$> a.addEdgeSets s on t
  | reversed _, _, _, _ => throw .reversedAddEdge

/-- State numbers are the lowest 32 bits of set elements. -/
def stateOf (v : Nat) : Nat := v % Nat.pow 2 32

def addEdgeSets : Automaton → ValueSet → SymbolSet → ValueSet → BddM Automaton
  | symbolic a, s, on, t => symbolic <$> a.addEdgeSets s on t
  | matrix a, s, on, t => do
    let ps ← s.elements
    matrix <$> ps.foldlM (fun a p => do
      let qs ← t.elements
      qs.foldlM (fun a q => a.addEdge (stateOf p) on (stateOf q)) a) a
  | relational a, s, on, t => relational <$> a.addEdgeSets s on t
  | reversed _, _, _, _ => throw .reversedAddEdge

def addEachEdge (states : ValueSet) (r : Relation) (a : Automaton) : BddM Automaton := do
  let qs ← states.elements
  qs.foldlM (fun a p => do
    let source ← ValueSet.singleton states.domain p
    let out ← Bdd.within r.manager (r.restrict 0 source)
    if out.isEmpty then return a
    qs.foldlM (fun a q => do
      let dest ← ValueSet.singleton states.domain q
      let on ← Bdd.within r.manager do (← out.restrict 2 dest).symbolsOn 1
      if on.isEmpty then return a
      a.addEdge p on q) a) a

def addTransitions : Automaton → Relation → BddM Automaton
  | symbolic a, r => symbolic <$> a.addTransitions r
  | reversed _, _ => throw .reversedAddTransitions
  | a, r => do
    if r.arity ≠ 3 then throw (.ternaryRelation r.arity)
    addEachEdge (← a.states) r a

/-- The sets of states after each prefix of a word of symbol sets, the empty one first. -/
def run (a : Automaton) (word : List SymbolSet) : BddM (List ValueSet) := do
  let start ← a.starting
  let (sets, _) ← word.foldlM (fun (sets, s) on => do
    let next ← a.step .forward s on
    return (next :: sets, next)) ([start], start)
  return sets.reverse

def acceptsIn (a : Automaton) (s : ValueSet) : BddM Bool := do s.intersects (← a.accepting)

/-- A word extended by each letter in turn, with the states that each extension leads to. The
letters are the values of some symbol bits. -/
def extensions (a : Automaton) (bits : Domain) (word : List Nat) (s : ValueSet) :
    BddM (List (List Nat × ValueSet)) :=
  (List.range (Nat.pow 2 bits.len)).mapM fun letter => do
    let on ← SymbolSet.ofValue bits letter
    return (word ++ [letter], ← a.step .forward s on)

/-- The accepted ones of the given words and of those that extend them by at most `n` letters. Every
word comes with the states it leads to; a set of states accepts if it meets `accepting`. -/
def acceptedFrom (a : Automaton) (bits : Domain) (accepting : ValueSet) :
    Nat → List (List Nat × ValueSet) → BddM (List (List Nat))
  | 0, words => do
    let found ← words.filterM fun (_, s) => s.intersects accepting
    return found.map (·.1)
  | n + 1, words => do
    let visited ← words.mapM fun (word, s) => do
      let accepted ← s.intersects accepting
      return (if accepted then [word] else [], ← a.extensions bits word s)
    let longer ← a.acceptedFrom bits accepting n (visited.flatMap (·.2))
    return visited.flatMap (·.1) ++ longer

/-- The accepted words of at most `n` letters. Shorter words come first, words of a length in the
order of their letters. -/
def acceptedWords (a : Automaton) (bits : Domain) (n : Nat) : BddM (List (List Nat)) := do
  let s ← a.starting
  a.acceptedFrom bits (← a.accepting) n [([], s)]

end Automaton

end SymbolicAutomata
