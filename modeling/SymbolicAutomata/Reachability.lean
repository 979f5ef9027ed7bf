import SymbolicAutomata.Relation
/-!
# Steps and closures

Edges are tuples (source, symbol, destination). They are walked forward or backward.
-/
namespace SymbolicAutomata

inductive Direction
  | forward
  | backward
  deriving DecidableEq, Repr

namespace Direction

def flip : Direction → Direction
  | forward => backward
  | backward => forward

def start : Direction → Nat
  | forward => 0
  | backward => 2

def goal : Direction → Nat
  | forward => 2
  | backward => 0

end Direction

namespace Relation

def step (edges : Relation) (dir : Direction) (s : ValueSet) (on : SymbolSet) :
    BddM ValueSet := do
  let edges ← edges.restrict dir.start s
  (← edges.restrictSymbols 1 on).projectOn dir.goal

def labels (edges : Relation) (s t : ValueSet) : BddM SymbolSet := do
  (← (← edges.restrict 0 s).restrict 2 t).symbolsOn 1

end Relation

namespace ValueSet

def closeFrom (step : ValueSet → BddM ValueSet) : Nat → ValueSet → BddM ValueSet
  | 0, _ => throw .tooManyStates
  | fuel + 1, reached => do
    let next ← reached.union (← step reached)
    if ← next.same reached then return reached else closeFrom step fuel next

/-- The least set that contains `s` and what a step from it leads to. Every round but the last adds
a value, so the greatest number of states bounds the rounds. -/
def close (step : ValueSet → BddM ValueSet) (s : ValueSet) : BddM ValueSet :=
  closeFrom step (Nat.pow 2 Layout.maxStateBits + 2) s

end ValueSet

end SymbolicAutomata
