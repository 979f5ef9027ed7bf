import SymbolicAutomata.Encoding
import SymbolicAutomata.Layout
import SymbolicAutomata.Quantifier
import SymbolicAutomata.Reading
import SymbolicAutomata.Substitution
/-!
# Sets of symbols

A symbol is a vector of bits numbered from 1. All symbol sets are functions over the same block of
variables, so two of them from one manager are equal exactly when their functions are.
-/
namespace SymbolicAutomata

structure SymbolSet where
  manager : Nat
  fn : Ref
  deriving DecidableEq, Repr

namespace SymbolSet

def ofFn (f : Ref) : BddM SymbolSet := do return ⟨← Bdd.managerId, f⟩

def empty (manager : Nat) : SymbolSet := ⟨manager, .zero⟩

def universal (manager : Nat) : SymbolSet := ⟨manager, .one⟩

def bitVar (bit : Nat) : Except Failure Nat := do
  return (← Layout.symbols (← Domain.new bit 1)).base

def ofBit (bit : Nat) : BddM SymbolSet := do
  if bit = 0 then throw .symbolBitZero
  ofFn (← Bdd.literal (← bitVar bit))

def ofValue (bits : Domain) (v : Nat) : BddM SymbolSet := do
  ofFn (← Bdd.value (← Layout.symbols bits) v)

def ofValues (bits : Domain) (vs : List Nat) : BddM SymbolSet := do
  let d ← Layout.symbols bits
  ofFn (← Bdd.disjMap (Bdd.value d) vs)

def isEmpty (s : SymbolSet) : Bool := s.fn = .zero

def isUniversal (s : SymbolSet) : Bool := s.fn = .one

def withFn (s : SymbolSet) (f : Ref) : SymbolSet := { s with fn := f }

def union (s t : SymbolSet) : BddM SymbolSet := do return s.withFn (← Bdd.disj s.fn t.fn)

def inter (s t : SymbolSet) : BddM SymbolSet := do return s.withFn (← Bdd.conj s.fn t.fn)

def sdiff (s t : SymbolSet) : BddM SymbolSet := do return s.withFn (← Bdd.diff s.fn t.fn)

def compl (s : SymbolSet) : SymbolSet := s.withFn (-s.fn)

def subset (s t : SymbolSet) : BddM Bool := Bdd.implies s.fn t.fn

def same (s t : SymbolSet) : Bool := s.fn = t.fn

def meetsValue (s : SymbolSet) (bits : Domain) (v : Nat) : BddM Bool := do
  return !(← s.inter (← ofValue bits v)).isEmpty

/-- The value of a variable for the symbol with the given bits; further bits are unset. -/
def bitOf (symbol : List Bool) (v : Nat) : Bool :=
  decide (Layout.alphabetBase ≤ v) && symbol[v - Layout.alphabetBase]?.getD false

def contains (s : SymbolSet) (symbol : List Bool) (m : Manager) : Except Failure Bool :=
  m.evaluate s.fn fun v => .ok (bitOf symbol v)

/-- The symbols that agree outside the given bits with one of the set. -/
def project (s : SymbolSet) (bits : Domain) : BddM SymbolSet := do
  return s.withFn (← Bdd.exist s.fn (← Layout.symbols bits))

def bitRenaming (names : Renaming) : Except Failure Renaming := do
  return .ofList (← names.entries.mapM fun (a, b) => do return (← bitVar a, ← bitVar b))

def rename (s : SymbolSet) (names : Renaming) : BddM SymbolSet := do
  return s.withFn (← Bdd.rename s.fn (← bitRenaming names))

def text (s : SymbolSet) : String :=
  if s.isEmpty then "∅" else if s.isUniversal then "Σ" else s.fn.text

def describe (s : SymbolSet) : String := "SymbolSet(" ++ s.text ++ ")"

end SymbolSet

end SymbolicAutomata
