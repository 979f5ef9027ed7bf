import SymbolicAutomata.DomainArithmetic
import Std.Data.TreeMap
/-!
# Renamings of variables

A renaming gives new names to finitely many variables, all at once. Two domains are joined by the
renaming of the bits that both have.
-/
namespace SymbolicAutomata

structure Renaming where
  /-- The new names, by the old ones. -/
  names : Std.TreeMap Nat Nat

namespace Renaming

def identity : Renaming := ⟨∅⟩

def isIdentity (r : Renaming) : Bool := r.names.isEmpty

/-- A later entry for the same variable replaces the earlier one. -/
def insert (r : Renaming) (entry : Nat × Nat) : Renaming := ⟨r.names.insert entry.1 entry.2⟩

def ofList (entries : List (Nat × Nat)) : Renaming := entries.foldl insert identity

def entries (r : Renaming) : List (Nat × Nat) := r.names.toList

/-- The entries of two renamings together; those of the second one count. -/
def extend (r s : Renaming) : Renaming := s.entries.foldl insert r

/-- The new name of a variable; a variable without an entry keeps its name. -/
def apply (r : Renaming) (v : Nat) : Nat := r.names.getD v v

theorem apply_identity (v : Nat) : identity.apply v = v := rfl

theorem apply_insert (r : Renaming) (a b v : Nat) :
    (r.insert (a, b)).apply v = if v = a then b else r.apply v := by
  unfold insert apply
  rw [Std.TreeMap.getD_insert]
  by_cases h : v = a
  · simp [h]
  · have : compare a v ≠ .eq := fun e => h (Std.LawfulEqOrd.eq_of_compare e).symm
    simp [h, this]

end Renaming

/-- The renaming of the low bits that both domains have, less the variables that stay in place. -/
def Domain.renamingTo (d e : Domain) : Except Failure Renaming := do
  let _ ← d.stop
  let _ ← e.stop
  let shared := (List.range (min d.len e.len)).map fun i => (d.base + i, e.base + i)
  return .ofList (shared.filter fun p => p.1 ≠ p.2)

end SymbolicAutomata
