import SymbolicAutomata.DomainArithmetic
/-!
# Variable layout

Every automaton uses the same blocks of variables, in this order:

source states < partition names < destination states < alphabet < scratch.

Determinization and minimization split a relation at the start of a block.
-/
namespace SymbolicAutomata.Layout

def maxStateBits : Nat := 32

def sourceBase : Nat := 1
def partitionBase : Nat := sourceBase + maxStateBits
def destBase : Nat := partitionBase + maxStateBits
def alphabetBase : Nat := destBase + maxStateBits

def maxSymbolBits : Nat := Nat.pow 2 16

def scratchBase : Nat := alphabetBase + maxSymbolBits

def states (n : Nat) : Except Failure Domain :=
  if n ≤ maxStateBits then .ok ⟨sourceBase, n, by decide⟩ else .error (.stateBits n)

def dests (n : Nat) : Except Failure Domain := do (← states n).at? destBase

def partitions (n : Nat) : Except Failure Domain := do (← states n).at? partitionBase

def scratch (n : Nat) : Domain := ⟨scratchBase, n, by decide⟩

def alphabet : Domain := ⟨alphabetBase, maxSymbolBits, by decide⟩

/-- The variables of the given symbol bits, which are numbered from 1. -/
def symbols (bits : Domain) : Except Failure Domain := do
  if (← bits.stop) ≤ maxSymbolBits + 1 then
    Domain.new (alphabetBase + bits.base - 1) bits.len
  else throw (.symbolBits bits)

def transitions (n : Nat) : Except Failure (List Domain) := do
  return [← states n, alphabet, ← dests n]

end SymbolicAutomata.Layout
