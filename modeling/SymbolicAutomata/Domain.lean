/-!
# Domains

A domain is a block of consecutive variables that carries a number: bit `i` of the number lives on
variable `base + i`. Variables are numbered from 1.
-/
namespace SymbolicAutomata

structure Domain where
  base : Nat
  len : Nat
  base_ne_zero : base ≠ 0
  deriving DecidableEq, Repr

namespace Domain

def isEmpty (d : Domain) : Bool := d.len = 0

def withLen (d : Domain) (len : Nat) : Domain := { d with len := len }

def text (d : Domain) : String :=
  "x" ++ toString d.base ++ "..x" ++ toString (d.base + d.len)

def describe (d : Domain) : String :=
  "Domain \x7b base: " ++ toString d.base ++ ", len: " ++ toString d.len ++ " \x7d"

theorem withLen_base (d : Domain) (n : Nat) : (d.withLen n).base = d.base := rfl

theorem withLen_len (d : Domain) (n : Nat) : (d.withLen n).len = n := rfl

end Domain

end SymbolicAutomata
