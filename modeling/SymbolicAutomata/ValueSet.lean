import SymbolicAutomata.Encoding
import SymbolicAutomata.Quantifier
import SymbolicAutomata.Reading
import SymbolicAutomata.Substitution
import Std.Data.TreeSet
/-!
# Sets of numbers

A set of numbers is a function over the bits of a domain. Sets over different domains compare by
value: the narrower one is widened with absent high bits.
-/
namespace SymbolicAutomata

structure ValueSet where
  manager : Nat
  domain : Domain
  fn : Ref
  deriving DecidableEq, Repr

namespace ValueSet

def ofFn (d : Domain) (f : Ref) : BddM ValueSet := do return ⟨← Bdd.managerId, d, f⟩

def empty (d : Domain) : BddM ValueSet := ofFn d .zero

def full (d : Domain) : BddM ValueSet := ofFn d .one

def singleton (d : Domain) (v : Nat) : BddM ValueSet := do ofFn d (← Bdd.value d v)

def range (d : Domain) (lo hi : Nat) : BddM ValueSet := do ofFn d (← Bdd.range d lo hi)

def ofList (d : Domain) (vs : List Nat) : BddM ValueSet := do
  ofFn d (← Bdd.disjMap (Bdd.value d) vs)

def isEmpty (s : ValueSet) : Bool := s.fn = .zero

def compl (s : ValueSet) : ValueSet := { s with fn := -s.fn }

def bitOf (d : Domain) (value v : Nat) : Except Failure Bool := do
  return (← d.contains v) && v - d.base < 64 && value.testBit (v - d.base)

def contains (s : ValueSet) (value : Nat) (m : Manager) : Except Failure Bool :=
  if s.domain.len < 64 ∧ value >>> s.domain.len ≠ 0 then .ok false
  else m.evaluate s.fn (bitOf s.domain value)

/-- The number of values, at most the largest 64-bit word. -/
def size (s : ValueSet) (m : Manager) : Except Failure Nat := m.countWord s.fn s.domain.len

/-- The values of `f` whose bits below `bit` are those of `found`, with `rest` bits to go. -/
def collect (m : Manager) (d : Domain) :
    (rest bit : Nat) → (f : Ref) → (found : Nat) → Except Failure (List Nat)
  | 0, _, f, found => .ok (if f = .zero then [] else [found])
  | rest + 1, bit, f, found => do
    if f = .zero then return []
    let (f0, f1) ← m.cofactors f (← d.bit bit)
    let without ← collect m d rest (bit + 1) f0 found
    if 64 ≤ bit then throw .overflow
    return without ++ (← collect m d rest (bit + 1) f1 (found ||| Nat.pow 2 bit))

def toList (s : ValueSet) (m : Manager) : Except Failure (List Nat) := do
  return (Std.TreeSet.ofList (← collect m s.domain s.domain.len 0 s.fn 0)).toList

def elements (s : ValueSet) : BddM (List Nat) := Bdd.within s.manager (Bdd.ask s.toList)

def holds (s : ValueSet) (value : Nat) : BddM Bool :=
  Bdd.within s.manager (Bdd.ask (s.contains value))

def first? (s : ValueSet) (m : Manager) : Except Failure (Option Nat) := do
  return (← s.toList m).head?

def text (s : ValueSet) (m : Manager) : Except Failure String := do
  return bracedText (← s.toList m)

def describe (s : ValueSet) (m : Manager) : Except Failure String := do
  let n ← s.size m
  let values ← if n ≤ 64 then s.text m else pure ("<" ++ toString n ++ " values>")
  return "Set \x7b domain: " ++ s.domain.describe ++ ", values: \"" ++ values ++ "\" \x7d"

/-- The function without the bits of the domain from `n` on, which must be unused. -/
def truncate (s : ValueSet) (n : Nat) (target : Domain) : BddM Ref := do
  if s.domain.len ≤ n then return s.fn
  let dropped ← s.domain.high (s.domain.len - n)
  if !(← Bdd.implies s.fn (← Bdd.value dropped 0)) then
    throw (.valuesDoNotFit (← Bdd.ask s.toList) target)
  Bdd.exist s.fn dropped

/-- The function `f` with the bits of `target` from `n` on absent. -/
def pad (f : Ref) (n : Nat) (target : Domain) : BddM Ref := do
  if target.len ≤ n then return f
  Bdd.conj f (← Bdd.value (← target.high (target.len - n)) 0)

/-- The same values over another domain. New high bits are absent; dropped high bits must be
unused. -/
def withDomain (s : ValueSet) (target : Domain) : BddM ValueSet := do
  if target = s.domain then return s
  let shared := min s.domain.len target.len
  let f ← s.truncate shared target
  let names ← (← s.domain.low shared).renamingTo (← target.low shared)
  let f ← pad (← Bdd.rename f names) shared target
  return { s with domain := target, fn := f }

def moved (s : ValueSet) (target : Domain) : BddM ValueSet :=
  Bdd.within s.manager (s.withDomain target)

/-- Both functions over the wider of the two domains, which starts where the first one does. -/
def aligned (s t : ValueSet) : BddM (Domain × Ref × Ref) := do
  if s.manager ≠ t.manager then throw .setManagers
  if s.domain = t.domain then return (s.domain, s.fn, t.fn)
  let d := s.domain.withLen (max s.domain.len t.domain.len)
  let s ← s.withDomain d
  let t ← t.withDomain d
  return (d, s.fn, t.fn)

def union (s t : ValueSet) : BddM ValueSet := do
  let (d, f, g) ← s.aligned t
  return { s with domain := d, fn := ← Bdd.disj f g }

def inter (s t : ValueSet) : BddM ValueSet := do
  let (d, f, g) ← s.aligned t
  return { s with domain := d, fn := ← Bdd.conj f g }

def sdiff (s t : ValueSet) : BddM ValueSet := do
  let (d, f, g) ← s.aligned t
  return { s with domain := d, fn := ← Bdd.diff f g }

def subset (s t : ValueSet) : BddM Bool := do
  let (_, f, g) ← s.aligned t
  Bdd.implies f g

def intersects (s t : ValueSet) : BddM Bool := do return !(← s.inter t).isEmpty

def same (s t : ValueSet) : BddM Bool := do
  let (_, f, g) ← s.aligned t
  return f = g

def extend (s : ValueSet) (target : Domain) (bit : Bool) : BddM ValueSet := do
  if target.len < s.domain.len then throw (.narrowerDomain s.domain target)
  let moved ← s.withDomain (← target.low s.domain.len)
  let added ← target.high (target.len - s.domain.len)
  let high ← Bdd.fill added bit
  return { s with domain := target, fn := ← Bdd.conj moved.fn high }

end ValueSet

end SymbolicAutomata
