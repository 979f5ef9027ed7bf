import SymbolicAutomata.Conditional
import SymbolicAutomata.Sorting
/-!
# Literals, values and ranges

A literal is a signed variable, negative where the variable is to be false. Literals are signed
32-bit words: a variable from `2 ^ 31` on becomes a negative literal. Values are 64-bit words.
-/
namespace SymbolicAutomata

def signedWord (v : Nat) : Int := if v < Nat.pow 2 31 then v else (v : Int) - Nat.pow 2 32

def leastWord : Int := -2147483648

/-- The negative of a signed word; the least one has none. -/
def negateWord (l : Int) : Except Failure Int :=
  if l = leastWord then .error .overflow else .ok (-l)

/-- Bit `i` of a 64-bit word; there is no bit 64. -/
def wordBit (w i : Nat) : Except Failure Bool :=
  if i < 64 then .ok (w.testBit i) else .error .overflow

def wordMask (i : Nat) : Except Failure Nat :=
  if i < 64 then .ok (Nat.pow 2 i - 1) else .error .overflow

namespace Bdd

/-- The node that fixes one literal above a function of later variables. -/
def guardLiteral (f : Ref) (l : Int) : BddM Ref :=
  if l < 0 then node l.natAbs f .zero else node l.natAbs .zero f

/-- The conjunction of literals, made from the last variable up. The least word has no absolute
value. -/
def cube (literals : List Int) : BddM Ref := do
  if literals.contains leastWord then throw .overflow
  (sortByKey Int.natAbs literals).reverse.foldlM guardLiteral .one

def valueLiterals (value : Nat) (vars : List Nat) : Except Failure (List Int) :=
  vars.zipIdx.mapM fun (v, i) => do
    if ← wordBit value i then return signedWord v else negateWord (signedWord v)

def value (d : Domain) (value : Nat) : BddM Ref := do
  if d.len < 64 ∧ value >>> d.len ≠ 0 then throw (.valueTooLarge value d)
  cube (← valueLiterals value (← d.vars))

def fillLiterals (bit : Bool) (vars : List Nat) : Except Failure (List Int) :=
  vars.mapM fun v => if bit then .ok (signedWord v) else negateWord (signedWord v)

def fill (d : Domain) (bit : Bool) : BddM Ref := do
  cube (← fillLiterals bit (← d.vars))

def atMost (d : Domain) : (bits bound : Nat) → BddM Ref
  | 0, _ => pure .one
  | i + 1, bound => do
    let v ← d.bit i
    if i + 1 < 64 ∧ bound >>> (i + 1) ≠ 0 then return .one
    let rest ← atMost d i (bound &&& (← wordMask i))
    let x ← literal v
    if bound.testBit i then ite x rest .one else ite x .zero rest

def atLeast (d : Domain) : (bits bound : Nat) → BddM Ref
  | 0, bound => pure (if bound = 0 then .one else .zero)
  | i + 1, bound => do
    let v ← d.bit i
    if i + 1 < 64 ∧ bound >>> (i + 1) ≠ 0 then return .zero
    let rest ← atLeast d i (bound &&& (← wordMask i))
    let x ← literal v
    if bound.testBit i then ite x rest .zero else ite x .one rest

def range (d : Domain) (lo hi : Nat) : BddM Ref := do
  if hi < lo then return .zero
  let below ← atMost d d.len hi
  let above ← atLeast d d.len lo
  conj below above

end Bdd

end SymbolicAutomata
