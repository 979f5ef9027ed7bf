import SymbolicAutomata.Workspace
/-!
# The conditional and the connectives

All connectives are cases of "if `f` then `g` else `h`". A triple is first brought to a standard
form, so that equal functions written differently meet in the cache. The standard form is reached in
three steps: operands equal to the condition become constants, symmetric triples are led by the
operand whose root comes first, and complements leave the first two operands.
-/
namespace SymbolicAutomata

/-- The function "if `f` then `g` else `h`". -/
structure Triple where
  f : Ref
  g : Ref
  h : Ref
  deriving DecidableEq, Repr

namespace Triple

/-- The value of a triple that is a constant or one of its own operands up to complement. -/
def value? : Triple → Option Ref
  | ⟨f, g, h⟩ =>
    if f = .one then some g
    else if f = .zero then some h
    else if g = h then some g
    else if g = .one ∧ h = .zero then some f
    else if g = .zero ∧ h = .one then some (-f)
    else if g = .one ∧ h = -f then some .one
    else if g = f ∧ h = .one then some .one
    else if g = -f ∧ h = .zero then some .zero
    else if g = .zero ∧ h = f then some .zero
    else none

/-- An operand equal to the condition or to its complement is constant where it is chosen. -/
def absorb : Triple → Triple
  | ⟨f, g, h⟩ =>
    if g = f then ⟨f, .one, h⟩
    else if h = f then ⟨f, g, .zero⟩
    else if g = -f then ⟨f, .zero, h⟩
    else if h = -f then ⟨f, g, .one⟩
    else ⟨f, g, h⟩

/-- A symmetric triple is led by the operand whose root variable comes first. The variables are
those at the roots of `f`, `g` and `h`. -/
def lead (i j k : Nat) : Triple → Triple
  | ⟨f, g, h⟩ =>
    if g = .one ∧ k < i then ⟨h, .one, f⟩
    else if h = .zero ∧ j < i then ⟨g, f, .zero⟩
    else if h = .one ∧ j < i then ⟨-g, -f, .one⟩
    else if g = .zero ∧ k < i then ⟨-h, .zero, -f⟩
    else if g = -h ∧ j < i then ⟨g, f, -f⟩
    else ⟨f, g, h⟩

/-- The condition uncomplemented, by exchanging the operands. -/
def regularCondition : Triple → Triple
  | ⟨f, g, h⟩ => if f.negated then ⟨-f, h, g⟩ else ⟨f, g, h⟩

/-- The second operand uncomplemented, and whether the result is to be complemented for it. -/
def regularBranch : Triple → Triple × Bool
  | ⟨f, g, h⟩ => if g.negated then (⟨f, -g, -h⟩, true) else (⟨f, g, h⟩, false)

def operation (t : Triple) : Operation := .ite t.f t.g t.h

end Triple

namespace Manager

/-- The standard form of a triple without constant value, up to complements. -/
def lead (m : Manager) (t : Triple) : Except Failure Triple := do
  let i ← m.var t.f
  let j ← m.var t.g
  let k ← m.var t.h
  if i = 0 then throw .undecidedCondition
  let s := t.lead i j k
  if (← m.var s.f) = 0 then throw .undecidedCondition
  return s

def topVar (m : Manager) (t : Triple) : Except Failure Nat := do
  let i ← m.var t.f
  let j ← m.var t.g
  let k ← m.var t.h
  let top := if j = 0 then i else min i j
  return if k = 0 then top else min top k

def splitTriple (m : Manager) (t : Triple) (v : Nat) : Except Failure (Triple × Triple) := do
  let (f0, f1) ← m.cofactors t.f v
  let (g0, g1) ← m.cofactors t.g v
  let (h0, h1) ← m.cofactors t.h v
  return (⟨f0, g0, h0⟩, ⟨f1, g1, h1⟩)

end Manager

namespace Bdd

def iteFrom : Nat → Triple → BddM Ref
  | 0, _ => throw .cyclicNodes
  | fuel + 1, t =>
    match t.value? with
    | some r => pure r
    | none =>
      let t := t.absorb
      match t.value? with
      | some r => pure r
      | none => do
        let t ← ask (·.lead t)
        let (t, n) := t.regularCondition.regularBranch
        match ← remembered t.operation with
        | some r => return r.negIf n
        | none =>
          let v ← ask (·.topVar t)
          let (t0, t1) ← ask (·.splitTriple t v)
          let low ← iteFrom fuel t0
          let high ← iteFrom fuel t1
          let r ← node v low high
          remember t.operation r
          return r.negIf n

/-- If `f` then `g` else `h`. Each step descends in one of the three operands. -/
def ite (f g h : Ref) : BddM Ref := do iteFrom (3 * (← depthBound)) ⟨f, g, h⟩

def conj (f g : Ref) : BddM Ref := ite f g .zero

def disj (f g : Ref) : BddM Ref := ite f .one g

def exor (f g : Ref) : BddM Ref := ite f (-g) g

def equiv (f g : Ref) : BddM Ref := ite f g (-g)

def imply (f g : Ref) : BddM Ref := ite f g .one

def diff (f g : Ref) : BddM Ref := ite g .zero f

def implies (f g : Ref) : BddM Bool := do return (← diff f g) = .zero

def conjMap {α : Type} (make : α → BddM Ref) (xs : List α) : BddM Ref :=
  xs.foldlM (fun acc x => do conj acc (← make x)) .one

def disjMap {α : Type} (make : α → BddM Ref) (xs : List α) : BddM Ref :=
  xs.foldlM (fun acc x => do disj acc (← make x)) .zero

def conjAll (fs : List Ref) : BddM Ref := fs.foldlM conj .one

def disjAll (fs : List Ref) : BddM Ref := fs.foldlM disj .zero

end Bdd

end SymbolicAutomata
