import SymbolicAutomata.Manager
/-!
# Workspaces

A session may have several managers, and works in one of them at a time. A reference is an index
into the store of the manager that made it. What an operation needs from a value that may live
elsewhere is therefore computed within the manager of that value.

An operation may fail half-way. The nodes that it has made by then stay in the store.
-/
namespace SymbolicAutomata

structure Workspace where
  current : Manager
  parked : List Manager

namespace Workspace

def size (w : Workspace) : Nat := w.parked.length + 1

/-- Another manager, which goes to work at once. -/
def add : Workspace → Manager → Workspace
  | ⟨current, parked⟩, m => ⟨m, current :: parked⟩

/-- The workspace with the manager of a number at work, if there is one. -/
def focus : Workspace → Nat → Workspace
  | ⟨current, parked⟩, id =>
    if current.id = id then ⟨current, parked⟩
    else match parked.find? (·.id = id) with
      | some m => ⟨m, current :: parked.eraseP (·.id = id)⟩
      | none => ⟨current, parked⟩

end Workspace

/-- Computations that may make nodes and may fail. -/
abbrev BddM := EStateM Failure Workspace

instance : MonadLift (Except Failure) BddM where
  monadLift
    | .ok a => pure a
    | .error e => throw e

namespace Bdd

variable {α : Type}

@[inline] def ask (q : Manager → Except Failure α) : BddM α := fun w =>
  match q w.current with
  | .ok a => .ok a w
  | .error e => .error e w

def managerId : BddM Nat := ask fun m => .ok m.id

def depthBound : BddM Nat := ask fun m => .ok m.depthBound

/-- Run a computation within the manager of a number, and come back. -/
def within (id : Nat) (x : BddM α) : BddM α := fun w =>
  if w.current.id = id then x w
  else
    let home := w.current.id
    match x (w.focus id) with
    | .ok a w => .ok a (w.focus home)
    | .error e w => .error e (w.focus home)

theorem within_current {x : BddM α} {w : Workspace} {id : Nat} (h : w.current.id = id) :
    within id x w = x w := if_pos h

def intern (n : Node) : BddM Ref := do
  match ← ask (·.nodes.find? n) with
  | some i => return .of i false
  | none => modifyGet fun
    | ⟨⟨id, nodes, results⟩, parked⟩ =>
      match nodes.insertNew n with
      | (i, nodes) => (.of i false, ⟨⟨id, nodes, results⟩, parked⟩)

/-- The function that is `low` where `v` is false and `high` where `v` is true, for children that
decide later variables than `v`. The complement moves from the high child to the reference. -/
def node (v : Nat) (low high : Ref) : BddM Ref := do
  if v = 0 then throw .zeroVariable
  let n := high.negated
  let low := low.negIf n
  let high := high.negIf n
  if low = high then return low.negIf n
  return (← intern ⟨v, low, high⟩).negIf n

def literal (v : Nat) : BddM Ref := node v .zero .one

def remembered (k : Operation) : BddM (Option Ref) :=
  modifyGet fun
    | ⟨⟨id, nodes, results⟩, parked⟩ =>
      match results.get k with
      | (r, results) => (r, ⟨⟨id, nodes, results⟩, parked⟩)

def remember (k : Operation) (r : Ref) : BddM Unit :=
  modify fun
    | ⟨⟨id, nodes, results⟩, parked⟩ => ⟨⟨id, nodes, results.insert k r⟩, parked⟩

end Bdd

end SymbolicAutomata
