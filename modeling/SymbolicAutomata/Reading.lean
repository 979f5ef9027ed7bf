import SymbolicAutomata.Manager
import Std.Data.TreeMap
import Std.Data.TreeSet
/-!
# Reading a function

Evaluation, support, size, number of satisfying assignments and written form of a function. None of
these makes a node.
-/
namespace SymbolicAutomata.Manager

def evaluateFrom (m : Manager) (value : Nat → Except Failure Bool) : Nat → Ref → Except Failure Bool
  | 0, _ => .error .cyclicNodes
  | fuel + 1, f => do
    if f.isTerminal then return f = .one
    if ← value (← m.var f) then m.evaluateFrom value fuel (← m.high f)
    else m.evaluateFrom value fuel (← m.low f)

/-- The value of `f` where each variable has the given value. Only the variables on the way from the
root are asked for. -/
def evaluate (m : Manager) (f : Ref) (value : Nat → Except Failure Bool) : Except Failure Bool :=
  m.evaluateFrom value m.depthBound f

def descendantsFrom (m : Manager) :
    Nat → Ref → Std.TreeSet Nat → Except Failure (Std.TreeSet Nat)
  | 0, _, _ => .error .cyclicNodes
  | fuel + 1, f, seen =>
    if seen.contains f.index then .ok seen
    else do
      let low ← m.low f
      let high ← m.high f
      m.descendantsFrom fuel high (← m.descendantsFrom fuel low (seen.insert f.index))

/-- The indices of all nodes of the given functions, the terminal included, in ascending order. -/
def descendants (m : Manager) (fs : List Ref) : Except Failure (List Nat) := do
  let seen ← fs.foldlM (fun seen f => m.descendantsFrom m.depthBound f seen)
    (Std.TreeSet.ofList [Ref.one.index])
  return seen.toList

def nodesOf (m : Manager) (f : Ref) : Except Failure Nat := do return (← m.descendants [f]).length

def support (m : Manager) (f : Ref) : Except Failure (List Nat) := do
  let vars ← (← m.descendants [f]).mapM fun i => m.var (.of i false)
  return (Std.TreeSet.ofList (vars.filter (· ≠ 0))).toList

def countFrom (m : Manager) (all : Nat) :
    Nat → Ref → Std.TreeMap Ref Nat → Except Failure (Nat × Std.TreeMap Ref Nat)
  | 0, _, _ => .error .cyclicNodes
  | fuel + 1, f, memo => do
    if f = .zero then return (0, memo)
    if f = .one then return (all, memo)
    if let some n := memo[f]? then return (n, memo)
    let g := f.regular
    let (low, memo) ← m.countFrom all fuel (← m.low g) memo
    let (high, memo) ← m.countFrom all fuel (← m.high g) memo
    let n := (low + high) / 2
    let n := if f.negated then all - n else n
    return (n, memo.insert f n)

/-- The number of assignments to `n` variables that satisfy `f`, if these cover its support. Each
child is counted with the variable of its parent free, hence the halving. -/
def count (m : Manager) (f : Ref) (n : Nat) : Except Failure Nat := do
  return (← m.countFrom (Nat.pow 2 n) m.depthBound f ∅).1

def countWord (m : Manager) (f : Ref) (n : Nat) : Except Failure Nat := do
  return min (← m.count f n) (Nat.pow 2 64 - 1)

def bracketFrom (m : Manager) : Nat → Ref → Except Failure String
  | 0, _ => .error .cyclicNodes
  | fuel + 1, f => do
    if f = .zero then return "(0)"
    if f = .one then return "(1)"
    let v ← m.var f
    let low ← m.low f
    let high ← m.high f
    let high ← m.bracketFrom fuel high
    let low ← m.bracketFrom fuel low
    return f.text ++ ":(x" ++ toString v ++ ", " ++ high ++ ", " ++ low ++ ")"

def bracket (m : Manager) (f : Ref) : Except Failure String := m.bracketFrom m.depthBound f

end SymbolicAutomata.Manager
