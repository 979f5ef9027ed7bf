import SymbolicAutomata.SubAutomaton
import SymbolicAutomata.SubsetConstruction
/-!
# Boolean combinations of languages

The product reads a word in both automata at once and combines their answers.
-/
namespace SymbolicAutomata

abbrev Connective := Bool → Bool → Bool

namespace Connective

def answers : List (Bool × Bool) := [(false, false), (false, true), (true, false), (true, true)]

/-- Whether raising an answer never lowers the combined one. -/
def monotone (f : Connective) : Bool :=
  answers.all fun (x, y) => !f x y || (f x true && f true y && f true true)

theorem monotone_iff {f : Connective} :
    f.monotone = true ↔
      ∀ x y x' y' : Bool, (x → x') → (y → y') → f x y = true → f x' y' = true := by
  constructor
  · intro h x y x' y' hx hy hf
    cases x <;> cases y <;> cases x' <;> cases y' <;> simp_all [monotone, answers]
  · intro h
    simp only [monotone, answers, List.all_cons, List.all_nil, Bool.and_true, Bool.and_eq_true,
      Bool.or_eq_true, Bool.not_eq_true']
    have step (x y : Bool) :
        f x y = false ∨ (f x true = true ∧ f true y = true) ∧ f true true = true := by
      cases hf : f x y
      · exact .inl rfl
      · exact .inr ⟨⟨h x y x true id (fun _ => rfl) hf, h x y true y (fun _ => rfl) id hf⟩,
          h x y true true (fun _ => rfl) (fun _ => rfl) hf⟩
    exact ⟨step _ _, step _ _, step _ _, step _ _⟩

/-- The connective whose value for `x` and `y` is bit `2 x + y` of a number. -/
def ofTable (t : Nat) : Connective := fun x y => t.testBit (2 * x.toNat + y.toNat)

end Connective

namespace SymbolicNfa

/-- A rejecting state added that also starts and is reached from every state on every symbol, so
every word has a run. -/
def withSink (a : SymbolicNfa) : BddM SymbolicNfa := do
  let (q, b) ← a.addState false true
  let sink ← b.stateSet [q]
  b.addEdgeSets b.states (.universal b.manager) sink

/-- One rejecting state in place of none. -/
def totalize (a : SymbolicNfa) : BddM SymbolicNfa := do
  if 0 < a.stateCount then return a
  let (q, b) ← (← empty).addState false true
  return { ← b.addEdge q (.universal b.manager) q with determinism := .complete }

/-- The pairs of state sets, or their complements, for which a connective holds. -/
def acceptingPairs (f : Connective) (accepting1 accepting2 : Ref) : BddM Ref :=
  Bdd.disjMap (fun (x, y) => Bdd.conj (accepting1.negIf !x) (accepting2.negIf !y))
    (Connective.answers.filter fun (x, y) => f x y)

/-- The synchronous product. State `q1 + q2 * 2 ^ k1` is the pair of `q1` and `q2`, where `k1` is
the width of the first automaton. -/
def pairs (a b : SymbolicNfa) (f : Connective) : BddM SymbolicNfa := do
  let k1 := a.width
  let k2 := b.width
  if Layout.maxStateBits < k1 + k2 then throw (.productBits (k1 + k2))
  let n := b.stateCount * Nat.pow 2 k1
  if Nat.pow 2 32 ≤ n then throw (.productStates n)
  let low ← Layout.states k1
  let high ← Domain.new (← low.stop) k2
  let destHigh ← Domain.new (← (← Layout.dests k1).stop) k2
  let starting2 ← b.starting.withDomain high
  let accepting2 ← b.accepting.withDomain high
  let edges2 ← b.edges.withDomains [high, ← b.edges.domain 1, destHigh]
  let c ← ofCount n
  let d ← c.stateDomain
  let starting ← ValueSet.ofFn d (← Bdd.conj a.starting.fn starting2.fn)
  let accepting ← ValueSet.ofFn d (← acceptingPairs f a.accepting.fn accepting2.fn)
  let edges ← Bdd.conj a.edges.fn edges2.fn
  let edges ← Relation.ofFn (← Layout.transitions (k1 + k2)) edges
  ({ c with starting := starting, accepting := accepting, edges := edges } :
    SymbolicNfa).filterLive

/-- The words on which `f` holds of the two answers. A monotone `f` needs a run on each side, which
a sink provides; any other needs the only run, which determinization provides. -/
def combine (a b : SymbolicNfa) (f : Connective) : BddM SymbolicNfa := do
  if a.manager ≠ b.manager then throw .automatonManagers
  if f.monotone then
    let a ← a.withSink
    let b ← b.withSink
    a.pairs b f
  else
    let a ← (← a.determinize).totalize
    let b ← (← b.determinize).totalize
    a.pairs b f

def inter (a b : SymbolicNfa) : BddM SymbolicNfa := a.combine b fun x y => x && y

def union (a b : SymbolicNfa) : BddM SymbolicNfa := a.combine b fun x y => x || y

def sdiff (a b : SymbolicNfa) : BddM SymbolicNfa := a.combine b fun x y => x && !y

def iff (a b : SymbolicNfa) : BddM SymbolicNfa := a.combine b fun x y => x == y

def implies (a b : SymbolicNfa) : BddM SymbolicNfa := a.combine b fun x y => !x || y

end SymbolicNfa

end SymbolicAutomata
