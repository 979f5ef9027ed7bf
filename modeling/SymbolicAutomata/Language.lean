import SymbolicAutomata.Meaning
import SymbolicAutomata.SymbolicNfa
/-!
# Words and languages

A letter gives a value to every symbol bit. An edge joins two states on a letter if the edge
function holds where the source variables carry the first state, the destination variables the
second and the alphabet variables the letter. A word is accepted if some run on it leads from a
starting to an accepting state.
-/
namespace SymbolicAutomata

/-- The values of the symbol bits, the bit on the first variable of the alphabet at 0. -/
abbrev Letter := Nat → Bool

abbrev Word := List Letter

/-- The variables of the source carry `p`, those of the destination `q`, and those of the alphabet
and above it the letter. -/
def edgeAssignment (p : Nat) (x : Letter) (q : Nat) : Assignment := fun v =>
  if Layout.alphabetBase ≤ v then x (v - Layout.alphabetBase)
  else if Layout.destBase ≤ v then q.testBit (v - Layout.destBase)
  else if Layout.partitionBase ≤ v then false
  else p.testBit (v - Layout.sourceBase)

def SymbolSet.Has (s : SymbolSet) (m : Manager) (x : Letter) : Prop :=
  m.Evaluates (fun v => decide (Layout.alphabetBase ≤ v) && x (v - Layout.alphabetBase)) s.fn true

namespace SymbolicNfa

def HasEdge (a : SymbolicNfa) (m : Manager) (p : Nat) (x : Letter) (q : Nat) : Prop :=
  p < a.stateCount ∧ q < a.stateCount ∧ m.Evaluates (edgeAssignment p x q) a.edges.fn true

inductive Run (a : SymbolicNfa) (m : Manager) : Nat → Word → Nat → Prop
  | nil (q : Nat) : Run a m q [] q
  | cons {p q r : Nat} {x : Letter} {w : Word} (first : a.HasEdge m p x q)
      (rest : Run a m q w r) : Run a m p (x :: w) r

def Accepts (a : SymbolicNfa) (m : Manager) (w : Word) : Prop :=
  ∃ p q, a.starting.contains p m = .ok true ∧ a.Run m p w q ∧ a.accepting.contains q m = .ok true

theorem run_nil_iff {a : SymbolicNfa} {m : Manager} {p q : Nat} : a.Run m p [] q ↔ p = q :=
  ⟨fun h => by cases h; rfl, fun h => h ▸ .nil p⟩

theorem run_cons_iff {a : SymbolicNfa} {m : Manager} {p r : Nat} {x : Letter} {w : Word} :
    a.Run m p (x :: w) r ↔ ∃ q, a.HasEdge m p x q ∧ a.Run m q w r := by
  constructor
  · intro h
    cases h with
    | cons first rest => exact ⟨_, first, rest⟩
  · rintro ⟨q, first, rest⟩
    exact .cons first rest

end SymbolicNfa

end SymbolicAutomata
