/-!
# References to decision-diagram nodes

A reference names a stored node and says whether the function it stands for is complemented. Both
are packed into one number, whose lowest bit is the complement mark.
-/
namespace SymbolicAutomata

/-- A reference is kept in a 32-bit word. Here its number has no bound: that is the same below
`2 ^ 31` nodes, where `pack` gives back every reference to a node. -/
structure Ref where
  raw : Nat
  deriving DecidableEq, Repr

namespace Ref

def of (index : Nat) (negated : Bool) : Ref := ⟨2 * index + negated.toNat⟩

def index (f : Ref) : Nat := f.raw / 2

def negated (f : Ref) : Bool := f.raw % 2 = 1

/-- The constant functions share the terminal node, which has index 1. -/
def one : Ref := of 1 false
def zero : Ref := of 1 true

/-- The largest 32-bit reference; it stands for a child that does not exist. -/
def invalid : Ref := of (Nat.pow 2 31 - 1) true

instance : Inhabited Ref := ⟨invalid⟩

/-- The reference packed from an index of which only the lowest 31 bits are kept. -/
def pack (index : Nat) (negated : Bool) : Ref := of (index % Nat.pow 2 31) negated

def neg (f : Ref) : Ref := if f.negated then ⟨f.raw - 1⟩ else ⟨f.raw + 1⟩

instance : Neg Ref := ⟨neg⟩

def negIf (f : Ref) (flip : Bool) : Ref := if flip then -f else f

def regular (f : Ref) : Ref := of f.index false

/-- References are ordered by their packed forms. -/
instance : Ord Ref := ⟨compareOn raw⟩

instance : Std.TransOrd Ref := inferInstanceAs (Std.TransCmp (compareOn raw))

instance : Std.LawfulEqOrd Ref where
  eq_of_compare {f g} h := by
    have : f.raw = g.raw := Std.LawfulEqOrd.eq_of_compare h
    cases f
    cases g
    simp_all

def isTerminal (f : Ref) : Bool := f = one || f = zero

def text (f : Ref) : String :=
  (if f.negated then "~" else "") ++ "@" ++ toString f.index

theorem of_index (i : Nat) (b : Bool) : (of i b).index = i := by
  cases b
  · simp [of, index]
  · simp [of, index]
    omega

theorem of_negated (i : Nat) (b : Bool) : (of i b).negated = b := by
  cases b <;> simp [of, negated]

theorem of_inj {i j : Nat} {b c : Bool} : of i b = of j c ↔ i = j ∧ b = c := by
  constructor
  · intro h
    exact ⟨by rw [← of_index i b, h, of_index], by rw [← of_negated i b, h, of_negated]⟩
  · rintro ⟨rfl, rfl⟩
    rfl

theorem of_index_negated (f : Ref) : of f.index f.negated = f := by
  rcases f with ⟨n⟩
  simp only [of, index, negated, Ref.mk.injEq]
  by_cases h : n % 2 = 1
  · simp only [h, decide_true, Bool.toNat_true]
    omega
  · simp only [h, decide_false, Bool.toNat_false]
    omega

theorem exists_of (f : Ref) : ∃ i b, f = of i b := ⟨f.index, f.negated, f.of_index_negated.symm⟩

theorem neg_of (i : Nat) (b : Bool) : -of i b = of i !b := by
  change neg (of i b) = of i !b
  rw [neg, of_negated]
  cases b <;> simp [of]

theorem neg_index (f : Ref) : (-f).index = f.index := by
  obtain ⟨i, b, rfl⟩ := f.exists_of
  rw [neg_of, of_index, of_index]

theorem neg_negated (f : Ref) : (-f).negated = !f.negated := by
  obtain ⟨i, b, rfl⟩ := f.exists_of
  rw [neg_of, of_negated, of_negated]

theorem neg_neg (f : Ref) : - -f = f := by
  obtain ⟨i, b, rfl⟩ := f.exists_of
  rw [neg_of, neg_of, Bool.not_not]

theorem neg_eq_iff {f g : Ref} : -f = g ↔ f = -g :=
  ⟨fun h => by rw [← h, neg_neg], fun h => by rw [h, neg_neg]⟩

theorem neg_one : -one = zero := rfl

theorem neg_zero : -zero = one := rfl

theorem negIf_not (f : Ref) (flip : Bool) : f.negIf (!flip) = -f.negIf flip := by
  cases flip <;> simp [negIf, neg_neg]

theorem isTerminal_neg (f : Ref) : (-f).isTerminal = f.isTerminal := by
  simp only [isTerminal, neg_eq_iff, neg_one, neg_zero, Bool.or_comm]

end Ref

end SymbolicAutomata
