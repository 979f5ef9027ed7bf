import SymbolicAutomata.Reading
/-!
# What a reference stands for

A reference stands for a truth function of the variables. Its value under an assignment is the
constant in which the decisions end that the assignment makes from the root on. What the evaluator
finds is this value, and a complement mark negates it.
-/
namespace SymbolicAutomata

abbrev Assignment := Nat → Bool

namespace Manager

/-- The decisions of `s` lead from `f` to the constant `b`. -/
inductive Evaluates (m : Manager) (s : Assignment) : Ref → Bool → Prop
  | one : Evaluates m s .one true
  | zero : Evaluates m s .zero false
  | step {f : Ref} {n : Node} {b : Bool} (inner : f.isTerminal = false)
      (stored : m.nodes.value f.index = .ok n)
      (rest : Evaluates m s ((if s n.var then n.high else n.low).negIf f.negated) b) :
      Evaluates m s f b

theorem Evaluates.unique {m : Manager} {s : Assignment} {f : Ref} {b c : Bool}
    (hb : m.Evaluates s f b) (hc : m.Evaluates s f c) : b = c := by
  induction hb generalizing c with
  | one => cases hc with
    | one => rfl
    | step inner => simp [Ref.isTerminal] at inner
  | zero => cases hc with
    | zero => rfl
    | step inner => simp [Ref.isTerminal] at inner
  | step inner stored rest ih => cases hc with
    | one => simp [Ref.isTerminal] at inner
    | zero => simp [Ref.isTerminal] at inner
    | step _ stored' rest' =>
      cases stored.symm.trans stored'
      exact ih rest'

theorem Evaluates.neg {m : Manager} {s : Assignment} {f : Ref} {b : Bool}
    (h : m.Evaluates s f b) : m.Evaluates s (-f) (!b) := by
  induction h with
  | one => exact .zero
  | zero => exact .one
  | step inner stored rest ih =>
    refine .step ((Ref.isTerminal_neg _).trans inner) (by rwa [Ref.neg_index]) ?_
    rwa [Ref.neg_negated, Ref.negIf_not]

theorem evaluates_of_evaluateFrom {m : Manager} {s : Assignment} {fuel : Nat} {f : Ref} {b : Bool}
    (h : m.evaluateFrom (fun v => .ok (s v)) fuel f = .ok b) : m.Evaluates s f b := by
  induction fuel generalizing f with
  | zero => cases h
  | succ fuel ih =>
    unfold evaluateFrom at h
    by_cases ht : f.isTerminal
    · by_cases hf : f = .one
      · subst hf
        simp [Ref.isTerminal, pure, Except.pure] at h
        subst h
        exact .one
      · have hz : f = .zero := by simpa [Ref.isTerminal, hf] using ht
        subst hz
        simp [Ref.isTerminal, pure, Except.pure, Ref.zero, Ref.one] at h
        subst h
        exact .zero
    · cases hn : m.nodes.value f.index with
      | error e => simp [ht, var, hn, bind, Except.bind] at h
      | ok n =>
        refine .step (by simpa using ht) hn (ih ?_)
        cases hs : s n.var <;>
          simpa [ht, var, low, high, hn, hs, bind, Except.bind, pure, Except.pure] using h

end Manager

end SymbolicAutomata
