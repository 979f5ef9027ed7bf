import SymbolicAutomata.Meaning
import SymbolicAutomata.Proofs.HashConsing
import Mathlib.Logic.Function.Basic
/-!
# Diagrams are canonical

A manager is canonical if its nodes decide their variables in ascending order, no two children of a
node are equal, complements stand on low edges only, and no node is stored twice. Two references of
a canonical manager are then equal exactly when they have the same value under every assignment.
-/
namespace SymbolicAutomata

def Node.side (n : Node) (b : Bool) : Ref := if b then n.high else n.low

namespace Manager

variable {m m' : Manager} {f g : Ref} {n : Node} {i : Nat} {s t : Assignment}

/-- Cell `i` holds the node `n`. The terminal in cell 1 is no node. -/
def Stores (m : Manager) (i : Nat) (n : Node) : Prop :=
  2 ≤ i ∧ i ≤ m.nodeCount ∧ m.nodes.values[i]? = some n

def Has (m : Manager) (f : Ref) : Prop := 0 < f.index ∧ f.index ≤ m.nodeCount

/-- The root of `f` decides no variable up to `v`. -/
def Above (m : Manager) (v : Nat) (f : Ref) : Prop := ∀ n, m.Stores f.index n → v < n.var

/-- A node decides before its children, which differ and are stored before it. -/
structure Orderly (m : Manager) (i : Nat) (n : Node) : Prop where
  var_pos : 0 < n.var
  low : m.Has n.low
  high : m.Has n.high
  low_lt : n.low.index < i
  high_lt : n.high.index < i
  low_above : m.Above n.var n.low
  high_above : m.Above n.var n.high
  differ : n.low ≠ n.high
  regular : n.high.negated = false

structure Canonical (m : Manager) : Prop where
  chained : m.nodes.Sound (2 ≤ ·)
  terminal : 0 < m.nodeCount ∧ m.nodes.values[1]? = some default
  orderly : ∀ i n, m.Stores i n → m.Orderly i n
  shared : ∀ i j n, m.Stores i n → m.Stores j n → i = j

/-- The value of `f` under an assignment, as the evaluator finds it. -/
def eval (m : Manager) (f : Ref) (s : Assignment) : Bool :=
  match m.evaluate f fun v => .ok (s v) with
  | .ok b => b
  | .error _ => false

theorem isTerminal_iff : f.isTerminal = true ↔ f.index = 1 := by
  obtain ⟨i, b, rfl⟩ := f.exists_of
  simp only [Ref.isTerminal, Ref.one, Ref.zero, Bool.or_eq_true, decide_eq_true_eq, Ref.of_inj,
    Ref.of_index]
  cases b <;> simp

theorem eq_one_or_zero (h : f.index = 1) : f = .one ∨ f = .zero := by
  simpa [Ref.isTerminal] using isTerminal_iff.2 h

theorem negIf_index (f : Ref) (b : Bool) : (f.negIf b).index = f.index := by
  cases b
  · rfl
  · exact f.neg_index

theorem negIf_negIf (f : Ref) (b : Bool) : (f.negIf b).negIf b = f := by
  cases b
  · rfl
  · exact f.neg_neg

theorem negIf_negated (f : Ref) (b : Bool) : (f.negIf b).negated = (b ^^ f.negated) := by
  cases b
  · simp [Ref.negIf]
  · simp [Ref.negIf, Ref.neg_negated]

theorem regular_negIf (f : Ref) : f.regular.negIf f.negated = f := by
  obtain ⟨i, b, rfl⟩ := f.exists_of
  rw [Ref.regular, Ref.of_index, Ref.of_negated]
  cases b
  · rfl
  · exact Ref.neg_of i false

theorem has_neg : m.Has (-f) ↔ m.Has f := by rw [Has, Has, Ref.neg_index]

theorem has_negIf {b : Bool} : m.Has (f.negIf b) ↔ m.Has f := by rw [Has, Has, negIf_index]

theorem above_negIf {v : Nat} {b : Bool} : m.Above v (f.negIf b) ↔ m.Above v f := by
  rw [Above, Above, negIf_index]

theorem above_one {v : Nat} : m.Above v .one := fun _ hn => absurd hn.1 (by decide)

theorem above_zero {v : Nat} : m.Above v .zero := fun _ hn => absurd hn.1 (by decide)

/-- A descent from `f` is never cut off. -/
theorem Has.lt_depthBound (hf : m.Has f) : f.index < m.depthBound := by
  have hle := hf.2
  have hpos : 0 < Nat.pow 2 31 := Nat.two_pow_pos 31
  unfold depthBound
  omega

theorem Stores.unique {n' : Node} (h : m.Stores i n) (h' : m.Stores i n') : n = n' :=
  Option.some.inj (h.2.2.symm.trans h'.2.2)

theorem Stores.value (h : m.Stores i n) : m.nodes.value i = .ok n :=
  Table.read_eq (by have := h.1; omega) h.2.2

theorem Stores.isTerminal (h : m.Stores f.index n) : f.isTerminal = false := by
  rw [Bool.eq_false_iff, Ne, isTerminal_iff]
  have := h.1
  omega

theorem Stores.has (h : m.Stores f.index n) : m.Has f :=
  ⟨by have := h.1; omega, h.2.1⟩

theorem Stores.var (h : m.Stores f.index n) : m.var f = .ok n.var := by
  simp [Manager.var, h.value, bind, Except.bind, pure, Except.pure]

theorem Stores.low (h : m.Stores f.index n) : m.low f = .ok (n.low.negIf f.negated) := by
  simp [Manager.low, h.value, bind, Except.bind, pure, Except.pure]

theorem Stores.high (h : m.Stores f.index n) : m.high f = .ok (n.high.negIf f.negated) := by
  simp [Manager.high, h.value, bind, Except.bind, pure, Except.pure]

namespace Canonical

theorem has_one (h : m.Canonical) : m.Has .one := ⟨by decide, h.terminal.1⟩

theorem has_zero (h : m.Canonical) : m.Has .zero := ⟨by decide, h.terminal.1⟩

theorem var_terminal (h : m.Canonical) (hf : f.index = 1) : m.var f = .ok 0 := by
  have hv : m.nodes.value f.index = .ok default := by
    rw [hf]
    exact Table.read_eq (by omega) h.terminal.2
  simp [Manager.var, hv, bind, Except.bind, pure, Except.pure]
  rfl

theorem cases (h : m.Canonical) (hf : m.Has f) : f.index = 1 ∨ ∃ n, m.Stores f.index n := by
  have hroom := h.chained.room
  have hpos := hf.1
  have hle : f.index ≤ m.nodes.last := hf.2
  rcases eq_or_ne f.index 1 with h1 | h1
  · exact .inl h1
  · exact .inr ⟨_, by omega, hf.2, Array.getElem?_eq_getElem (by omega)⟩

/-- Evaluation ends, since children are stored before their parents. -/
theorem evaluateFrom_ok (h : m.Canonical) (hf : m.Has f) (s : Assignment) {fuel : Nat}
    (hfuel : f.index < fuel) : ∃ b, m.evaluateFrom (fun v => .ok (s v)) fuel f = .ok b := by
  induction fuel generalizing f with
  | zero => omega
  | succ fuel ih =>
    rcases h.cases hf with h1 | ⟨n, hn⟩
    · exact ⟨_, by simp only [evaluateFrom, isTerminal_iff.2 h1, ↓reduceIte]; rfl⟩
    · have ho := h.orderly _ n hn
      have hlow : m.Has (n.low.negIf f.negated) := has_negIf.2 ho.low
      have hhigh : m.Has (n.high.negIf f.negated) := has_negIf.2 ho.high
      have hl := ho.low_lt
      have hh := ho.high_lt
      cases hs : s n.var
      · obtain ⟨b, hb⟩ := ih hlow (by rw [negIf_index]; omega)
        refine ⟨b, ?_⟩
        simpa [evaluateFrom, hn.isTerminal, hn.var, hn.low, hs, bind, Except.bind] using hb
      · obtain ⟨b, hb⟩ := ih hhigh (by rw [negIf_index]; omega)
        refine ⟨b, ?_⟩
        simpa [evaluateFrom, hn.isTerminal, hn.var, hn.high, hs, bind, Except.bind] using hb

theorem evaluate_eq (h : m.Canonical) (hf : m.Has f) (s : Assignment) :
    m.evaluate f (fun v => .ok (s v)) = .ok (m.eval f s) := by
  obtain ⟨b, hb⟩ := h.evaluateFrom_ok hf s hf.lt_depthBound
  have hb' : m.evaluate f (fun v => .ok (s v)) = .ok b := hb
  rw [eval, hb']

theorem evaluate_eq_true_iff (h : m.Canonical) (hf : m.Has f) :
    m.evaluate f (fun v => .ok (s v)) = .ok true ↔ m.eval f s = true := by
  rw [h.evaluate_eq hf, Except.ok.injEq]

theorem eval_eq_iff (h : m.Canonical) (hf : m.Has f) {b : Bool} :
    m.eval f s = b ↔ m.Evaluates s f b := by
  have he : m.Evaluates s f (m.eval f s) := evaluates_of_evaluateFrom (h.evaluate_eq hf s)
  exact ⟨fun hb => hb ▸ he, fun hb => he.unique hb⟩

@[simp]
theorem eval_one (h : m.Canonical) : m.eval .one s = true := (h.eval_eq_iff h.has_one).2 .one

@[simp]
theorem eval_zero (h : m.Canonical) : m.eval .zero s = false := (h.eval_eq_iff h.has_zero).2 .zero

theorem eval_neg (h : m.Canonical) (hf : m.Has f) : m.eval (-f) s = !m.eval f s :=
  (h.eval_eq_iff (has_neg.2 hf)).2 ((h.eval_eq_iff hf).1 rfl).neg

theorem eval_negIf (h : m.Canonical) (hf : m.Has f) (b : Bool) :
    m.eval (f.negIf b) s = (b ^^ m.eval f s) := by
  cases b
  · simp [Ref.negIf]
  · simp [Ref.negIf, h.eval_neg hf]

theorem eval_node (h : m.Canonical) (hn : m.Stores f.index n) :
    m.eval f s = (f.negated ^^ if s n.var then m.eval n.high s else m.eval n.low s) := by
  have ho := h.orderly _ n hn
  rw [h.eval_eq_iff hn.has]
  refine .step hn.isTerminal hn.value ?_
  cases hs : s n.var
  · simp only [Bool.false_eq_true, ↓reduceIte, ← h.eval_negIf ho.low]
    exact (h.eval_eq_iff (has_negIf.2 ho.low)).1 rfl
  · simp only [↓reduceIte, ← h.eval_negIf ho.high]
    exact (h.eval_eq_iff (has_negIf.2 ho.high)).1 rfl

/-- High edges are regular, so the complement mark of a reference is the value under the assignment
that makes every variable true. -/
theorem eval_all_true (h : m.Canonical) (hf : m.Has f) :
    m.eval f (fun _ => true) = !f.negated := by
  induction hi : f.index using Nat.strongRecOn generalizing f with
  | _ i ih =>
    subst hi
    rcases h.cases hf with h1 | ⟨n, hn⟩
    · rcases eq_one_or_zero h1 with rfl | rfl
      · rw [h.eval_one]
        rfl
      · rw [h.eval_zero]
        rfl
    · have ho := h.orderly _ n hn
      have hhigh := ih _ ho.high_lt ho.high rfl
      rw [h.eval_node hn, if_pos rfl, hhigh, ho.regular]
      simp

/-- The value does not depend on variables that come before the root. -/
theorem eval_congr (h : m.Canonical) (hf : m.Has f) {v : Nat} (hv : m.Above v f)
    (hst : ∀ w, v < w → s w = t w) : m.eval f s = m.eval f t := by
  induction hi : f.index using Nat.strongRecOn generalizing f v with
  | _ i ih =>
    subst hi
    rcases h.cases hf with h1 | ⟨n, hn⟩
    · rcases eq_one_or_zero h1 with rfl | rfl
      · simp [h]
      · simp [h]
    · have ho := h.orderly _ n hn
      have hvn := hv n hn
      have hlow := ih _ ho.low_lt ho.low ho.low_above (fun w hw => hst w (by omega)) rfl
      have hhigh := ih _ ho.high_lt ho.high ho.high_above (fun w hw => hst w (by omega)) rfl
      rw [h.eval_node hn, h.eval_node hn, hst _ hvn, hlow, hhigh]

theorem has_side (h : m.Canonical) (hn : m.Stores i n) (b : Bool) : m.Has (n.side b) := by
  have ho := h.orderly i n hn
  cases b
  · exact ho.low
  · exact ho.high

theorem side_index_lt (h : m.Canonical) (hn : m.Stores i n) (b : Bool) :
    (n.side b).index < i := by
  have ho := h.orderly i n hn
  cases b
  · exact ho.low_lt
  · exact ho.high_lt

theorem above_side (h : m.Canonical) (hn : m.Stores i n) (b : Bool) :
    m.Above n.var (n.side b) := by
  have ho := h.orderly i n hn
  cases b
  · exact ho.low_above
  · exact ho.high_above

theorem side_spec (h : m.Canonical) (hn : m.Stores f.index n) (b : Bool) :
    m.Has ((n.side b).negIf f.negated) ∧ ((n.side b).negIf f.negated).index < f.index ∧
      m.Above n.var ((n.side b).negIf f.negated) := by
  rw [has_negIf, negIf_index, above_negIf]
  exact ⟨h.has_side hn b, h.side_index_lt hn b, h.above_side hn b⟩

theorem eval_side (h : m.Canonical) (hn : m.Stores f.index n) :
    m.eval f s = m.eval ((n.side (s n.var)).negIf f.negated) s := by
  have ho := h.orderly _ n hn
  rw [h.eval_node hn]
  cases s n.var
  · exact (h.eval_negIf ho.low _).symm
  · exact (h.eval_negIf ho.high _).symm

theorem eval_low (h : m.Canonical) (hn : m.Stores f.index n) :
    m.eval n.low s = (f.negated ^^ m.eval f (Function.update s n.var false)) := by
  have ho := h.orderly _ n hn
  have hlow := h.eval_congr ho.low ho.low_above (s := s) (t := Function.update s n.var false)
    fun w hw => (Function.update_of_ne (by omega) _ _).symm
  rw [h.eval_node hn, Function.update_self, hlow]
  simp

theorem eval_high (h : m.Canonical) (hn : m.Stores f.index n) :
    m.eval n.high s = (f.negated ^^ m.eval f (Function.update s n.var true)) := by
  have ho := h.orderly _ n hn
  have hhigh := h.eval_congr ho.high ho.high_above (s := s) (t := Function.update s n.var true)
    fun w hw => (Function.update_of_ne (by omega) _ _).symm
  rw [h.eval_node hn, Function.update_self, hhigh]
  simp

/-- Equal functions are equal references. -/
theorem eq_of_eval_eq (h : m.Canonical) (hf : m.Has f) (hg : m.Has g)
    (hfg : ∀ s, m.eval f s = m.eval g s) : f = g := by
  -- the induction is on a bound of both indices, as the children of either side are compared
  suffices ∀ k (f g : Ref), f.index < k → g.index < k → m.Has f → m.Has g →
      (∀ s, m.eval f s = m.eval g s) → f = g from
    this (f.index + g.index + 1) f g (by omega) (by omega) hf hg hfg
  intro k
  induction k with
  | zero => intro f g hf; omega
  | succ k ih =>
    intro f g hfk hgk hf hg hfg
    have hneg : f.negated = g.negated := by
      have := hfg fun _ => true
      rw [h.eval_all_true hf, h.eval_all_true hg] at this
      simpa using this
    -- a root variable of one side is decided by the other side too
    have hroot : ∀ {f g : Ref} {n : Node}, f.index < k + 1 → m.Stores f.index n →
        m.Has g → (∀ s, m.eval f s = m.eval g s) → ¬ m.Above n.var g := by
      intro f g n hfk hn hg hfg habove
      have ho := h.orderly _ n hn
      have hl := ho.low_lt
      have hh := ho.high_lt
      refine ho.differ (ih n.low n.high (by omega) (by omega) ho.low ho.high fun s => ?_)
      have hg' : m.eval g (Function.update s n.var false) =
          m.eval g (Function.update s n.var true) :=
        h.eval_congr hg habove fun w hw => by
          rw [Function.update_of_ne (by omega), Function.update_of_ne (by omega)]
      rw [h.eval_low hn, h.eval_high hn, hfg, hfg, hg']
    have hindex : f.index = g.index := by
      rcases h.cases hf with h1 | ⟨n, hn⟩
      · rcases h.cases hg with h1' | ⟨n', hn'⟩
        · rw [h1, h1']
        · refine absurd ?_ (hroot hgk hn' hf fun s => (hfg s).symm)
          rcases eq_one_or_zero h1 with rfl | rfl
          · exact above_one
          · exact above_zero
      · rcases h.cases hg with h1' | ⟨n', hn'⟩
        · refine absurd ?_ (hroot hfk hn hg hfg)
          rcases eq_one_or_zero h1' with rfl | rfl
          · exact above_one
          · exact above_zero
        · have ho := h.orderly _ n hn
          have ho' := h.orderly _ n' hn'
          have hl := ho.low_lt
          have hh := ho.high_lt
          have hl' := ho'.low_lt
          have hh' := ho'.high_lt
          have hvar : n.var = n'.var := by
            rcases Nat.lt_trichotomy n.var n'.var with hlt | heq | hgt
            · exact absurd (fun k hk => hn'.unique hk ▸ hlt) (hroot hfk hn hg hfg)
            · exact heq
            · exact absurd (fun k hk => hn.unique hk ▸ hgt) (hroot hgk hn' hf fun s => (hfg s).symm)
          have hlow : n.low = n'.low := ih _ _ (by omega) (by omega) ho.low ho'.low fun s => by
            rw [h.eval_low hn, h.eval_low hn', hneg, hfg, hvar]
          have hhigh : n.high = n'.high := ih _ _ (by omega) (by omega) ho.high ho'.high fun s => by
            rw [h.eval_high hn, h.eval_high hn', hneg, hfg, hvar]
          have hnode : n = n' := by
            cases n
            cases n'
            simp_all
          subst hnode
          exact h.shared _ _ _ hn hn'
    rw [← f.of_index_negated, ← g.of_index_negated, hindex, hneg]

/-- A function whose value depends on later variables only has a later root. -/
theorem above_of_eval (h : m.Canonical) {v : Nat}
    (hv : ∀ s t : Assignment, (∀ w, v < w → s w = t w) → m.eval f s = m.eval f t) :
    m.Above v f := by
  intro n hn
  have ho := h.orderly _ n hn
  by_contra hle
  refine ho.differ (h.eq_of_eval_eq ho.low ho.high fun s => ?_)
  have hsame : m.eval f (Function.update s n.var false) =
      m.eval f (Function.update s n.var true) := hv _ _ fun w hw => by
    rw [Function.update_of_ne (by omega), Function.update_of_ne (by omega)]
  rw [h.eval_low hn, h.eval_high hn, hsame]

end Canonical

end Manager

end SymbolicAutomata
