import SymbolicAutomata.Conditional
import SymbolicAutomata.Proofs.Nodes
/-!
# The conditional denotes a choice

Every rewriting of a triple keeps the function it stands for, up to the complement that is put back
on the result. Termination is by the indices of the operands: the rewritings permute the operands or
replace them by constants, and a step to the cofactors lowers the index of at least one operand and
raises none.
-/
namespace SymbolicAutomata

namespace Manager

variable {m : Manager} {f g : Ref} {v : Nat} {s : Assignment}

def rootVar (m : Manager) (f : Ref) : Nat :=
  match m.var f with
  | .ok v => v
  | .error _ => 0

/-- What remains of `f` for one value of a variable that the root decides or that comes before. -/
def cofactor (m : Manager) (v : Nat) (b : Bool) (f : Ref) : Ref :=
  match m.nodes.values[f.index]? with
  | some n => if n.var = v then (if b then n.high else n.low).negIf f.negated else f
  | none => f

theorem rootVar_stores {n : Node} (hn : m.Stores f.index n) : m.rootVar f = n.var := by
  rw [rootVar, hn.var]

namespace Canonical

theorem rootVar_terminal (h : m.Canonical) (hf : f.index = 1) : m.rootVar f = 0 := by
  rw [rootVar, h.var_terminal hf]

theorem var_eq (h : m.Canonical) (hf : m.Has f) : m.var f = .ok (m.rootVar f) := by
  rcases h.cases hf with h1 | ⟨n, hn⟩
  · rw [h.rootVar_terminal h1, h.var_terminal h1]
  · rw [rootVar_stores hn, hn.var]

theorem rootVar_eq_zero_iff (h : m.Canonical) (hf : m.Has f) :
    m.rootVar f = 0 ↔ f.index = 1 := by
  constructor
  · intro h0
    rcases h.cases hf with h1 | ⟨n, hn⟩
    · exact h1
    · have := (h.orderly _ n hn).var_pos
      rw [rootVar_stores hn] at h0
      omega
  · exact h.rootVar_terminal

theorem above_iff (h : m.Canonical) (hf : m.Has f) :
    m.Above v f ↔ m.rootVar f = 0 ∨ v < m.rootVar f := by
  rcases h.cases hf with h1 | ⟨n, hn⟩
  · have habove : m.Above v f := fun n hn => absurd hn.1 (by omega)
    simp [habove, h.rootVar_terminal h1]
  · have hpos := (h.orderly _ n hn).var_pos
    rw [rootVar_stores hn]
    constructor
    · exact fun ha => .inr (ha n hn)
    · rintro (h0 | hlt) n' hn'
      · omega
      · exact hn.unique hn' ▸ hlt

/-- At its root variable a function splits into its children; at an earlier one it stays. -/
theorem cofactor_cases (h : m.Canonical) (hf : m.Has f) (hv : 0 < v) :
    (m.rootVar f ≠ v ∧ ∀ b, m.cofactor v b f = f) ∨
      ∃ n, m.Stores f.index n ∧ n.var = v ∧
        ∀ b, m.cofactor v b f = (if b then n.high else n.low).negIf f.negated := by
  rcases h.cases hf with h1 | ⟨n, hn⟩
  · refine .inl ⟨?_, fun b => ?_⟩
    · rw [h.rootVar_terminal h1]
      omega
    · simp only [cofactor, h1, h.terminal.2]
      exact if_neg (Nat.ne_of_lt hv)
  · by_cases hnv : n.var = v
    · exact .inr ⟨n, hn, hnv, fun b => by simp [cofactor, hn.2.2, hnv]⟩
    · refine .inl ⟨?_, fun b => by simp [cofactor, hn.2.2, hnv]⟩
      rw [rootVar_stores hn]
      exact hnv

theorem has_cofactor (h : m.Canonical) (hf : m.Has f) (hv : 0 < v) (b : Bool) :
    m.Has (m.cofactor v b f) := by
  rcases h.cofactor_cases hf hv with ⟨-, hb⟩ | ⟨n, hn, -, hb⟩
  · rwa [hb]
  · have ho := h.orderly _ n hn
    rw [hb, has_negIf]
    cases b
    · exact ho.low
    · exact ho.high

theorem cofactor_index_le (h : m.Canonical) (hf : m.Has f) (hv : 0 < v) (b : Bool) :
    (m.cofactor v b f).index ≤ f.index := by
  rcases h.cofactor_cases hf hv with ⟨-, hb⟩ | ⟨n, hn, -, hb⟩
  · exact Nat.le_of_eq (congrArg Ref.index (hb b))
  · have hlow := (h.orderly _ n hn).low_lt
    have hhigh := (h.orderly _ n hn).high_lt
    rw [hb, negIf_index]
    cases b <;> simp <;> omega

theorem cofactor_index_lt (h : m.Canonical) (hf : m.Has f) (hv : 0 < v) (b : Bool)
    (hroot : m.rootVar f = v) : (m.cofactor v b f).index < f.index := by
  rcases h.cofactor_cases hf hv with ⟨hne, -⟩ | ⟨n, hn, -, hb⟩
  · exact absurd hroot hne
  · have hlow := (h.orderly _ n hn).low_lt
    have hhigh := (h.orderly _ n hn).high_lt
    rw [hb, negIf_index]
    cases b <;> simpa

theorem above_cofactor (h : m.Canonical) (hf : m.Has f) (hv : 0 < v) (b : Bool)
    (hle : m.rootVar f = 0 ∨ v ≤ m.rootVar f) : m.Above v (m.cofactor v b f) := by
  rcases h.cofactor_cases hf hv with ⟨hne, hb⟩ | ⟨n, hn, hnv, hb⟩
  · rw [hb, h.above_iff hf]
    omega
  · have ho := h.orderly _ n hn
    rw [hb, above_negIf, ← hnv]
    cases b
    · exact ho.low_above
    · exact ho.high_above

theorem eval_cofactor (h : m.Canonical) (hf : m.Has f) (hv : 0 < v) :
    m.eval f s = m.eval (m.cofactor v (s v) f) s := by
  rcases h.cofactor_cases hf hv with ⟨-, hb⟩ | ⟨n, hn, hnv, hb⟩
  · rw [hb]
  · have ho := h.orderly _ n hn
    rw [hb, h.eval_node hn, hnv]
    cases s v
    · simp [h.eval_negIf ho.low]
    · simp [h.eval_negIf ho.high]

theorem cofactors_eq (h : m.Canonical) (hf : m.Has f) (hv : 0 < v)
    (hle : m.rootVar f = 0 ∨ v ≤ m.rootVar f) :
    m.cofactors f v = .ok (m.cofactor v false f, m.cofactor v true f) := by
  rcases h.cofactor_cases hf hv with ⟨hne, hb⟩ | ⟨n, hn, hnv, hb⟩
  · rw [hb, hb]
    by_cases h1 : f.index = 1
    · simp [Manager.cofactors, Nat.ne_of_gt hv, isTerminal_iff.2 h1, pure, Except.pure]
    · have h0 : m.rootVar f ≠ 0 := fun h0 => h1 ((h.rootVar_eq_zero_iff hf).1 h0)
      have hlt : v < m.rootVar f := by omega
      have ht : f.isTerminal = false := by rwa [Bool.eq_false_iff, Ne, isTerminal_iff]
      simp [Manager.cofactors, Nat.ne_of_gt hv, ht, h.var_eq hf, hlt, bind, Except.bind, pure,
        Except.pure]
  · rw [hb, hb]
    simp [Manager.cofactors, Nat.ne_of_gt hv, hn.isTerminal, hn.var, hn.low, hn.high, hnv, bind,
      Except.bind, pure, Except.pure]

end Canonical

theorem cofactor_index_congr (b : Bool) (h : f.index = g.index) :
    (m.cofactor v b f).index = (m.cofactor v b g).index := by
  simp only [cofactor, h]
  split
  · rename_i n _
    by_cases hn : n.var = v
    · simp only [hn, ↓reduceIte, negIf_index]
    · simp only [hn, ↓reduceIte, h]
  · exact h

end Manager

namespace Triple

open Manager

variable {m m' : Manager} {t u : Triple} {s : Assignment} {v : Nat}

structure In (t : Triple) (m : Manager) : Prop where
  f : m.Has t.f
  g : m.Has t.g
  h : m.Has t.h

def choice (t : Triple) (m : Manager) (s : Assignment) : Bool :=
  if m.eval t.f s then m.eval t.g s else m.eval t.h s

def total (a b c : Nat) : Nat :=
  a - 1 + (if b = a then 0 else b - 1) + (if c = a ∨ c = b then 0 else c - 1)

theorem total_lt {a b c a' b' c' : Nat} (ha : a' ≤ a) (hb : b' ≤ b) (hc : c' ≤ c)
    (pa : 0 < a') (pb : 0 < b') (pc : 0 < c') (hba : b = a → b' = a') (hca : c = a → c' = a')
    (hcb : c = b → c' = b') (hlt : a' < a ∨ b' < b ∨ c' < c) : total a' b' c' < total a b c := by
  unfold total
  split_ifs <;> omega

theorem total_le {a b c n : Nat} (ha : a ≤ n) (hb : b ≤ n) (hc : c ≤ n) :
    total a b c ≤ 3 * n := by
  unfold total
  split_ifs <;> omega

theorem total_swap_left (a b c : Nat) : total b a c = total a b c := by
  unfold total
  split_ifs <;> omega

theorem total_swap_right (a b c : Nat) : total a c b = total a b c := by
  unfold total
  split_ifs <;> omega

theorem total_twice (a b : Nat) : total a b b = total b a a := by
  unfold total
  split_ifs <;> omega

theorem total_one_left (a c : Nat) : total a 1 c ≤ total a a c := by
  unfold total
  split_ifs <;> omega

theorem total_one_right (a b : Nat) : total a b 1 ≤ total a b a := by
  unfold total
  split_ifs <;> omega

/-- The indices of the operands added up, without the terminal. Each one counts once, as symmetric
triples repeat their operands in a different number when they are rewritten. -/
def weight (t : Triple) : Nat := total t.f.index t.g.index t.h.index

theorem In.mono (ht : t.In m) (hg : m.Grows m') : t.In m' := ⟨hg.has ht.f, hg.has ht.g, hg.has ht.h⟩

theorem value?_eq_some (hm : m.Canonical) (ht : t.In m) {r : Ref} (hr : t.value? = some r) :
    m.Has r ∧ ∀ s, m.eval r s = t.choice m s := by
  obtain ⟨f, g, h⟩ := t
  obtain ⟨hf, hg, hh⟩ := ht
  have h0 := hm.has_zero
  have h1 := hm.has_one
  simp only [value?] at hr
  simp only [choice]
  simp only at hf hg hh
  split_ifs at hr with c1 c2 c3 c4 c5 c6 c7 c8 c9
  all_goals
    cases hr
    simp_all [hm.eval_neg, has_neg]

/-- Without a constant value no operand that a rewriting puts first is constant. -/
theorem value?_eq_none (hv : t.value? = none) :
    t.f.index ≠ 1 ∧ (t.g = .one → t.h.index ≠ 1) ∧ (t.h = .zero → t.g.index ≠ 1) ∧
      (t.h = .one → t.g.index ≠ 1) ∧ (t.g = .zero → t.h.index ≠ 1) ∧
      (t.g = -t.h → t.g.index ≠ 1) := by
  obtain ⟨f, g, h⟩ := t
  simp only [value?] at hv
  have hz : Ref.zero ≠ Ref.one := by decide
  refine ⟨?_, ?_, ?_, ?_, ?_, ?_⟩
  · intro h1
    rcases eq_one_or_zero h1 with rfl | rfl
    all_goals simp [hz] at hv
  · rintro rfl h1
    rcases eq_one_or_zero h1 with rfl | rfl
    all_goals simp at hv
    split_ifs at hv
  · rintro rfl h1
    rcases eq_one_or_zero h1 with rfl | rfl
    all_goals simp at hv
    split_ifs at hv
  · rintro rfl h1
    rcases eq_one_or_zero h1 with rfl | rfl
    all_goals simp at hv
    split_ifs at hv
  · rintro rfl h1
    rcases eq_one_or_zero h1 with rfl | rfl
    all_goals simp at hv
    split_ifs at hv
  · intro (hgh : g = -h) (h1 : g.index = 1)
    subst hgh
    rw [Ref.neg_index] at h1
    rcases eq_one_or_zero h1 with rfl | rfl
    all_goals
      simp [Ref.neg_one, Ref.neg_zero] at hv
      split_ifs at hv

theorem in_absorb (hm : m.Canonical) (ht : t.In m) : t.absorb.In m := by
  obtain ⟨f, g, h⟩ := t
  obtain ⟨hf, hg, hh⟩ := ht
  simp only [absorb]
  split_ifs
  · exact ⟨hf, hm.has_one, hh⟩
  · exact ⟨hf, hg, hm.has_zero⟩
  · exact ⟨hf, hm.has_zero, hh⟩
  · exact ⟨hf, hg, hm.has_one⟩
  · exact ⟨hf, hg, hh⟩

theorem choice_absorb (hm : m.Canonical) (ht : t.In m) :
    t.absorb.choice m s = t.choice m s := by
  obtain ⟨f, g, h⟩ := t
  have hf : m.Has f := ht.f
  simp only [absorb]
  split_ifs with c1 c2 c3 c4
  · subst c1
    simp only [choice, hm.eval_one]
    split_ifs with hs <;> simp [hs]
  · subst c2
    simp only [choice, hm.eval_zero]
    split_ifs with hs <;> simp [hs]
  · subst c3
    simp only [choice, hm.eval_zero, hm.eval_neg hf]
    split_ifs with hs <;> simp [hs]
  · subst c4
    simp only [choice, hm.eval_one, hm.eval_neg hf]
    split_ifs with hs <;> simp [hs]
  · rfl

theorem weight_absorb : t.absorb.weight ≤ t.weight := by
  obtain ⟨f, g, h⟩ := t
  have h1 : Ref.one.index = 1 := rfl
  have h0 : Ref.zero.index = 1 := rfl
  simp only [absorb]
  split_ifs with c1 c2 c3 c4
  · subst c1
    simpa only [weight, h1] using total_one_left g.index h.index
  · subst c2
    simpa only [weight, h0] using total_one_right h.index g.index
  · subst c3
    simpa only [weight, h0, Ref.neg_index] using total_one_left f.index h.index
  · subst c4
    simpa only [weight, h1, Ref.neg_index] using total_one_right f.index g.index
  · exact Nat.le_refl _

theorem in_lead (hm : m.Canonical) (ht : t.In m) (i j k : Nat) : (t.lead i j k).In m := by
  obtain ⟨f, g, h⟩ := t
  obtain ⟨hf, hg, hh⟩ := ht
  simp only [lead]
  split_ifs
  · exact ⟨hh, hm.has_one, hf⟩
  · exact ⟨hg, hf, hm.has_zero⟩
  · exact ⟨has_neg.2 hg, has_neg.2 hf, hm.has_one⟩
  · exact ⟨has_neg.2 hh, hm.has_zero, has_neg.2 hf⟩
  · exact ⟨hg, hf, has_neg.2 hf⟩
  · exact ⟨hf, hg, hh⟩

theorem choice_lead (hm : m.Canonical) (ht : t.In m) (i j k : Nat) :
    (t.lead i j k).choice m s = t.choice m s := by
  obtain ⟨f, g, h⟩ := t
  obtain ⟨hf, hg, hh⟩ := ht
  simp only at hf hg hh
  simp only [lead]
  split_ifs with c1 c2 c3 c4 c5
  · obtain ⟨rfl, -⟩ := c1
    simp only [choice, hm.eval_one]
    cases m.eval f s <;> cases m.eval h s <;> rfl
  · obtain ⟨rfl, -⟩ := c2
    simp only [choice, hm.eval_zero]
    cases m.eval f s <;> cases m.eval g s <;> rfl
  · obtain ⟨rfl, -⟩ := c3
    simp only [choice, hm.eval_one, hm.eval_neg hf, hm.eval_neg hg]
    cases m.eval f s <;> cases m.eval g s <;> rfl
  · obtain ⟨rfl, -⟩ := c4
    simp only [choice, hm.eval_zero, hm.eval_neg hf, hm.eval_neg hh]
    cases m.eval f s <;> cases m.eval h s <;> rfl
  · obtain ⟨rfl, -⟩ := c5
    simp only [choice, hm.eval_neg hf, hm.eval_neg hh]
    cases m.eval f s <;> cases m.eval h s <;> rfl
  · rfl

theorem weight_lead (i j k : Nat) : (t.lead i j k).weight = t.weight := by
  obtain ⟨f, g, h⟩ := t
  have hout : total h.index g.index f.index = total f.index g.index h.index := by
    rw [total_swap_left, total_swap_right, total_swap_left]
  have hin := total_swap_left f.index g.index h.index
  simp only [lead]
  split_ifs with c1 c2 c3 c4 c5
  · obtain ⟨rfl, -⟩ := c1
    exact hout
  · obtain ⟨rfl, -⟩ := c2
    exact hin
  · obtain ⟨rfl, -⟩ := c3
    simpa only [weight, Ref.neg_index] using hin
  · obtain ⟨rfl, -⟩ := c4
    simpa only [weight, Ref.neg_index] using hout
  · obtain ⟨rfl, -⟩ := c5
    simpa only [weight, Ref.neg_index] using total_twice h.index f.index
  · rfl

theorem lead_f_index (hv : t.value? = none) (i j k : Nat) : (t.lead i j k).f.index ≠ 1 := by
  obtain ⟨hf, hg1, hh0, hh1, hg0, hgh⟩ := value?_eq_none hv
  obtain ⟨f, g, h⟩ := t
  simp only [lead]
  split_ifs with c1 c2 c3 c4 c5
  · exact hg1 c1.1
  · exact hh0 c2.1
  · simpa only [Ref.neg_index] using hh1 c3.1
  · simpa only [Ref.neg_index] using hg0 c4.1
  · exact hgh c5.1
  · exact hf

theorem in_regularCondition (ht : t.In m) : t.regularCondition.In m := by
  obtain ⟨f, g, h⟩ := t
  obtain ⟨hf, hg, hh⟩ := ht
  simp only [regularCondition]
  split_ifs
  · exact ⟨has_neg.2 hf, hh, hg⟩
  · exact ⟨hf, hg, hh⟩

theorem choice_regularCondition (hm : m.Canonical) (ht : t.In m) :
    t.regularCondition.choice m s = t.choice m s := by
  obtain ⟨f, g, h⟩ := t
  have hf : m.Has f := ht.f
  simp only [regularCondition]
  split_ifs
  · simp only [choice, hm.eval_neg hf]
    cases m.eval f s <;> rfl
  · rfl

theorem weight_regularCondition : t.regularCondition.weight = t.weight := by
  obtain ⟨f, g, h⟩ := t
  simp only [regularCondition]
  split_ifs
  · rw [weight, weight, Ref.neg_index]
    exact total_swap_right f.index g.index h.index
  · rfl

theorem regularCondition_f_index : t.regularCondition.f.index = t.f.index := by
  obtain ⟨f, g, h⟩ := t
  simp only [regularCondition]
  split_ifs
  · exact f.neg_index
  · rfl

theorem in_regularBranch (ht : t.In m) : t.regularBranch.1.In m := by
  obtain ⟨f, g, h⟩ := t
  obtain ⟨hf, hg, hh⟩ := ht
  simp only [regularBranch]
  split_ifs
  · exact ⟨hf, has_neg.2 hg, has_neg.2 hh⟩
  · exact ⟨hf, hg, hh⟩

theorem choice_regularBranch (hm : m.Canonical) (ht : t.In m) :
    (t.regularBranch.2 ^^ t.regularBranch.1.choice m s) = t.choice m s := by
  obtain ⟨f, g, h⟩ := t
  obtain ⟨hf, hg, hh⟩ := ht
  simp only at hf hg hh
  simp only [regularBranch]
  split_ifs
  · simp only [choice, hm.eval_neg hg, hm.eval_neg hh]
    cases m.eval f s <;> simp
  · simp

theorem weight_regularBranch : t.regularBranch.1.weight = t.weight := by
  obtain ⟨f, g, h⟩ := t
  simp only [regularBranch]
  split_ifs
  · simp only [weight, Ref.neg_index]
  · rfl

theorem regularBranch_f_index : t.regularBranch.1.f.index = t.f.index := by
  obtain ⟨f, g, h⟩ := t
  simp only [regularBranch]
  split_ifs <;> rfl

/-- The operands for one value of a variable. -/
def cofactor (t : Triple) (m : Manager) (v : Nat) (b : Bool) : Triple :=
  ⟨m.cofactor v b t.f, m.cofactor v b t.g, m.cofactor v b t.h⟩

theorem in_cofactor (hm : m.Canonical) (ht : t.In m) (hv : 0 < v) (b : Bool) :
    (t.cofactor m v b).In m :=
  ⟨hm.has_cofactor ht.f hv b, hm.has_cofactor ht.g hv b, hm.has_cofactor ht.h hv b⟩

theorem choice_cofactor (hm : m.Canonical) (ht : t.In m) (hv : 0 < v) :
    t.choice m s = (t.cofactor m v (s v)).choice m s := by
  unfold choice
  rw [hm.eval_cofactor ht.f hv, hm.eval_cofactor ht.g hv, hm.eval_cofactor ht.h hv]
  rfl

/-- The choice between functions of later variables depends on later variables only. -/
theorem choice_congr (hm : m.Canonical) (ht : t.In m) (hf : m.Above v t.f)
    (hg : m.Above v t.g) (hh : m.Above v t.h) {s s' : Assignment}
    (hs : ∀ w, v < w → s w = s' w) : t.choice m s = t.choice m s' := by
  simp only [choice, hm.eval_congr ht.f hf hs, hm.eval_congr ht.g hg hs,
    hm.eval_congr ht.h hh hs]

theorem weight_cofactor (hm : m.Canonical) (ht : t.In m) (hv : 0 < v) (b : Bool)
    (hroot : m.rootVar t.f = v ∨ m.rootVar t.g = v ∨ m.rootVar t.h = v) :
    (t.cofactor m v b).weight < t.weight := by
  obtain ⟨f, g, h⟩ := t
  obtain ⟨hf, hg, hh⟩ := ht
  simp only at hf hg hh hroot
  have lf := hm.cofactor_index_le hf hv b
  have lg := hm.cofactor_index_le hg hv b
  have lh := hm.cofactor_index_le hh hv b
  have pf := (hm.has_cofactor hf hv b).1
  have pg := (hm.has_cofactor hg hv b).1
  have ph := (hm.has_cofactor hh hv b).1
  have efg := cofactor_index_congr (m := m) (v := v) (f := g) (g := f) b
  have efh := cofactor_index_congr (m := m) (v := v) (f := h) (g := f) b
  have egh := cofactor_index_congr (m := m) (v := v) (f := h) (g := g) b
  exact total_lt lf lg lh pf pg ph efg efh egh (hroot.imp (hm.cofactor_index_lt hf hv b)
    (Or.imp (hm.cofactor_index_lt hg hv b) (hm.cofactor_index_lt hh hv b)))

theorem weight_le (ht : t.In m) : t.weight ≤ 3 * m.nodeCount :=
  total_le ht.f.2 ht.g.2 ht.h.2

/-- The recursion of the conditional is never cut off. -/
theorem weight_lt (ht : t.In m) : t.weight < 3 * m.depthBound := by
  have hle := weight_le ht
  have : 0 < Nat.pow 2 31 := Nat.two_pow_pos 31
  unfold depthBound
  omega

/-- The variable is at the root of an operand, and no root comes before it. -/
structure Headed (t : Triple) (m : Manager) (v : Nat) : Prop where
  pos : 0 < v
  root : m.rootVar t.f = v ∨ m.rootVar t.g = v ∨ m.rootVar t.h = v
  f : m.rootVar t.f = 0 ∨ v ≤ m.rootVar t.f
  g : m.rootVar t.g = 0 ∨ v ≤ m.rootVar t.g
  h : m.rootVar t.h = 0 ∨ v ≤ m.rootVar t.h

theorem exists_headed (hm : m.Canonical) (ht : t.In m) (hf : t.f.index ≠ 1) :
    ∃ v, t.Headed m v := by
  have h0 : m.rootVar t.f ≠ 0 := fun h0 => hf ((hm.rootVar_eq_zero_iff ht.f).1 h0)
  obtain ⟨v, hv⟩ : ∃ v, v = if m.rootVar t.h = 0 then
      (if m.rootVar t.g = 0 then m.rootVar t.f else min (m.rootVar t.f) (m.rootVar t.g))
    else min (if m.rootVar t.g = 0 then m.rootVar t.f else min (m.rootVar t.f) (m.rootVar t.g))
      (m.rootVar t.h) := ⟨_, rfl⟩
  refine ⟨v, ?_, ?_, ?_, ?_, ?_⟩
  all_goals split_ifs at hv <;> omega

/-- The choice that remains depends on later variables only. -/
theorem Headed.choice_congr (h : t.Headed m v) (hm : m.Canonical) (ht : t.In m) (b : Bool)
    {s s' : Assignment} (hs : ∀ u, v < u → s u = s' u) :
    (t.cofactor m v b).choice m s = (t.cofactor m v b).choice m s' :=
  Triple.choice_congr hm (in_cofactor hm ht h.pos b) (hm.above_cofactor ht.f h.pos b h.f)
    (hm.above_cofactor ht.g h.pos b h.g) (hm.above_cofactor ht.h h.pos b h.h) hs

theorem Headed.choice_congr_of_le (h : t.Headed m v) (hm : m.Canonical) (ht : t.In m)
    {s s' : Assignment} (hs : ∀ u, v ≤ u → s u = s' u) : t.choice m s = t.choice m s' := by
  have hpos := h.pos
  have habove : ∀ {f}, m.Has f → (m.rootVar f = 0 ∨ v ≤ m.rootVar f) → m.Above (v - 1) f :=
    fun hf hle => (hm.above_iff hf).2 (hle.imp_right fun _ => by omega)
  exact Triple.choice_congr hm ht (habove ht.f h.f) (habove ht.g h.g) (habove ht.h h.h)
    fun u hu => hs u (by omega)

theorem right_operation (ht : t.In m) {r : Ref} :
    m.Right t.operation r ↔ m.Denotes r fun s => t.choice m s = true :=
  ⟨fun hr => hr.2.2.2, fun hr => ⟨ht.f, ht.g, ht.h, hr⟩⟩

end Triple

namespace Manager

variable {m : Manager} {t : Triple}

theorem lead_eq (hm : m.Canonical) (ht : t.In m) (hv : t.value? = none) :
    m.lead t = .ok (t.lead (m.rootVar t.f) (m.rootVar t.g) (m.rootVar t.h)) := by
  have hf : m.rootVar t.f ≠ 0 := fun h0 =>
    (Triple.value?_eq_none hv).1 ((hm.rootVar_eq_zero_iff ht.f).1 h0)
  have hin := Triple.in_lead hm ht (m.rootVar t.f) (m.rootVar t.g) (m.rootVar t.h)
  have hs : m.rootVar (t.lead (m.rootVar t.f) (m.rootVar t.g) (m.rootVar t.h)).f ≠ 0 := fun h0 =>
    Triple.lead_f_index hv _ _ _ ((hm.rootVar_eq_zero_iff hin.f).1 h0)
  simp [Manager.lead, hm.var_eq ht.f, hm.var_eq ht.g, hm.var_eq ht.h, hm.var_eq hin.f, hf, hs,
    bind, Except.bind, pure, Except.pure]

theorem topVar_eq {v : Nat} (hm : m.Canonical) (ht : t.In m) (hf : t.f.index ≠ 1)
    (hv : t.Headed m v) : m.topVar t = .ok v := by
  have h0 : m.rootVar t.f ≠ 0 := fun h0 => hf ((hm.rootVar_eq_zero_iff ht.f).1 h0)
  obtain ⟨hpos, hroot, hvf, hvg, hvh⟩ := hv
  simp only [topVar, hm.var_eq ht.f, hm.var_eq ht.g, hm.var_eq ht.h, bind, Except.bind, pure,
    Except.pure, Except.ok.injEq]
  split_ifs <;> omega

theorem splitTriple_eq {v : Nat} (hm : m.Canonical) (ht : t.In m) (hv : t.Headed m v) :
    m.splitTriple t v = .ok (t.cofactor m v false, t.cofactor m v true) := by
  simp [splitTriple, hm.cofactors_eq ht.f hv.pos hv.f, hm.cofactors_eq ht.g hv.pos hv.g,
    hm.cofactors_eq ht.h hv.pos hv.h, Triple.cofactor, bind, Except.bind, pure, Except.pure]

/-- The standard form of a triple, and whether the result is complemented for it. -/
def standard (m : Manager) (t : Triple) : Triple × Bool :=
  let u := t.absorb
  (u.lead (m.rootVar u.f) (m.rootVar u.g) (m.rootVar u.h)).regularCondition.regularBranch

/-- The standard form chooses the same function, up to the complement, and weighs no more. -/
theorem standard_spec (hm : m.Canonical) (ht : t.In m) (hv : t.absorb.value? = none) :
    (m.standard t).1.In m ∧ (m.standard t).1.f.index ≠ 1 ∧ (m.standard t).1.weight ≤ t.weight ∧
      ∀ s, t.choice m s = ((m.standard t).2 ^^ (m.standard t).1.choice m s) := by
  have hin := Triple.in_absorb hm ht
  have hlead := Triple.in_lead hm hin (m.rootVar t.absorb.f) (m.rootVar t.absorb.g)
    (m.rootVar t.absorb.h)
  have hcondition := Triple.in_regularCondition hlead
  refine ⟨Triple.in_regularBranch hcondition, ?_, ?_, fun s => ?_⟩
  · unfold standard
    rw [Triple.regularBranch_f_index, Triple.regularCondition_f_index]
    exact Triple.lead_f_index hv _ _ _
  · unfold standard
    rw [Triple.weight_regularBranch, Triple.weight_regularCondition, Triple.weight_lead]
    exact Triple.weight_absorb
  · unfold standard
    rw [Triple.choice_regularBranch hm hcondition, Triple.choice_regularCondition hm hlead,
      Triple.choice_lead hm hin, Triple.choice_absorb hm ht]

end Manager

namespace Workspace.Leads

variable {w w' : Workspace} {t : Triple}

theorem choice (h : w.Leads w') (ht : t.In w.current) (s : Assignment) :
    t.choice w'.current s = t.choice w.current s := by
  simp only [Triple.choice, h.eval ht.f, h.eval ht.g, h.eval ht.h]

theorem right_operation (h : w.Leads w') (ht : t.In w.current) {r : Ref} :
    w'.current.Right t.operation r ↔
      w'.current.Denotes r fun s => t.choice w.current s = true := by
  simp only [Triple.right_operation (ht.mono h.grows), h.choice ht]

end Workspace.Leads

namespace Bdd

open Manager

variable {w : Workspace} {t : Triple} {fuel : Nat}

section Recursion

variable {r : Ref}

def iteSplit (fuel : Nat) (t : Triple) : BddM Ref := do
  let v ← ask (·.topVar t)
  let (t0, t1) ← ask (·.splitTriple t v)
  let low ← iteFrom fuel t0
  let high ← iteFrom fuel t1
  node v low high

theorem iteFrom_of_value (hv : t.value? = some r) : iteFrom (fuel + 1) t = pure r := by
  unfold iteFrom
  rw [hv]

theorem iteFrom_of_absorb (hv : t.value? = none) (hv' : t.absorb.value? = some r) :
    iteFrom (fuel + 1) t = pure r := by
  unfold iteFrom
  simp only [hv, hv']

theorem ask_bind_eq {α β : Type} {q : Manager → Except Failure α} {a : α} {y : α → BddM β}
    (hq : q w.current = .ok a) : (ask q >>= y) w = y a w :=
  bind_of_ok (by unfold ask; rw [hq])

/-- Any other triple is looked up, and split if need be, in standard form. -/
theorem iteFrom_of_standard (hm : w.current.Canonical) (ht : t.In w.current)
    (hv : t.value? = none) (hv' : t.absorb.value? = none) :
    iteFrom (fuel + 1) t w = (do
      let r ← memoized (w.current.standard t).1.operation
        (iteSplit fuel (w.current.standard t).1)
      return r.negIf (w.current.standard t).2 : BddM Ref) w := by
  unfold iteFrom
  simp only [hv, hv']
  rw [ask_bind_eq (lead_eq hm (Triple.in_absorb hm ht) hv')]
  simp only [memoized, iteSplit, standard, bind_assoc]
  refine congrFun (congrArg (remembered _ >>= ·) (funext fun o => ?_)) w
  cases o <;> simp only [pure_bind, bind_assoc]

theorem iteSplit_of_headed {v : Nat} (hm : w.current.Canonical) (ht : t.In w.current)
    (hf : t.f.index ≠ 1) (hv : t.Headed w.current v) :
    iteSplit fuel t w = (do
      let low ← iteFrom fuel (t.cofactor w.current v false)
      let high ← iteFrom fuel (t.cofactor w.current v true)
      node v low high : BddM Ref) w := by
  unfold iteSplit
  rw [ask_bind_eq (topVar_eq hm ht hf hv), ask_bind_eq (splitTriple_eq hm ht hv)]

end Recursion

/-- A triple in standard form is made from the results for the two values of its top variable. -/
theorem iteSplit_yields (hw : w.current.WellFormed) (ht : t.In w.current) (hf : t.f.index ≠ 1)
    (hrec : ∀ w' u, w.Leads w' → u.In w'.current → u.weight < t.weight →
      Yields w' (iteFrom fuel u) fun r m => m.Denotes r fun s => u.choice w'.current s = true) :
    Yields w (iteSplit fuel t) fun r m => m.Denotes r fun s => t.choice w.current s = true := by
  have hc := hw.canonical
  obtain ⟨v, hv⟩ := Triple.exists_headed hc ht hf
  apply Runs.congr (iteSplit_of_headed hc ht hf hv)
  have hin := fun b => Triple.in_cofactor hc ht hv.pos b
  have hweight := fun b => Triple.weight_cofactor hc ht hv.pos b hv.root
  refine .bind (hrec w _ (.refl hw) (hin false) (hweight false)) fun low w1 hl1 hlow => ?_
  refine .bind (hrec w1 _ hl1 ((hin true).mono hl1.grows) (hweight true))
    fun high w2 hl2 hhigh => ?_
  have hl : w.Leads w2 := hl1.trans hl2
  have hlow2 := hl2.denotes hlow
  have hhigh2 : w2.current.Denotes high fun s =>
      (t.cofactor w.current v true).choice w.current s = true :=
    hhigh.congr fun s => by rw [hl1.choice (hin true)]
  refine (node_yields hl2.after hv.pos hlow2 hhigh2 ?_ ?_).imp fun r w3 hl3 hr => ?_
  · exact hlow2.above hl2.after.canonical fun s s' hs h => hv.choice_congr hc ht false hs ▸ h
  · exact hhigh2.above hl2.after.canonical fun s s' hs h => hv.choice_congr hc ht true hs ▸ h
  · refine hr.congr fun s => ?_
    rw [Triple.choice_cofactor hc ht hv.pos]
    cases s v <;> simp

theorem iteFrom_yields (hw : w.current.WellFormed) (ht : t.In w.current)
    (hfuel : t.weight < fuel) :
    Yields w (iteFrom fuel t) fun r m => m.Denotes r fun s => t.choice w.current s = true := by
  induction fuel generalizing w t with
  | zero => omega
  | succ fuel ih =>
    have hc := hw.canonical
    cases hv : t.value? with
    | some r =>
      obtain ⟨hr, heval⟩ := Triple.value?_eq_some hc ht hv
      rw [iteFrom_of_value hv]
      exact Runs.pure hw ⟨hr, fun s => by rw [heval]⟩
    | none =>
      cases hv' : t.absorb.value? with
      | some r =>
        obtain ⟨hr, heval⟩ := Triple.value?_eq_some hc (Triple.in_absorb hc ht) hv'
        rw [iteFrom_of_absorb hv hv']
        exact Runs.pure hw ⟨hr, fun s => by rw [heval, Triple.choice_absorb hc ht]⟩
      | none =>
        obtain ⟨hin, hf, hweight, hchoice⟩ := standard_spec hc ht hv'
        apply Runs.congr (iteFrom_of_standard hc ht hv hv')
        generalize w.current.standard t = tn at hin hf hweight hchoice ⊢
        obtain ⟨u, n⟩ := tn
        simp only at hin hf hweight hchoice ⊢
        refine .bind (memoized_yields hw (fun w' r hl => hl.right_operation hin) fun w' hl => ?_)
          fun r w1 hl1 hr => ?_
        · refine (iteSplit_yields hl.after (hin.mono hl.grows) hf fun w'' v hl' hin' hlt =>
            ih hl'.after hin' (by omega)).imp fun r _ _ hr => ?_
          exact hr.congr fun s => by rw [hl.choice hin]
        · refine Runs.pure hl1.after ((hr.negIf hl1.after.canonical n).congr fun s => ?_)
          rw [hchoice]
          cases n <;> simp

/-- The conditional ends and denotes the choice. -/
theorem ite_yields {f g h : Ref} {F G H : Assignment → Prop} (hw : w.current.WellFormed)
    (hF : w.current.Denotes f F) (hG : w.current.Denotes g G) (hH : w.current.Denotes h H) :
    Yields w (ite f g h) fun r m => m.Denotes r fun s => F s ∧ G s ∨ ¬ F s ∧ H s := by
  have ht : Triple.In ⟨f, g, h⟩ w.current := ⟨hF.has, hG.has, hH.has⟩
  refine .ask_bind rfl ((iteFrom_yields hw ht (Triple.weight_lt ht)).imp fun r w' _ hr => ?_)
  refine hr.congr fun s => ?_
  rw [Triple.choice, ← hF.holds s, ← hG.holds s, ← hH.holds s]
  cases w.current.eval f s <;> simp

section Connectives

variable {f g : Ref} {F G : Assignment → Prop} {α : Type}

theorem conj_yields (hw : w.current.WellFormed) (hF : w.current.Denotes f F)
    (hG : w.current.Denotes g G) : Yields w (conj f g) fun r m => m.Denotes r fun s => F s ∧ G s :=
  (ite_yields hw hF hG (.zero hw.canonical)).imp fun _ _ _ hr => hr.congr fun s => by simp

theorem disj_yields (hw : w.current.WellFormed) (hF : w.current.Denotes f F)
    (hG : w.current.Denotes g G) : Yields w (disj f g) fun r m => m.Denotes r fun s => F s ∨ G s :=
  (ite_yields hw hF (.one hw.canonical) hG).imp fun _ _ _ hr => hr.congr fun s => by tauto

theorem exor_yields (hw : w.current.WellFormed) (hF : w.current.Denotes f F)
    (hG : w.current.Denotes g G) :
    Yields w (exor f g) fun r m => m.Denotes r fun s => ¬ (F s ↔ G s) :=
  (ite_yields hw hF (hG.neg hw.canonical) hG).imp fun _ _ _ hr => hr.congr fun s => by tauto

theorem equiv_yields (hw : w.current.WellFormed) (hF : w.current.Denotes f F)
    (hG : w.current.Denotes g G) :
    Yields w (equiv f g) fun r m => m.Denotes r fun s => F s ↔ G s :=
  (ite_yields hw hF hG (hG.neg hw.canonical)).imp fun _ _ _ hr => hr.congr fun s => by tauto

theorem imply_yields (hw : w.current.WellFormed) (hF : w.current.Denotes f F)
    (hG : w.current.Denotes g G) :
    Yields w (imply f g) fun r m => m.Denotes r fun s => F s → G s :=
  (ite_yields hw hF hG (.one hw.canonical)).imp fun _ _ _ hr => hr.congr fun s => by tauto

theorem diff_yields (hw : w.current.WellFormed) (hF : w.current.Denotes f F)
    (hG : w.current.Denotes g G) :
    Yields w (diff f g) fun r m => m.Denotes r fun s => F s ∧ ¬ G s :=
  (ite_yields hw hG (.zero hw.canonical) hF).imp fun _ _ _ hr => hr.congr fun s => by tauto

theorem implies_yields (hw : w.current.WellFormed) (hF : w.current.Denotes f F)
    (hG : w.current.Denotes g G) :
    Yields w (implies f g) fun b _ => b = true ↔ ∀ s, F s → G s := by
  refine .bind (diff_yields hw hF hG) fun r w' hl hr => .pure hl.after ?_
  rw [decide_eq_true_iff, hr.eq_zero_iff hl.after.canonical]
  simp only [not_and, not_not]

/-- Every round of a loop adds what its item stands for. -/
theorem gather_yields {add : Ref → α → BddM Ref} {P : α → Assignment → Prop} {xs : List α}
    (hw : w.current.WellFormed) (hF : w.current.Denotes f F)
    (hadd : ∀ x ∈ xs, ∀ w' f F, w.Leads w' → w'.current.Denotes f F →
      Yields w' (add f x) fun r m => m.Denotes r fun s => F s ∨ P x s) :
    Yields w (xs.foldlM add f) fun r m => m.Denotes r fun s => F s ∨ ∃ x ∈ xs, P x s := by
  refine foldlM_runs (I := fun before r m => m.Denotes r fun s => F s ∨ ∃ x ∈ before, P x s) hw
    (hF.congr fun s => by simp) ?_
  rintro before x after rfl w' f hl hf
  refine (hadd x (by simp) w' f _ hl hf).imp fun r w1 _ hr => hr.congr fun s => ?_
  simp only [List.mem_append, List.mem_singleton, or_and_right, exists_or, exists_eq_left, or_assoc]

theorem disjMap_yields {make : α → BddM Ref} {P : α → Assignment → Prop} {xs : List α}
    (hw : w.current.WellFormed)
    (hmake : ∀ x ∈ xs, ∀ w', w.Leads w' → Yields w' (make x) fun r m => m.Denotes r (P x)) :
    Yields w (disjMap make xs) fun r m => m.Denotes r fun s => ∃ x ∈ xs, P x s := by
  have hgather := gather_yields (P := P) hw (.zero hw.canonical) fun x hx w' f F hl hF =>
    .bind (hmake x hx w' hl) fun r w1 hl1 hr => disj_yields hl1.after (hl1.denotes hF) hr
  exact hgather.imp fun r w1 _ hr => hr.congr fun s => by simp

theorem conjMap_yields {make : α → BddM Ref} {P : α → Assignment → Prop} {xs : List α}
    (hw : w.current.WellFormed)
    (hmake : ∀ x ∈ xs, ∀ w', w.Leads w' → Yields w' (make x) fun r m => m.Denotes r (P x)) :
    Yields w (conjMap make xs) fun r m => m.Denotes r fun s => ∀ x ∈ xs, P x s := by
  refine foldlM_runs (I := fun before r m => m.Denotes r fun s => ∀ x ∈ before, P x s) hw
    ((Denotes.one hw.canonical).congr fun s => by simp) ?_
  rintro before x after rfl w' f hl hf
  apply Runs.bind (hmake x (by simp) w' hl)
  intro r w1 hl1 hr
  refine (conj_yields hl1.after (hl1.denotes hf) hr).imp fun r w2 _ hr => hr.congr fun s => ?_
  rw [List.forall_mem_append, List.forall_mem_singleton]

theorem conjAll_yields {fs : List (Ref × (Assignment → Prop))} (hw : w.current.WellFormed)
    (hfs : ∀ p ∈ fs, w.current.Denotes p.1 p.2) :
    Yields w (conjAll (fs.map Prod.fst)) fun r m => m.Denotes r fun s => ∀ p ∈ fs, p.2 s := by
  have heq : conjAll (fs.map Prod.fst) = conjMap (fun p => pure p.1) fs := by
    simp only [conjAll, conjMap, List.foldlM_map, pure_bind]
  rw [heq]
  exact conjMap_yields hw fun p hp w' hl => Runs.pure hl.after (hl.denotes (hfs p hp))

theorem disjAll_yields {fs : List (Ref × (Assignment → Prop))} (hw : w.current.WellFormed)
    (hfs : ∀ p ∈ fs, w.current.Denotes p.1 p.2) :
    Yields w (disjAll (fs.map Prod.fst)) fun r m => m.Denotes r fun s => ∃ p ∈ fs, p.2 s := by
  have heq : disjAll (fs.map Prod.fst) = disjMap (fun p => pure p.1) fs := by
    simp only [disjAll, disjMap, List.foldlM_map, pure_bind]
  rw [heq]
  exact disjMap_yields hw fun p hp w' hl => Runs.pure hl.after (hl.denotes (hfs p hp))

end Connectives

end Bdd

end SymbolicAutomata
