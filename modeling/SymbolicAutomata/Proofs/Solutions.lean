import SymbolicAutomata.Proofs.Counting
import SymbolicAutomata.Proofs.Supports
import Mathlib.SetTheory.Cardinal.Finite
/-!
# The number of solutions of a function

A function depends on the variables of its support only, and so does each node below it. Any
variables that cover the support can therefore be counted, at every node over the same ones.
-/
namespace SymbolicAutomata

namespace Manager

variable {m : Manager} {f : Ref} {V : Finset Nat} {n : Node} {i j k v : Nat}

theorem Descendant.trans (h : m.Descendant i j) (h' : m.Descendant j k) : m.Descendant i k := by
  induction h with
  | here i => exact h'
  | side b stored rest ih => exact .side b stored (ih h')

theorem Decides.of_descendant {g : Ref} (hv : m.Decides g v)
    (hg : m.Descendant f.index g.index) : m.Decides f v := by
  obtain ⟨i, n, hd, hn, rfl⟩ := hv
  exact ⟨i, n, hg.trans hd, hn, rfl⟩

/-- Variables that cover the nodes of a function are enough for it. -/
theorem dependsOn_of_decides (h : m.Canonical) (hf : m.Has f)
    (hV : ∀ v, m.Decides f v → v ∈ V) : m.DependsOn f V :=
  fun _ _ hst => eval_congr_of_decides h hf fun v hv => hst v (hV v hv)

/-- The function holds under every assignment that gives the variables these values. -/
def SatisfiedBy (m : Manager) (f : Ref) (a : V → Bool) : Prop :=
  ∀ s : Assignment, (∀ v : V, s v = a v) → m.evaluate f (fun v => .ok (s v)) = .ok true

noncomputable def solutions (m : Manager) (f : Ref) (V : Finset Nat) : Nat :=
  Nat.card {a : V → Bool // m.SatisfiedBy f a}

def trues (a : V → Bool) : Finset Nat := (V.attach.filter fun v => a v).map (.subtype _)

theorem mem_trues {a : V → Bool} : v ∈ trues a ↔ ∃ h : v ∈ V, a ⟨v, h⟩ = true := by
  simp [trues]

theorem trues_subset (a : V → Bool) : trues a ⊆ V := fun _ hv => (mem_trues.1 hv).1

theorem trues_injective : Function.Injective (trues (V := V)) := by
  intro a b hab
  funext v
  have hv : (v : Nat) ∈ trues a ↔ (v : Nat) ∈ trues b := by rw [hab]
  simp only [mem_trues, Subtype.coe_eta, v.2, exists_true_left] at hv
  exact Bool.eq_iff_iff.2 hv

theorem trues_truth {T : Finset Nat} (hT : T ⊆ V) : trues (fun v : V => truth T v) = T := by
  ext v
  rw [mem_trues]
  simp only [truth, decide_eq_true_eq]
  exact ⟨fun hv => hv.snd, fun hv => ⟨hT hv, hv⟩⟩

theorem satisfiedBy_iff (h : m.Canonical) (hf : m.Has f) (hd : m.DependsOn f V) {a : V → Bool} :
    m.SatisfiedBy f a ↔ trues a ∈ m.models V f := by
  have hagree : ∀ v : V, truth (trues a) v = a v := fun v => by
    rw [Bool.eq_iff_iff, truth, decide_eq_true_eq, mem_trues]
    exact ⟨fun hv => hv.snd, fun hv => ⟨v.2, hv⟩⟩
  rw [models, Finset.mem_filter, Finset.mem_powerset, and_iff_right (trues_subset a)]
  constructor
  · exact fun hsat => (h.evaluate_eq_true_iff hf).1 (hsat _ hagree)
  · intro htrue s hs
    rw [h.evaluate_eq_true_iff hf, ← htrue]
    exact hd s _ fun v hv => (hs ⟨v, hv⟩).trans (hagree ⟨v, hv⟩).symm

theorem solutions_eq (h : m.Canonical) (hf : m.Has f) (hd : m.DependsOn f V) :
    m.solutions f V = (m.models V f).card := by
  have hbij : Function.Bijective fun a : {a : V → Bool // m.SatisfiedBy f a} =>
      (⟨trues a.1, (satisfiedBy_iff h hf hd).1 a.2⟩ : {T // T ∈ m.models V f}) := by
    constructor
    · intro a b hab
      exact Subtype.ext (trues_injective (congrArg Subtype.val hab))
    · rintro ⟨T, hT⟩
      have htrues := trues_truth (Finset.mem_powerset.1 (Finset.mem_of_mem_filter T hT))
      refine ⟨⟨fun v => truth T v, (satisfiedBy_iff h hf hd).2 ?_⟩, Subtype.ext htrues⟩
      rwa [htrues]
  rw [solutions, Nat.card_congr (Equiv.ofBijective _ hbij), Nat.card_eq_fintype_card,
    Fintype.card_coe]

/-- The counts of the sides of a node over the same variables add up to twice its own count. -/
theorem count_sides (h : m.Canonical) (hn : m.Stores i n)
    (hV : ∀ v, m.Decides (.of i false) v → v ∈ V) :
    ∃ a b c, m.count n.low V.card = .ok a ∧ m.count n.high V.card = .ok b ∧
      m.count (.of i false) V.card = .ok c ∧ a + b = 2 * c := by
  have hn' : m.Stores (Ref.of i false).index n := by rwa [Ref.of_index]
  have hd := dependsOn_of_decides h hn'.has hV
  have hside := hd.side h hn'
  have hhalf := card_models_node h hn' (Ref.of_negated _ _) (hd.var_mem h hn')
  exact ⟨_, _, _, count_eq h (h.has_side hn false) (hside false),
    count_eq h (h.has_side hn true) (hside true), count_eq h hn'.has hd, hhalf.symm⟩

theorem solutions_le (h : m.Canonical) (hf : m.Has f) (hd : m.DependsOn f V) :
    m.solutions f V ≤ 2 ^ V.card := by
  rw [solutions_eq h hf hd, models, ← Finset.card_powerset]
  exact Finset.card_filter_le _ _

theorem countWord_eq {c : Nat} (hc : m.count f k = .ok c) :
    m.countWord f k = .ok (if c < 2 ^ 64 then c else 2 ^ 64 - 1) := by
  have hmin : min c (Nat.pow 2 64 - 1) = if c < 2 ^ 64 then c else 2 ^ 64 - 1 := by
    change min c (2 ^ 64 - 1) = _
    split_ifs <;> omega
  rw [countWord, hc, ← hmin]
  rfl

end Manager

namespace Session

open Manager

variable {s : Session}

/-- In every reachable session the support of a function is found, and any variables that cover it
can be counted. The count is the number of assignments to these variables that satisfy the
function, that of the complement is the number of the other assignments, and as a word the count is
exact or the largest word. At no node of the function does the halving lose a bit. -/
theorem count_of_reachable {f : Ref} (hs : s.Reachable) (hf : s.workspace.current.Has f) :
    ∃ vs, s.workspace.current.support f = .ok vs ∧ ∀ V : Finset Nat, (∀ v ∈ vs, v ∈ V) →
      s.workspace.current.solutions f V ≤ 2 ^ V.card ∧
      s.workspace.current.count f V.card = .ok (s.workspace.current.solutions f V) ∧
      s.workspace.current.count (-f) V.card =
        .ok (2 ^ V.card - s.workspace.current.solutions f V) ∧
      s.workspace.current.countWord f V.card =
        .ok (if s.workspace.current.solutions f V < 2 ^ 64 then s.workspace.current.solutions f V
          else 2 ^ 64 - 1) ∧
      ∀ i n, s.workspace.current.Descendant f.index i → s.workspace.current.Stores i n →
        ∃ a b c, s.workspace.current.count n.low V.card = .ok a ∧
          s.workspace.current.count n.high V.card = .ok b ∧
          s.workspace.current.count (.of i false) V.card = .ok c ∧ a + b = 2 * c := by
  have hc := hs.good.wellFormed.canonical
  obtain ⟨vs, hvs, -, hmem⟩ := support_spec hc hf
  refine ⟨vs, hvs, fun V hcover => ?_⟩
  have hV : ∀ v, s.workspace.current.Decides f v → v ∈ V := fun v hv => hcover v ((hmem v).2 hv)
  have hd := dependsOn_of_decides hc hf hV
  have hd' : s.workspace.current.DependsOn (-f) V := fun a b hab => by
    rw [hc.eval_neg hf, hc.eval_neg hf, hd a b hab]
  have hcount := count_eq hc hf hd
  have hneg := count_eq hc (has_neg.2 hf) hd'
  rw [card_models_neg hc hf, ← solutions_eq hc hf hd] at hneg
  rw [← solutions_eq hc hf hd] at hcount
  refine ⟨solutions_le hc hf hd, hcount, hneg, countWord_eq hcount, fun i n hi hn => ?_⟩
  refine count_sides hc hn fun v hv => hV v (hv.of_descendant ?_)
  rwa [Ref.of_index]

/-- Of the eight assignments to three variables, all but two satisfy a disjunction of two of the
variables. -/
theorem count_of_reachable_disj : ∃ (s : Session) (f : Ref), s.Reachable ∧
    s.workspace.current.Has f ∧ s.workspace.current.support f = .ok [1, 5] ∧
    s.workspace.current.solutions f {1, 3, 5} = 6 ∧
    s.workspace.current.count f 3 = .ok 6 ∧ s.workspace.current.count (-f) 3 = .ok 2 ∧
    s.workspace.current.countWord f 3 = .ok 6 := by
  have hruns : ∃ m, Manager.new 0 1 1 = .ok m ∧ ∃ a w,
      Client.run (.call (.literal 1) fun xs => .call (.literal 5) fun ys =>
        .call (.disj (xs.headD .one) (ys.headD .one)) fun zs => .done (zs.headD .one)) []
        ⟨m, []⟩ = .ok a w ∧ (∃ vs, w.current.support a.1 = .ok vs ∧ vs = [1, 5]) ∧
        ∃ c, w.current.count a.1 3 = .ok c ∧ c = 6 := by
    decide +kernel
  obtain ⟨m, hm, ⟨f, known⟩, w, hrun, ⟨_, hsupport, rfl⟩, _, hsix, rfl⟩ := hruns
  have hs : Reachable ⟨w, f :: known⟩ := ⟨_, .new [] hm, .single (.returns hrun)⟩
  have hf := hs.good.knows f List.mem_cons_self
  obtain ⟨vs, hvs, hall⟩ := count_of_reachable hs hf
  obtain rfl : vs = [1, 5] := Except.ok.inj (hvs.symm.trans hsupport)
  obtain ⟨-, hcount, hneg, hword, -⟩ := hall {1, 3, 5} (by simp)
  have hsolutions : w.current.solutions f {1, 3, 5} = 6 :=
    Except.ok.inj (hcount.symm.trans hsix)
  rw [hsolutions] at hneg hword
  exact ⟨_, f, hs, hf, hsupport, hsolutions, hsix, hneg, hword⟩

end Session

end SymbolicAutomata
