import SymbolicAutomata.Proofs.Numbers
import SymbolicAutomata.Proofs.Sessions
/-!
# The variables that a function depends on

The walk over the nodes of a function comes to the cells below its root, so the support consists of
the variables that these nodes decide. The function depends on each of them: the sides of a node
are different functions, and an assignment that tells them apart can be changed so that it leads
from the root to the node.
-/
namespace SymbolicAutomata

namespace Manager

variable {m : Manager} {f : Ref} {n : Node} {i j k v : Nat} {s t : Assignment}
  {seen seen' : Std.TreeSet Nat}

/-- Cell `j` is reached from cell `i` through the sides of nodes. -/
inductive Descendant (m : Manager) : Nat → Nat → Prop
  | here (i : Nat) : Descendant m i i
  | side {i j : Nat} {n : Node} (b : Bool) (stored : m.Stores i n)
      (rest : Descendant m (n.side b).index j) : Descendant m i j

theorem descendant_iff (hn : m.Stores i n) :
    m.Descendant i j ↔ i = j ∨ ∃ b, m.Descendant (n.side b).index j := by
  constructor
  · intro h
    cases h with
    | here => exact .inl rfl
    | side b stored rest =>
      obtain rfl := hn.unique stored
      exact .inr ⟨b, rest⟩
  · rintro (rfl | ⟨b, h⟩)
    · exact .here i
    · exact .side b hn h

theorem Descendant.then_side (h : m.Descendant i j) (hn : m.Stores j n) (b : Bool) :
    m.Descendant i (n.side b).index := by
  induction h with
  | here i => exact .side b hn (.here _)
  | side b' stored rest ih => exact .side b' stored (ih hn)

theorem Descendant.has (hd : m.Descendant i j) (h : m.Canonical) (hi : 0 < i ∧ i ≤ m.nodeCount) :
    0 < j ∧ j ≤ m.nodeCount := by
  induction hd with
  | here i => exact hi
  | side b stored rest ih => exact ih (h.has_side stored b)

section Walk

/-- The sides of the seen nodes have been seen, for nodes in cells up to `k`. -/
def Closed (m : Manager) (seen : Std.TreeSet Nat) (k : Nat) : Prop :=
  ∀ i ∈ seen, i ≤ k → ∀ n, m.Stores i n → ∀ b, (n.side b).index ∈ seen

theorem Closed.mem (hc : m.Closed seen k) (h : m.Canonical) (hd : m.Descendant i j)
    (hi : i ∈ seen) (hk : i ≤ k) : j ∈ seen := by
  induction hd with
  | here i => exact hi
  | side b stored rest ih =>
    have hlt := h.side_index_lt stored b
    exact ih (hc _ hi hk _ stored b) (by omega)

theorem Closed.mono (hc : m.Closed seen k) (hj : j ≤ k) : m.Closed seen j :=
  fun i hi hij => hc i hi (by omega)

/-- A cell above the bound may be seen before its sides are. -/
theorem Closed.insert (hc : m.Closed seen k) (hi : k < i) : m.Closed (seen.insert i) k := by
  intro j hj hk n hn b
  rcases mem_insert.1 hj with rfl | hj
  · omega
  · exact mem_insert.2 (.inr (hc j hj hk n hn b))

theorem Closed.add (hc : m.Closed seen k)
    (hadd : ∀ j, j ∈ seen' ↔ j ∈ seen ∨ m.Descendant i j) : m.Closed seen' k := by
  intro j hj hk n hn b
  rcases (hadd j).1 hj with hj | hd
  · exact (hadd _).2 (.inl (hc j hj hk n hn b))
  · exact (hadd _).2 (.inr (hd.then_side hn b))

/-- The walk adds the cells below its root. A cell is noted before its sides are, which the walk
from a side does not see, as the cell comes after all cells below it. -/
theorem descendantsFrom_spec (h : m.Canonical) {fuel : Nat} (hf : m.Has f) (hfuel : f.index < fuel)
    (hone : 1 ∈ seen) (hc : m.Closed seen f.index) :
    ∃ seen', m.descendantsFrom fuel f seen = .ok seen' ∧
      ∀ j, j ∈ seen' ↔ j ∈ seen ∨ m.Descendant f.index j := by
  induction fuel generalizing f seen with
  | zero => omega
  | succ fuel ih =>
    unfold descendantsFrom
    by_cases hknown : f.index ∈ seen
    · rw [if_pos (Std.TreeSet.contains_iff_mem.2 hknown)]
      refine ⟨seen, rfl, fun j => ?_⟩
      exact (or_iff_left_of_imp fun hd => hc.mem h hd hknown (Nat.le_refl _)).symm
    rw [if_neg (mt Std.TreeSet.contains_iff_mem.1 hknown)]
    obtain ⟨n, hn⟩ := (h.cases hf).resolve_left fun h1 => hknown (h1 ▸ hone)
    have hlt := h.side_index_lt hn
    have hwalk : ∀ (b : Bool) (seen : Std.TreeSet Nat), 1 ∈ seen →
        m.Closed seen (n.side b).index →
        ∃ seen', m.descendantsFrom fuel ((n.side b).negIf f.negated) seen = .ok seen' ∧
          ∀ j, j ∈ seen' ↔ j ∈ seen ∨ m.Descendant (n.side b).index j := by
      intro b seen hone hc
      have hspec := @ih ((n.side b).negIf f.negated) seen
      rw [negIf_index] at hspec
      exact hspec (has_negIf.2 (h.has_side hn b)) (by have := hlt b; omega) hone hc
    obtain ⟨seen₁, hlow, hmem₁⟩ := hwalk false (seen.insert f.index)
      (mem_insert.2 (.inr hone)) ((hc.mono (hlt false).le).insert (hlt false))
    obtain ⟨seen₂, hhigh, hmem₂⟩ := hwalk true seen₁
      ((hmem₁ 1).2 (.inl (mem_insert.2 (.inr hone))))
      (((hc.mono (hlt true).le).insert (hlt true)).add hmem₁)
    refine ⟨seen₂, ?_, fun j => ?_⟩
    · rw [hn.low, hn.high]
      change (m.descendantsFrom fuel ((n.side false).negIf f.negated) _ >>= _) = _
      rw [hlow]
      exact hhigh
    · rw [hmem₂, hmem₁, mem_insert, descendant_iff hn, Bool.exists_bool]
      tauto

theorem foldlM_descendantsFrom_spec (h : m.Canonical) {fs : List Ref} (hfs : ∀ f ∈ fs, m.Has f)
    (hone : 1 ∈ seen) (hc : ∀ k, m.Closed seen k) :
    ∃ seen', fs.foldlM (fun seen f => m.descendantsFrom m.depthBound f seen) seen = .ok seen' ∧
      ∀ j, j ∈ seen' ↔ j ∈ seen ∨ ∃ f ∈ fs, m.Descendant f.index j := by
  induction fs generalizing seen with
  | nil => exact ⟨seen, rfl, by simp⟩
  | cons f fs ih =>
    have hf := hfs f (by simp)
    obtain ⟨seen₁, h₁, hmem₁⟩ := descendantsFrom_spec h hf hf.lt_depthBound hone (hc _)
    obtain ⟨seen₂, h₂, hmem₂⟩ := ih (fun g hg => hfs g (by simp [hg])) ((hmem₁ 1).2 (.inl hone))
      fun k => (hc k).add hmem₁
    refine ⟨seen₂, ?_, fun j => ?_⟩
    · rw [List.foldlM_cons, h₁]
      exact h₂
    · rw [hmem₂, hmem₁, or_assoc]
      simp

/-- The descendants of some functions are the terminal and the cells below the roots, in ascending
order. -/
theorem descendants_spec (h : m.Canonical) {fs : List Ref} (hfs : ∀ f ∈ fs, m.Has f) :
    ∃ is, m.descendants fs = .ok is ∧ is.Pairwise (· < ·) ∧
      ∀ j, j ∈ is ↔ j = 1 ∨ ∃ f ∈ fs, m.Descendant f.index j := by
  have hstart : ∀ j, j ∈ Std.TreeSet.ofList [Ref.one.index] ↔ j = 1 := fun j => by
    rw [Std.TreeSet.mem_ofList, List.contains_iff_mem, List.mem_singleton]
    rfl
  obtain ⟨seen, hrun, hmem⟩ := foldlM_descendantsFrom_spec h hfs ((hstart 1).2 rfl)
    fun k i hi hk n hn => by
      have := hn.1
      have := (hstart i).1 hi
      omega
  refine ⟨seen.toList, ?_, ?_, fun j => ?_⟩
  · unfold descendants
    rw [hrun]
    rfl
  · exact ascending_toList _
  · rw [Std.TreeSet.mem_toList, hmem, hstart]

end Walk

def Decides (m : Manager) (f : Ref) (v : Nat) : Prop :=
  ∃ i n, m.Descendant f.index i ∧ m.Stores i n ∧ n.var = v

theorem decides_root (hn : m.Stores f.index n) : m.Decides f n.var := ⟨_, n, .here _, hn, rfl⟩

theorem Decides.of_side (hn : m.Stores f.index n) {b : Bool} (hv : m.Decides (n.side b) v) :
    m.Decides f v := by
  obtain ⟨i, k, hd, hk, rfl⟩ := hv
  exact ⟨i, k, .side b hn hd, hk, rfl⟩

theorem support_spec (h : m.Canonical) (hf : m.Has f) :
    ∃ vs, m.support f = .ok vs ∧ vs.Pairwise (· < ·) ∧ ∀ v, v ∈ vs ↔ m.Decides f v := by
  have hroot : ∀ g ∈ [f], m.Has g := by simpa using hf
  obtain ⟨is, his, -, hmem⟩ := descendants_spec h hroot
  simp only [List.mem_singleton, exists_eq_left] at hmem
  have hhas : ∀ i ∈ is, m.Has (.of i false) := by
    intro i hi
    rw [Has, Ref.of_index]
    rcases (hmem i).1 hi with rfl | hd
    · exact h.has_one
    · exact hd.has h hf
  have hvars : is.mapM (fun i => m.var (.of i false)) =
      .ok (is.map fun i => m.rootVar (.of i false)) :=
    Bdd.mapM_eq_ok fun i hi => h.var_eq (hhas i hi)
  refine ⟨(Std.TreeSet.ofList ((is.map fun i => m.rootVar (.of i false)).filter (· ≠ 0))).toList,
    ?_, ?_, fun v => ?_⟩
  · simp only [support, his, hvars, bind, Except.bind, pure, Except.pure]
  · exact ascending_toList _
  rw [Std.TreeSet.mem_toList, Std.TreeSet.mem_ofList, List.contains_iff_mem]
  simp only [List.mem_filter, List.mem_map, decide_eq_true_eq]
  constructor
  · rintro ⟨⟨i, hi, rfl⟩, hv⟩
    obtain ⟨n, hn⟩ := (h.cases (hhas i hi)).resolve_left fun h1 => hv (h.rootVar_terminal h1)
    rw [rootVar_stores hn]
    rw [Ref.of_index] at hn
    have hne : i ≠ 1 := by have := hn.1; omega
    exact ⟨i, n, ((hmem i).1 hi).resolve_left hne, hn, rfl⟩
  · rintro ⟨i, n, hd, hn, rfl⟩
    have hpos := (h.orderly i n hn).var_pos
    refine ⟨⟨i, (hmem i).2 (.inr hd), rootVar_stores ?_⟩, by omega⟩
    rwa [Ref.of_index]

section Sensitivity

/-- Two assignments that differ in the variable at most tell the function apart. -/
def Sensitive (m : Manager) (f : Ref) (v : Nat) : Prop :=
  ∃ s t : Assignment, (∀ u, u ≠ v → s u = t u) ∧ m.eval f s ≠ m.eval f t

theorem sensitive_root (h : m.Canonical) (hn : m.Stores f.index n) : m.Sensitive f n.var := by
  have ho := h.orderly _ n hn
  have hdiffer : ¬ ∀ s, m.eval n.low s = m.eval n.high s := fun hall =>
    ho.differ (h.eq_of_eval_eq ho.low ho.high hall)
  obtain ⟨s, hs⟩ := not_forall.1 hdiffer
  refine ⟨Function.update s n.var false, Function.update s n.var true, fun u hu => ?_,
    fun hsame => ?_⟩
  · rw [Function.update_of_ne hu, Function.update_of_ne hu]
  · rw [h.eval_low hn, h.eval_high hn, hsame] at hs
    exact hs rfl

theorem eval_update_side (h : m.Canonical) (hn : m.Stores f.index n) (b : Bool) (s : Assignment) :
    m.eval f (Function.update s n.var b) = (f.negated ^^ m.eval (n.side b) s) := by
  cases b
  · rw [Node.side, if_neg Bool.false_ne_true, h.eval_low hn]
    simp
  · rw [Node.side, if_pos rfl, h.eval_high hn]
    simp

/-- What tells a side apart also tells the function apart, on the way to that side. -/
theorem Sensitive.of_side (h : m.Canonical) (hn : m.Stores f.index n) {b : Bool}
    (hv : m.Sensitive (n.side b) v) : m.Sensitive f v := by
  obtain ⟨s, t, hst, hne⟩ := hv
  refine ⟨Function.update s n.var b, Function.update t n.var b, fun u hu => ?_,
    fun hsame => hne ?_⟩
  · simp only [Function.update_apply, hst u hu]
  · rw [eval_update_side h hn, eval_update_side h hn] at hsame
    simpa using hsame

theorem Decides.sensitive (hv : m.Decides f v) (h : m.Canonical) : m.Sensitive f v := by
  obtain ⟨i, n, hd, hn, rfl⟩ := hv
  generalize hj : f.index = j at hd
  induction hd generalizing f with
  | here i =>
    subst hj
    exact sensitive_root h hn
  | side b stored rest ih =>
    subst hj
    exact (ih hn rfl).of_side h stored

theorem eval_congr_of_decides (h : m.Canonical) (hf : m.Has f)
    (hst : ∀ v, m.Decides f v → s v = t v) : m.eval f s = m.eval f t := by
  induction hi : f.index using Nat.strongRecOn generalizing f with
  | _ i ih =>
    subst hi
    rcases h.cases hf with h1 | ⟨n, hn⟩
    · rcases eq_one_or_zero h1 with rfl | rfl <;> simp [h]
    · have hside : ∀ b, m.eval (n.side b) s = m.eval (n.side b) t := fun b =>
        ih _ (h.side_index_lt hn b) (h.has_side hn b) (fun v hv => hst v (hv.of_side hn)) rfl
      rw [h.eval_node hn, h.eval_node hn, hst _ (decides_root hn)]
      split_ifs
      · rw [show m.eval n.high s = m.eval n.high t from hside true]
      · rw [show m.eval n.low s = m.eval n.low t from hside false]

theorem sensitive_iff_decides (h : m.Canonical) (hf : m.Has f) :
    m.Sensitive f v ↔ m.Decides f v := by
  refine ⟨?_, fun hv => hv.sensitive h⟩
  rintro ⟨s, t, hst, hne⟩
  by_contra hv
  exact hne (eval_congr_of_decides h hf fun u hu => hst u fun heq => hv (heq ▸ hu))

theorem sensitive_iff_evaluate (h : m.Canonical) (hf : m.Has f) :
    m.Sensitive f v ↔ ∃ s t : Assignment, (∀ u, u ≠ v → s u = t u) ∧
      ∃ b c, m.evaluate f (fun u => .ok (s u)) = .ok b ∧
        m.evaluate f (fun u => .ok (t u)) = .ok c ∧ b ≠ c := by
  refine exists₂_congr fun s t => and_congr_right fun _ => ?_
  simp [h.evaluate_eq hf]

end Sensitivity

end Manager

namespace Session

open Manager

variable {s : Session}

/-- In every reachable session the support of a function is found. It lists its variables in
ascending order, and a variable is listed if and only if two assignments that differ in no other
variable give the function different values. -/
theorem support_of_reachable {f : Ref} (hs : s.Reachable) (hf : s.workspace.current.Has f) :
    ∃ vs, s.workspace.current.support f = .ok vs ∧ vs.Pairwise (· < ·) ∧
      ∀ v, v ∈ vs ↔ ∃ a b : Assignment, (∀ u, u ≠ v → a u = b u) ∧
        ∃ x y, s.workspace.current.evaluate f (fun u => .ok (a u)) = .ok x ∧
          s.workspace.current.evaluate f (fun u => .ok (b u)) = .ok y ∧ x ≠ y := by
  have hc := hs.good.wellFormed.canonical
  obtain ⟨vs, hvs, hsorted, hmem⟩ := support_spec hc hf
  refine ⟨vs, hvs, hsorted, fun v => ?_⟩
  rw [hmem, ← sensitive_iff_decides hc hf, sensitive_iff_evaluate hc hf]

/-- An exclusive disjunction out of which one of its variables is taken again depends on the other
one only. -/
theorem support_of_reachable_exor : ∃ (s : Session) (f : Ref), s.Reachable ∧
    s.workspace.current.Has f ∧ s.workspace.current.support f = .ok [3] ∧
    ∀ v, v ∈ [3] ↔ ∃ a b : Assignment, (∀ u, u ≠ v → a u = b u) ∧
      ∃ x y, s.workspace.current.evaluate f (fun u => .ok (a u)) = .ok x ∧
        s.workspace.current.evaluate f (fun u => .ok (b u)) = .ok y ∧ x ≠ y := by
  have hruns : ∃ m, Manager.new 0 1 1 = .ok m ∧ ∃ a w,
      Client.run (.call (.literal 1) fun xs => .call (.literal 3) fun ys =>
        .call (.exor (xs.headD .one) (ys.headD .one)) fun zs =>
        .call (.exor (zs.headD .one) (xs.headD .one)) fun us => .done (us.headD .one)) []
        ⟨m, []⟩ = .ok a w ∧ ∃ vs, w.current.support a.1 = .ok vs ∧ vs = [3] := by
    decide +kernel
  obtain ⟨m, hm, ⟨f, known⟩, w, hrun, _, hsupport, rfl⟩ := hruns
  have hs : Reachable ⟨w, f :: known⟩ := ⟨_, .new [] hm, .single (.returns hrun)⟩
  have hf := hs.good.knows f List.mem_cons_self
  obtain ⟨vs, hvs, -, hmem⟩ := support_of_reachable hs hf
  obtain rfl : vs = [3] := Except.ok.inj (hvs.symm.trans hsupport)
  exact ⟨_, f, hs, hf, hsupport, hmem⟩

end Session

end SymbolicAutomata
