import SymbolicAutomata.Splitting
import SymbolicAutomata.Proofs.Substitutions
import Mathlib.Data.List.Nodup
import Mathlib.Data.List.Perm.Subperm
/-!
# What remains of a function below a level

Under an assignment of the variables below a level one function of the later variables remains. The
walk over these variables goes down the low side of each node first and enters each reference once,
so it lists each remaining function once; the loop with a stack takes the same way. What remains is
also found by fixing all variables below the level.
-/
namespace SymbolicAutomata

namespace Manager

variable {m m' : Manager} {level : Nat} {f g t u : Ref} {n : Node} {s s' : Assignment}

def DecidedBelow (m : Manager) (level : Nat) (f : Ref) : Prop :=
  ∀ n, m.Stores f.index n → level ≤ n.var

theorem not_decidedBelow :
    ¬ m.DecidedBelow level f ↔ ∃ n, m.Stores f.index n ∧ n.var < level := by
  simp [DecidedBelow]

/-- With the variables below the level as in `s`, the function `f` is `t`. -/
structure Remains (m : Manager) (level : Nat) (f : Ref) (s : Assignment) (t : Ref) : Prop where
  has : m.Has t
  decided : m.DecidedBelow level t
  same : ∀ s', (∀ v < level, s' v = s v) → m.eval t s' = m.eval f s'

theorem DecidedBelow.eval_congr (hd : m.DecidedBelow level t) (h : m.Canonical) (ht : m.Has t)
    (hs : ∀ v, level ≤ v → s v = s' v) : m.eval t s = m.eval t s' := by
  rcases h.cases ht with h1 | ⟨n, hn⟩
  · rcases eq_one_or_zero h1 with rfl | rfl <;> simp [h]
  · have hle := hd n hn
    refine h.eval_congr ht (v := n.var - 1) (fun k hk => ?_) fun v hv => hs v (by omega)
    obtain rfl := hn.unique hk
    have := (h.orderly _ n hn).var_pos
    omega

theorem Remains.eval_mix (ht : m.Remains level f s t) (h : m.Canonical) (s' : Assignment) :
    m.eval t s' = m.eval f fun v => if v < level then s v else s' v := by
  rw [← ht.same _ fun v hv => if_pos hv]
  exact ht.decided.eval_congr h ht.has fun v hv => (if_neg (by omega)).symm

theorem Remains.denotes (ht : m.Remains level f s t) (h : m.Canonical) {F : Assignment → Prop}
    (hf : m.Denotes f F) : m.Denotes t fun s' => F fun v => if v < level then s v else s' v :=
  ⟨ht.has, fun s' => by rw [ht.eval_mix h, hf.holds]⟩

theorem Remains.unique (h : m.Canonical) (ht : m.Remains level f s t)
    (hu : m.Remains level f s u) : t = u :=
  h.eq_of_eval_eq ht.has hu.has fun s' => by rw [ht.eval_mix h, hu.eval_mix h]

theorem DecidedBelow.remains (hd : m.DecidedBelow level f) (hf : m.Has f) (s : Assignment) :
    m.Remains level f s f := ⟨hf, hd, fun _ _ => rfl⟩

theorem Remains.eq_of_decided (h : m.Canonical) (ht : m.Remains level f s t)
    (hd : m.DecidedBelow level f) (hf : m.Has f) : t = f := ht.unique h (hd.remains hf s)

/-- What remains of a node below the level remains of the side that is chosen. -/
theorem remains_side (h : m.Canonical) (hn : m.Stores f.index n) (hv : n.var < level) :
    m.Remains level f s t ↔ m.Remains level ((n.side (s n.var)).negIf f.negated) s t := by
  have hside : ∀ s', (∀ v < level, s' v = s v) →
      m.eval f s' = m.eval ((n.side (s n.var)).negIf f.negated) s' := fun s' hs => by
    rw [h.eval_side hn, hs _ hv]
  constructor
  · intro ht
    exact ⟨ht.has, ht.decided, fun s' hs => (ht.same s' hs).trans (hside s' hs)⟩
  · intro ht
    exact ⟨ht.has, ht.decided, fun s' hs => (ht.same s' hs).trans (hside s' hs).symm⟩

/-- A function is met when variables below the level are decided one after the other. -/
inductive Passes (m : Manager) (level : Nat) : Ref → Ref → Prop
  | here (f : Ref) : Passes m level f f
  | step {f g : Ref} {n : Node} (b : Bool) (stored : m.Stores f.index n) (below : n.var < level)
      (rest : Passes m level ((n.side b).negIf f.negated) g) : Passes m level f g

theorem Passes.has (h : m.Canonical) (hp : m.Passes level f g) (hf : m.Has f) : m.Has g := by
  induction hp with
  | here f => exact hf
  | step b stored below rest ih => exact ih (h.side_spec stored b).1

theorem Passes.trans (hp : m.Passes level f g) (hq : m.Passes level g t) :
    m.Passes level f t := by
  induction hp with
  | here f => exact hq
  | step b stored below rest ih => exact .step b stored below (ih hq)

/-- A function without variables below the level remains wherever it is met. -/
theorem Passes.remains (h : m.Canonical) (hp : m.Passes level f t) (hf : m.Has f)
    (hd : m.DecidedBelow level t) : ∃ s, m.Remains level f s t := by
  induction hp with
  | here f => exact ⟨fun _ => false, hd.remains hf _⟩
  | @step f t n b stored below rest ih =>
    obtain ⟨hhas, -, habove⟩ := h.side_spec stored b
    obtain ⟨s, hs⟩ := ih hhas hd
    refine ⟨Function.update s n.var b, (remains_side h stored below).2 ?_⟩
    rw [Function.update_self]
    refine ⟨hs.has, hd, fun s' hs' => ?_⟩
    have hback := hs.same (Function.update s' n.var (s n.var)) fun v hv => by
      rcases eq_or_ne v n.var with rfl | hne
      · rw [Function.update_self]
      · rw [Function.update_of_ne hne, hs' v hv, Function.update_of_ne hne]
    have hbelow : ∀ v, level ≤ v → s' v = Function.update s' n.var (s n.var) v := fun v hv =>
      (Function.update_of_ne (by omega) _ _).symm
    rw [hd.eval_congr h hs.has hbelow, hback]
    exact h.eval_congr hhas habove fun v hv => Function.update_of_ne (by omega) _ _

theorem exists_remains (h : m.Canonical) (hf : m.Has f) (level : Nat) (s : Assignment) :
    ∃ t, m.Remains level f s t ∧ m.Passes level f t := by
  induction hi : f.index using Nat.strongRecOn generalizing f with
  | _ i ih =>
    subst hi
    by_cases hd : m.DecidedBelow level f
    · exact ⟨f, hd.remains hf s, .here f⟩
    · obtain ⟨n, hn, hv⟩ := not_decidedBelow.1 hd
      obtain ⟨hhas, hlt, -⟩ := h.side_spec hn (s n.var)
      obtain ⟨t, ht, hp⟩ := ih _ hlt hhas rfl
      exact ⟨t, (remains_side h hn hv).2 ht, .step _ hn hv hp⟩

theorem Grows.decidedBelow (hg : m.Grows m') (hf : m.Has f) :
    m'.DecidedBelow level f ↔ m.DecidedBelow level f := by
  simp only [DecidedBelow, hg.stores_iff hf.2]

theorem Canonical.decidedBelow_eq (h : m.Canonical) (hf : m.Has f)
    [Decidable (m.DecidedBelow level f)] :
    m.decidedBelow level f = .ok (decide (m.DecidedBelow level f)) := by
  unfold decidedBelow
  rcases h.cases hf with h1 | ⟨n, hn⟩
  · have hd : m.DecidedBelow level f := fun n hn => by have := hn.1; omega
    simp [isTerminal_iff.2 h1, hd]
  · have hd : m.DecidedBelow level f ↔ level ≤ n.var :=
      ⟨fun hd => hd n hn, fun hle k hk => hn.unique hk ▸ hle⟩
    simp [hn.isTerminal, hn.var, hd, bind, Except.bind, pure, Except.pure]

theorem mem_insert {α : Type} [Ord α] [Std.TransOrd α] [Std.LawfulEqOrd α]
    {visited : Std.TreeSet α} {x y : α} : y ∈ visited.insert x ↔ y = x ∨ y ∈ visited := by
  rw [Std.TreeSet.mem_insert, Std.LawfulEqOrd.compare_eq_iff_eq, eq_comm]

/-- The walk from `f` enters what it has not entered before, and keeps the listed functions. What is
decided it keeps, and from any other node it goes to the low side and then to the high side. -/
inductive Walks (m : Manager) (level : Nat) :
    Ref → Std.TreeSet Ref → List Ref → Std.TreeSet Ref → Prop
  | again {f : Ref} {visited : Std.TreeSet Ref} (entered : f ∈ visited) :
      Walks m level f visited [] visited
  | keep {f : Ref} {visited : Std.TreeSet Ref} (new : f ∉ visited)
      (decided : m.DecidedBelow level f) : Walks m level f visited [f] (visited.insert f)
  | sides {f : Ref} {n : Node} {ts us : List Ref} {visited visited₁ visited' : Std.TreeSet Ref}
      (new : f ∉ visited) (stored : m.Stores f.index n) (below : n.var < level)
      (low : Walks m level ((n.side false).negIf f.negated) (visited.insert f) ts visited₁)
      (high : Walks m level ((n.side true).negIf f.negated) visited₁ us visited') :
      Walks m level f visited (ts ++ us) visited'

variable {visited visited' : Std.TreeSet Ref} {ts : List Ref}

/-- Each walk comes to its end, since the sides have smaller indices. -/
theorem exists_walks (h : m.Canonical) (hf : m.Has f) (level : Nat) (visited : Std.TreeSet Ref) :
    ∃ ts visited', m.Walks level f visited ts visited' := by
  induction hi : f.index using Nat.strongRecOn generalizing f visited with
  | _ i ih =>
    subst hi
    by_cases hnew : f ∈ visited
    · exact ⟨_, _, .again hnew⟩
    by_cases hd : m.DecidedBelow level f
    · exact ⟨_, _, .keep hnew hd⟩
    · obtain ⟨n, hn, hv⟩ := not_decidedBelow.1 hd
      have hside := h.side_spec hn
      obtain ⟨ts, visited₁, hlow⟩ := ih _ (hside false).2.1 (hside false).1 (visited.insert f) rfl
      obtain ⟨us, visited₂, hhigh⟩ := ih _ (hside true).2.1 (hside true).1 visited₁ rfl
      exact ⟨_, _, .sides hnew hn hv hlow hhigh⟩

theorem Walks.mono (hw : m.Walks level f visited ts visited') (hg : g ∈ visited) :
    g ∈ visited' := by
  induction hw with
  | again entered => exact hg
  | keep new decided => exact mem_insert.2 (.inr hg)
  | sides new stored below low high ihlow ihhigh =>
    exact ihhigh (ihlow (mem_insert.2 (.inr hg)))

theorem Walks.entered (hw : m.Walks level f visited ts visited') : f ∈ visited' := by
  cases hw with
  | again entered => exact entered
  | keep new decided => exact mem_insert.2 (.inl rfl)
  | sides new stored below low high => exact high.mono (low.mono (mem_insert.2 (.inl rfl)))

theorem Walks.kept (hw : m.Walks level f visited ts visited') (ht : t ∈ ts) :
    t ∉ visited ∧ t ∈ visited' ∧ m.DecidedBelow level t := by
  induction hw with
  | again entered => simp at ht
  | keep new decided =>
    obtain rfl := List.mem_singleton.1 ht
    exact ⟨new, mem_insert.2 (.inl rfl), decided⟩
  | sides new stored below low high ihlow ihhigh =>
    rcases List.mem_append.1 ht with ht | ht
    · obtain ⟨hnew, hmem, hd⟩ := ihlow ht
      exact ⟨fun h => hnew (mem_insert.2 (.inr h)), high.mono hmem, hd⟩
    · obtain ⟨hnew, hmem, hd⟩ := ihhigh ht
      exact ⟨fun h => hnew (low.mono (mem_insert.2 (.inr h))), hmem, hd⟩

theorem Walks.nodup (hw : m.Walks level f visited ts visited') : ts.Nodup := by
  induction hw with
  | again entered => exact List.nodup_nil
  | keep new decided => exact List.nodup_singleton _
  | sides new stored below low high ihlow ihhigh =>
    refine List.nodup_append'.2 ⟨ihlow, ihhigh, fun t hlow hhigh => ?_⟩
    exact (high.kept hhigh).1 (low.kept hlow).2.1

theorem Walks.met (hw : m.Walks level f visited ts visited') (hg : g ∈ visited') :
    g ∈ visited ∨ m.Passes level f g := by
  induction hw with
  | again entered => exact .inl hg
  | keep new decided =>
    rcases mem_insert.1 hg with rfl | hg
    · exact .inr (.here g)
    · exact .inl hg
  | sides new stored below low high ihlow ihhigh =>
    rcases ihhigh hg with hg | hp
    · rcases ihlow hg with hg | hp
      · rcases mem_insert.1 hg with rfl | hg
        · exact .inr (.here g)
        · exact .inl hg
      · exact .inr (.step false stored below hp)
    · exact .inr (.step true stored below hp)

/-- What the walk enters it has kept, or it has entered both sides. -/
theorem Walks.left (hw : m.Walks level f visited ts visited') (hg : g ∈ visited') :
    g ∈ visited ∨ (m.DecidedBelow level g → g ∈ ts) ∧
      ∀ n, m.Stores g.index n → n.var < level → ∀ b, (n.side b).negIf g.negated ∈ visited' := by
  induction hw with
  | again entered => exact .inl hg
  | @keep f visited new decided =>
    rcases mem_insert.1 hg with rfl | hg
    · refine .inr ⟨fun _ => List.mem_singleton_self _, fun n hn hv => ?_⟩
      have := decided n hn
      omega
    · exact .inl hg
  | @sides f n ts us visited visited₁ visited' new stored below low high ihlow ihhigh =>
    rcases ihhigh hg with hg | ⟨hkept, hsides⟩
    · rcases ihlow hg with hg | ⟨hkept, hsides⟩
      · rcases mem_insert.1 hg with rfl | hg
        · refine .inr ⟨fun hd => ?_, fun k hk _ b => ?_⟩
          · have := hd n stored
            omega
          · obtain rfl := stored.unique hk
            cases b
            · exact high.mono low.entered
            · exact high.entered
        · exact .inl hg
      · exact .inr ⟨fun hd => List.mem_append_left us (hkept hd),
          fun k hk hv b => high.mono (hsides k hk hv b)⟩
    · exact .inr ⟨fun hd => List.mem_append_right ts (hkept hd), hsides⟩

/-- A walk that starts afresh keeps whatever it meets without variables below the level. -/
theorem Walks.mem_of_passes (hw : m.Walks level f ∅ ts visited') (hp : m.Passes level g t)
    (hg : g ∈ visited') (hd : m.DecidedBelow level t) : t ∈ ts := by
  induction hp with
  | here g => exact ((hw.left hg).resolve_left (by simp)).1 hd
  | step b stored below rest ih =>
    exact ih (((hw.left hg).resolve_left (by simp)).2 _ stored below b) hd

theorem Walks.mem_iff (hw : m.Walks level f ∅ ts visited') (h : m.Canonical) (hf : m.Has f) :
    t ∈ ts ↔ ∃ s, m.Remains level f s t := by
  constructor
  · intro ht
    obtain ⟨-, hmem, hd⟩ := hw.kept ht
    exact ((hw.met hmem).resolve_left (by simp)).remains h hf hd
  · rintro ⟨s, hs⟩
    obtain ⟨u, hu, hp⟩ := exists_remains h hf level s
    obtain rfl := hu.unique h hs
    exact hw.mem_of_passes hp hw.entered hu.decided

/-- The loop goes from the reference on top of the stack as the walk does, and then on with the rest
of the stack. Each reference that it enters puts two more on the stack at most. -/
theorem Walks.run (hw : m.Walks level f visited ts visited') (h : m.Canonical) (hf : m.Has f) :
    ∃ k, k + 2 * visited.size ≤ 2 * visited'.size + 1 ∧
      ∀ fuel stack kept, m.cofactorsFrom level (k + fuel) (f :: stack) ⟨visited, kept⟩ =
        m.cofactorsFrom level fuel stack ⟨visited', ts.reverse ++ kept⟩ := by
  classical
  have hsize : ∀ {f : Ref} {visited : Std.TreeSet Ref}, f ∉ visited →
      (visited.insert f).size = visited.size + 1 := fun hnew =>
    Std.TreeSet.size_insert.trans (if_neg hnew)
  induction hw with
  | again entered =>
    refine ⟨1, by omega, fun fuel stack kept => ?_⟩
    rw [Nat.add_comm, cofactorsFrom, if_pos (Std.TreeSet.contains_iff_mem.2 entered)]
    rfl
  | @keep f visited new decided =>
    have hnew : ¬ visited.contains f := new
    refine ⟨1, by rw [hsize new]; omega, fun fuel stack kept => ?_⟩
    rw [Nat.add_comm, cofactorsFrom, if_neg hnew, h.decidedBelow_eq hf, decide_eq_true decided]
    rfl
  | @sides f n ts us visited visited₁ visited' new stored below low high ihlow ihhigh =>
    have hnew : ¬ visited.contains f := new
    have hopen : ¬ m.DecidedBelow level f := not_decidedBelow.2 ⟨n, stored, below⟩
    have hside := fun b => (h.side_spec stored b).1
    obtain ⟨k, hk, hrunlow⟩ := ihlow (hside false)
    obtain ⟨l, hl, hrunhigh⟩ := ihhigh (hside true)
    rw [hsize new] at hk
    refine ⟨k + l + 1, by omega, fun fuel stack kept => ?_⟩
    rw [Nat.add_right_comm, cofactorsFrom, if_neg hnew, h.decidedBelow_eq hf,
      decide_eq_false hopen, stored.high, stored.low, Nat.add_assoc, List.reverse_append,
      List.append_assoc]
    exact (hrunlow _ _ _).trans (hrunhigh _ _ _)

/-- There are two references for each node. -/
theorem size_visited_le (h : ∀ g ∈ visited, m.Has g) : visited.size ≤ 2 * m.nodeCount + 2 := by
  have hordered : visited.toList.Pairwise fun f g => compare f g = .lt :=
    Std.TreeSet.ordered_toList
  have hnodup : (visited.toList.map Ref.raw).Nodup :=
    List.pairwise_map.2 (hordered.imp fun h => Nat.ne_of_lt (Nat.compare_eq_lt.1 h))
  have hsub : visited.toList.map Ref.raw ⊆ List.range (2 * m.nodeCount + 2) := by
    intro raw hraw
    obtain ⟨g, hg, rfl⟩ := List.mem_map.1 hraw
    have hle := (h g (Std.TreeSet.mem_toList.1 hg)).2
    rw [List.mem_range]
    unfold Ref.index at hle
    omega
  have hle := (hnodup.subperm hsub).length_le
  rwa [List.length_map, Std.TreeSet.length_toList, List.length_range] at hle

theorem Walks.cofactorsBelow_eq (hw : m.Walks level f ∅ ts visited') (h : m.Canonical)
    (hf : m.Has f) : m.cofactorsBelow f level = .ok ts := by
  obtain ⟨k, hk, hrun⟩ := hw.run h hf
  have hsize := size_visited_le fun g hg => ((hw.met hg).resolve_left (by simp)).has h hf
  have hfuel : 4 * m.depthBound = k + (4 * m.depthBound - k) := by
    have hpos : 2 ≤ Nat.pow 2 31 := by decide
    unfold depthBound
    omega
  unfold cofactorsBelow
  rw [hfuel, hrun, cofactorsFrom]
  simp [bind, Except.bind, pure, Except.pure]

/-- Each function that remains under some assignment is listed once. -/
theorem cofactorsBelow_spec (h : m.Canonical) (hf : m.Has f) (level : Nat) :
    ∃ ts, m.cofactorsBelow f level = .ok ts ∧ ts.Nodup ∧
      ∀ t, t ∈ ts ↔ ∃ s, m.Remains level f s t := by
  obtain ⟨ts, visited, hw⟩ := exists_walks h hf level ∅
  exact ⟨ts, hw.cofactorsBelow_eq h hf, hw.nodup, fun t => hw.mem_iff h hf⟩

theorem Walks.later (hw : m.Walks level f visited ts visited') (hg : m.Grows m')
    (h : m.Canonical) (hf : m.Has f) : m'.Walks level f visited ts visited' := by
  induction hw with
  | again entered => exact .again entered
  | keep new decided => exact .keep new ((hg.decidedBelow hf).2 decided)
  | sides new stored below low high ihlow ihhigh =>
    have hside := fun b => (h.side_spec stored b).1
    exact .sides new (hg.stores stored) below (ihlow (hside false)) (ihhigh (hside true))

end Manager

open Manager

variable {w w' : Workspace} {level : Nat} {f t : Ref}

theorem Workspace.Leads.remains_iff (hl : w.Leads w') (hf : w.current.Has f) {s : Assignment} :
    w'.current.Remains level f s t ↔ w.current.Remains level f s t := by
  have hkeeps : ∀ {u}, w.current.Remains level f s u → w'.current.Remains level f s u := by
    intro u hu
    refine ⟨hl.grows.has hu.has, (hl.grows.decidedBelow hu.has).2 hu.decided, fun s' hs => ?_⟩
    rw [hl.eval hu.has, hl.eval hf, hu.same s' hs]
  refine ⟨fun ht => ?_, hkeeps⟩
  obtain ⟨u, hu, -⟩ := exists_remains hl.before.canonical hf level s
  obtain rfl := ht.unique hl.after.canonical (hkeeps hu)
  exact hu

namespace Bdd


/-- Fixing all variables below the level, as an assignment has them, returns what remains. -/
theorem remains_iff_restrict (hw : w.current.WellFormed) (hf : w.current.Has f) (s : Assignment) :
    w.current.Remains level f s t ↔ ∃ w₁, restrict f (.below level s) w = .ok t w₁ := by
  have hrestrict : Yields w (restrict f (.below level s)) fun r m => m.Denotes r fun s' =>
      w.current.eval f ((Fixing.below level s).override s') = true :=
    restrict_yields hw (denotes_eval hf)
  obtain ⟨r, w₁, hrun, hl, hr⟩ := yields_iff.1 hrestrict
  obtain ⟨u, hu, -⟩ := exists_remains hw.canonical hf level s
  have hsame : r = u := by
    refine (hr.eq_iff hl.after.canonical (hl.denotes (hu.denotes hw.canonical
      (denotes_eval hf)))).2 fun s' => ?_
    rw [Fixing.override_below]
  subst hsame
  constructor
  · intro ht
    obtain rfl := ht.unique hw.canonical hu
    exact ⟨w₁, hrun⟩
  · rintro ⟨w₂, ht⟩
    rw [hrun] at ht
    cases ht
    exact hu

end Bdd

end SymbolicAutomata
