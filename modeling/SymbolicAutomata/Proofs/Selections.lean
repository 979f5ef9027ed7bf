import SymbolicAutomata.Proofs.Replacements
/-!
# The parts of a function

The assignments fall into one part for each function that remains below a level, and the selection
of that function holds exactly on its part. The selections are not empty and pairwise disjoint, they
cover all assignments, and the function is put together again from its parts.
-/
namespace SymbolicAutomata

namespace Manager

variable {m m' : Manager} {level : Nat} {f t r : Ref} {s s' : Assignment}

theorem Remains.congr (ht : m.Remains level f s t) (hs : ∀ v < level, s v = s' v) :
    m.Remains level f s' t where
  has := ht.has
  decided := ht.decided
  same s'' hs'' := ht.same s'' fun v hv => (hs'' v hv).trans (hs v hv).symm

theorem remains_congr (hs : ∀ v < level, s v = s' v) :
    m.Remains level f s t ↔ m.Remains level f s' t :=
  ⟨fun ht => ht.congr hs, fun ht => ht.congr fun v hv => (hs v hv).symm⟩

/-- In `m'` the reference `r` holds exactly for the assignments under which `t` remains of `f`, and
it depends on variables below the level only. -/
structure Selection (m : Manager) (level : Nat) (f t : Ref) (m' : Manager) (r : Ref) : Prop where
  has : m'.Has r
  holds : ∀ s : Assignment, ∃ b, m'.evaluate r (fun v => .ok (s v)) = .ok b ∧
    (b = true ↔ m.Remains level f s t)
  below : ∀ s s' : Assignment, (∀ v < level, s v = s' v) →
    m'.evaluate r (fun v => .ok (s v)) = m'.evaluate r fun v => .ok (s' v)

theorem Denotes.selection (hr : m'.Denotes r fun s => m.Remains level f s t)
    (hm' : m'.Canonical) : m.Selection level f t m' r where
  has := hr.has
  holds := hr.evaluate hm'
  below _ _ hs := hr.evaluate_congr hm' (remains_congr hs)

end Manager

namespace Bdd

open Manager

variable {w : Workspace} {level : Nat} {f t u : Ref} {ts : List Ref}

theorem selectBelow_yields (hw : w.current.WellFormed) (hf : w.current.Has f) :
    Yields w (selectBelow f level t) fun r m =>
      m.Denotes r fun s => w.current.Remains level f s t := by
  have hmake : ∀ w' u, w.Leads w' → (∃ s, w.current.Remains level f s u) →
      Yields w' (pure (if u = t then .one else .zero)) fun r m => m.Denotes r fun _ => u = t := by
    intro w' u hl _
    split_ifs with h
    · exact Runs.pure hl.after ((Denotes.one hl.after.canonical).congr fun _ => by simp [h])
    · exact Runs.pure hl.after ((Denotes.zero hl.after.canonical).congr fun _ => by simp [h])
  refine (replaceBelow_yields hw hf hmake).imp fun r w' _ hr => hr.congr fun s => ?_
  constructor
  · rintro ⟨u, hu, rfl⟩
    exact hu
  · exact fun h => ⟨t, h, rfl⟩

theorem selectBelow_later_yields {w' : Workspace} (hl : w.Leads w') (hf : w.current.Has f) :
    Yields w' (selectBelow f level t) fun r m =>
      m.Denotes r fun s => w.current.Remains level f s t :=
  (selectBelow_yields hl.after (hl.grows.has hf)).imp fun _ _ _ hr =>
    hr.congr fun _ => hl.remains_iff hf

/-- At most one function remains under an assignment, so two selections exclude each other. -/
theorem selectBelow_disjoint_yields (hw : w.current.WellFormed) (hf : w.current.Has f)
    (htu : t ≠ u) :
    Yields w (do conj (← selectBelow f level t) (← selectBelow f level u)) fun r _ =>
      r = .zero := by
  refine .bind (selectBelow_yields hw hf) fun x w₁ hl₁ hx => ?_
  refine .bind (selectBelow_later_yields hl₁ hf) fun y w₂ hl₂ hy => ?_
  refine (conj_yields hl₂.after (hl₂.denotes hx) hy).imp fun r w₃ hl₃ hr => ?_
  refine (hr.eq_zero_iff hl₃.after.canonical).2 fun s h => htu ?_
  exact h.1.unique hw.canonical h.2

/-- Some function remains under each assignment, so the selections cover everything. -/
theorem selectBelow_cover_yields (hw : w.current.WellFormed) (hf : w.current.Has f)
    (hts : ∀ t, t ∈ ts ↔ ∃ s, w.current.Remains level f s t) :
    Yields w (disjMap (selectBelow f level) ts) fun r _ => r = .one := by
  refine (disjMap_yields hw fun t _ w' hl => selectBelow_later_yields hl hf).imp
    fun r w₁ hl hr => (hr.eq_one_iff hl.after.canonical).2 fun s => ?_
  obtain ⟨t, ht, -⟩ := exists_remains hw.canonical hf level s
  exact ⟨t, (hts t).2 ⟨s, ht⟩, ht⟩

/-- On each part the function is what remains of it there. -/
theorem selectBelow_join_yields (hw : w.current.WellFormed) (hf : w.current.Has f)
    (hts : ∀ t, t ∈ ts ↔ ∃ s, w.current.Remains level f s t) :
    Yields w (disjMap (fun t => do conj (← selectBelow f level t) t) ts) fun r _ => r = f := by
  have hpart : ∀ t ∈ ts, ∀ w', w.Leads w' →
      Yields w' (do conj (← selectBelow f level t) t) fun r m => m.Denotes r fun s =>
        w.current.Remains level f s t ∧ w.current.eval t s = true := by
    intro t ht w' hl
    obtain ⟨s, hs⟩ := (hts t).1 ht
    refine .bind (selectBelow_later_yields hl hf) fun x w₁ hl₁ hx => ?_
    exact conj_yields hl₁.after hx ((hl.trans hl₁).denotes (denotes_eval hs.has))
  refine (disjMap_yields hw hpart).imp fun r w₁ hl hr => ?_
  refine (hr.eq_iff hl.after.canonical (hl.denotes (denotes_eval hf))).2 fun s => ?_
  constructor
  · rintro ⟨t, -, ht, hs⟩
    rwa [ht.same s fun _ _ => rfl] at hs
  · intro hs
    obtain ⟨t, ht, -⟩ := exists_remains hw.canonical hf level s
    refine ⟨t, (hts t).2 ⟨s, ht⟩, ht, ?_⟩
    rwa [ht.same s fun _ _ => rfl]

/-- The functions that remain below a level are those that fixing the variables below it returns,
and each of them is listed once. The selection of a listed function is not empty, and that of any
other function is. Selections of different functions exclude each other, those of the list cover
everything, and the function is the disjunction of its parts. -/
theorem splits_of_wellFormed (hw : w.current.WellFormed) (hf : w.current.Has f) (level : Nat) :
    (∀ s t, w.current.Remains level f s t ↔ ∃ w₁, restrict f (.below level s) w = .ok t w₁) ∧
    ∃ ts, w.current.cofactorsBelow f level = .ok ts ∧ ts.Nodup ∧
      (∀ t, t ∈ ts ↔ ∃ s, w.current.Remains level f s t) ∧
      (∀ t, ∃ r w₁, selectBelow f level t w = .ok r w₁ ∧ w.Leads w₁ ∧
        w.current.Selection level f t w₁.current r ∧ (r ≠ .zero ↔ t ∈ ts)) ∧
      (∀ t u, t ≠ u → ∃ w₁,
        (do conj (← selectBelow f level t) (← selectBelow f level u)) w = .ok .zero w₁) ∧
      (∃ w₁, disjMap (selectBelow f level) ts w = .ok .one w₁) ∧
      ∃ w₁, disjMap (fun t => do conj (← selectBelow f level t) t) ts w = .ok f w₁ := by
  obtain ⟨ts, hlist, hnodup, hts⟩ := cofactorsBelow_spec hw.canonical hf level
  refine ⟨fun s t => remains_iff_restrict hw hf s, ts, hlist, hnodup, hts, fun t => ?_,
    fun t u htu => ?_, ?_, ?_⟩
  · obtain ⟨r, w₁, hrun, hl, hr⟩ := yields_iff.1 (selectBelow_yields (t := t) hw hf)
    refine ⟨r, w₁, hrun, hl, hr.selection hl.after.canonical, ?_⟩
    rw [hts, Ne, hr.eq_zero_iff hl.after.canonical, not_forall_not]
  · obtain ⟨_, w₁, hrun, -, rfl⟩ := yields_iff.1 (selectBelow_disjoint_yields hw hf htu)
    exact ⟨w₁, hrun⟩
  · obtain ⟨_, w₁, hrun, -, rfl⟩ := yields_iff.1 (selectBelow_cover_yields hw hf hts)
    exact ⟨w₁, hrun⟩
  · obtain ⟨_, w₁, hrun, -, rfl⟩ := yields_iff.1 (selectBelow_join_yields hw hf hts)
    exact ⟨w₁, hrun⟩

/-- The variable 2 or its negation remains of an exclusive disjunction, which is put together again
from the two parts. -/
theorem splits_of_wellFormed_literals : ∃ m f w ts w₁, Manager.new 0 1 1 = .ok m ∧
    (do exor (← literal 1) (← literal 2)) ⟨m, []⟩ = .ok f w ∧
    w.current.cofactorsBelow f 2 = .ok ts ∧ ts.length = 2 ∧
    disjMap (fun t => do conj (← selectBelow f 2 t) t) ts w = .ok f w₁ := by
  have hruns : ∃ m, Manager.new 0 1 1 = .ok m ∧ ∃ f w,
      (do exor (← literal 1) (← literal 2)) ⟨m, []⟩ = .ok f w ∧
      ∃ ts, w.current.cofactorsBelow f 2 = .ok ts ∧ ts.length = 2 := by
    decide +kernel
  obtain ⟨m, hm, f, w, hf, ts, hts, hlength⟩ := hruns
  obtain ⟨hl, hr⟩ :=
    Runs.of_ok (exor_literals_yields (wellFormed_new hm) (by decide) (by decide)) hf
  obtain ⟨-, us, hus, -, -, -, -, -, w₁, hjoin⟩ := splits_of_wellFormed hl.after hr.has 2
  obtain rfl : us = ts := Except.ok.inj (hus.symm.trans hts)
  exact ⟨m, f, w, us, w₁, hm, hf, hts, hlength, hjoin⟩

end Bdd

end SymbolicAutomata
