import SymbolicAutomata.Proofs.Computations
/-!
# Making nodes and remembering results

A new manager is well formed. A node is made only where no equal one is stored, so making it keeps
the diagrams canonical; a result is remembered only if it is right.
-/
namespace SymbolicAutomata

namespace Manager

variable {m m' : Manager} {n : Node}

theorem WellFormed.of_grows (h : m.WellFormed) (hg : m.Grows m') (hc : m'.Canonical)
    (hr : m'.results = m.results) : m'.WellFormed :=
  ⟨hc, fun k r hk => (h.remembered k r (hr ▸ hk)).mono hg h.canonical hc⟩

theorem results_new {id storageBits cacheBits : Nat}
    (h : Manager.new id storageBits cacheBits = .ok m) (k : Operation) :
    m.results.find? k = none := by
  unfold Manager.new Cache.new at h
  simp only [bind, Except.bind, pure, Except.pure] at h
  split at h
  · cases h
  · split_ifs at h
    cases h
    simp only [Cache.find?, Array.getElem?_replicate]
    split
    · rename_i hslot
      split_ifs at hslot
      cases hslot
    · rfl

theorem wellFormed_new {id storageBits cacheBits : Nat}
    (h : Manager.new id storageBits cacheBits = .ok m) : m.WellFormed := by
  have hempty := results_new h
  obtain ⟨t, hn, h⟩ := exists_of_bind_eq_ok h
  obtain ⟨c, -, h⟩ := exists_of_bind_eq_ok h
  obtain rfl : ⟨id, t.alloc, c⟩ = m := Except.ok.inj h
  obtain ⟨hsound, hlast, hone⟩ := Table.sound_alloc_new hn
  have hnone : ∀ i n, ¬ Manager.Stores ⟨id, t.alloc, c⟩ i n := by
    rintro i n ⟨h2, hle, _⟩
    have : i ≤ t.alloc.last := hle
    omega
  refine ⟨⟨hsound, ⟨?_, hone⟩, ?_, ?_⟩, ?_⟩
  · change 0 < t.alloc.last
    omega
  · exact fun i n hin => absurd hin (hnone i n)
  · exact fun i j n hin => absurd hin (hnone i n)
  · intro k r hk
    rw [hempty] at hk
    cases hk

namespace Canonical

/-- Remembering and forgetting results does not touch the nodes. -/
theorem of_nodes (h : m.Canonical) (hg : m.Grows m') (hn : m'.nodes = m.nodes) :
    m'.Canonical where
  chained := hn ▸ h.chained
  terminal := by simpa only [nodeCount, hn] using h.terminal
  orderly i n hi := by
    simp only [Stores, nodeCount, hn] at hi
    exact hg.orderly (h.orderly i n hi)
  shared i j n hi hj := by
    simp only [Stores, nodeCount, hn] at hi hj
    exact h.shared i j n hi hj

theorem find?_spec (h : m.Canonical) (hn : 0 < n.var) :
    (∃ i, m.nodes.find? n = .ok (some i) ∧ m.Stores i n) ∨
      m.nodes.find? n = .ok none ∧ ∀ i, ¬ m.Stores i n := by
  rcases Table.find?_spec h.chained n with ⟨i, hi, hpos, hle, hv⟩ | ⟨hnone, hall⟩
  · refine .inl ⟨i, hi, ?_, hle, hv⟩
    -- the blank node in cell 1 decides no variable
    rcases eq_or_ne i 1 with rfl | h1
    · obtain rfl := Option.some.inj (hv.symm.trans h.terminal.2)
      exact absurd hn (Nat.lt_irrefl 0)
    · omega
  · exact .inr ⟨hnone, fun i hi => hall i (by have := hi.1; omega) hi.2.1 hi.1 hi.2.2⟩

theorem insertNew (h : m.Canonical) (ho : m.Orderly (m.nodeCount + 1) n)
    (hnew : ∀ i, ¬ m.Stores i n) :
    (⟨m.id, (m.nodes.insertNew n).2, m.results⟩ : Manager).Canonical ∧
      m.Grows ⟨m.id, (m.nodes.insertNew n).2, m.results⟩ ∧
      (⟨m.id, (m.nodes.insertNew n).2, m.results⟩ : Manager).Stores (m.nodeCount + 1) n := by
  obtain ⟨-, hsound, hlast, hv, hold⟩ := Table.insertNew_spec h.chained n
  generalize (m.nodes.insertNew n).2 = t at hsound hlast hv hold
  have hcount : (⟨m.id, t, m.results⟩ : Manager).nodeCount = m.nodeCount + 1 := hlast
  have hg : m.Grows ⟨m.id, t, m.results⟩ := ⟨rfl, by rw [hcount]; omega, hold⟩
  have hpos := h.terminal.1
  have hnode : (⟨m.id, t, m.results⟩ : Manager).Stores (m.nodeCount + 1) n :=
    ⟨by omega, by omega, hv⟩
  have hcases : ∀ i k, (⟨m.id, t, m.results⟩ : Manager).Stores i k →
      m.Stores i k ∨ i = m.nodeCount + 1 ∧ k = n := by
    intro i k hik
    have hle := hik.2.1
    rw [hcount] at hle
    rcases Nat.lt_or_ge m.nodeCount i with hlt | hge
    · obtain rfl : i = m.nodeCount + 1 := by omega
      exact .inr ⟨rfl, hik.unique hnode⟩
    · exact .inl ((hg.stores_iff hge).1 hik)
  refine ⟨⟨?_, ⟨by omega, ?_⟩, ?_, ?_⟩, hg, hnode⟩
  · have hc := hsound.chained
    refine ⟨hsound.sizes, hsound.room, hsound.someBucket, hsound.fewBuckets, hc.heads, hc.links, ?_⟩
    intro i k hi hle h2 hk
    refine hc.reached i k hi hle ?_ hk
    exact .inl h2
  · rw [← h.terminal.2]
    exact hold 1 (by have : m.nodes.last = m.nodeCount := rfl; omega)
  · intro i k hik
    rcases hcases i k hik with hm | ⟨rfl, rfl⟩
    · exact hg.orderly (h.orderly i k hm)
    · exact hg.orderly ho
  · intro i j k hik hjk
    rcases hcases i k hik with hi | ⟨rfl, rfl⟩
    · rcases hcases j k hjk with hj | ⟨rfl, rfl⟩
      · exact h.shared i j k hi hj
      · exact absurd hi (hnew i)
    · rcases hcases j k hjk with hj | ⟨rfl, -⟩
      · exact absurd hj (hnew j)
      · rfl

end Canonical

end Manager

namespace Bdd

variable {w : Workspace} {low high : Ref} {L H : Assignment → Prop}

/-- A node is made in the next cell, if at all, and nothing is remembered for it. -/
theorem intern_yields {n : Node} (hw : w.current.WellFormed)
    (ho : w.current.Orderly (w.current.nodeCount + 1) n) :
    Yields w (intern n) fun r m => (r.negated = false ∧ m.Stores r.index n) ∧
      m.results = w.current.results ∧
      (m.nodeCount = w.current.nodeCount ∨
        m.nodeCount = w.current.nodeCount + 1 ∧ r.index = w.current.nodeCount + 1) := by
  unfold intern
  rcases hw.canonical.find?_spec ho.var_pos with ⟨i, hi, hs⟩ | ⟨hnone, hnew⟩
  · refine .ask_bind hi (.pure hw ⟨⟨Ref.of_negated i false, ?_⟩, rfl, .inl rfl⟩)
    rwa [Ref.of_index]
  · refine .ask_bind hnone ?_
    obtain ⟨hc, hg, hs⟩ := hw.canonical.insertNew ho hnew
    obtain ⟨hi, -, hlast, -⟩ := Table.insertNew_spec hw.canonical.chained n
    rcases w with ⟨⟨id, nodes, results⟩, parked⟩
    have hl : Workspace.Leads ⟨⟨id, nodes, results⟩, parked⟩
        ⟨⟨id, (nodes.insertNew n).2, results⟩, parked⟩ :=
      ⟨hw, hw.of_grows hg hc rfl, hg, rfl⟩
    refine .modifyGet (a := .of (nodes.insertNew n).1 false) hl rfl
      ⟨⟨Ref.of_negated _ false, ?_⟩, rfl, .inr ⟨hlast, ?_⟩⟩
    · rw [Ref.of_index, hi]
      exact hs
    · rw [Ref.of_index, hi]
      rfl

/-- A node stands for the function that its variable selects. It is made in the next cell, if at
all, and nothing is remembered for it. -/
theorem node_makes {v : Nat} (hw : w.current.WellFormed) (hv : 0 < v)
    (hL : w.current.Denotes low L) (hH : w.current.Denotes high H)
    (hlow : w.current.Above v low) (hhigh : w.current.Above v high) :
    Yields w (node v low high) fun r m => (m.Denotes r fun s => if s v then H s else L s) ∧
      m.results = w.current.results ∧
      (m.nodeCount = w.current.nodeCount ∨
        m.nodeCount = w.current.nodeCount + 1 ∧ r.index = w.current.nodeCount + 1) := by
  have hc := hw.canonical
  unfold node
  simp only [Nat.ne_of_gt hv, ↓reduceIte]
  by_cases heq : low.negIf high.negated = high.negIf high.negated
  · have hsame : low = high := by
      rw [← Manager.negIf_negIf low high.negated, heq, Manager.negIf_negIf]
    subst hsame
    simp only [↓reduceIte, Manager.negIf_negIf]
    refine Runs.pure hw ⟨hL.congr fun s => ?_, rfl, .inl rfl⟩
    have := (hL.holds s).symm.trans (hH.holds s)
    split_ifs
    · exact this
    · rfl
  · simp only [heq, ↓reduceIte]
    have ho : w.current.Orderly (w.current.nodeCount + 1)
        ⟨v, low.negIf high.negated, high.negIf high.negated⟩ := by
      refine ⟨hv, Manager.has_negIf.2 hL.has, Manager.has_negIf.2 hH.has, ?_, ?_,
        Manager.above_negIf.2 hlow, Manager.above_negIf.2 hhigh, heq, ?_⟩
      · simp only [Manager.negIf_index]
        exact Nat.lt_succ_of_le hL.has.2
      · simp only [Manager.negIf_index]
        exact Nat.lt_succ_of_le hH.has.2
      · simp [Manager.negIf_negated]
    refine .bind (intern_yields hw ho) fun r w' hl hr => .pure hl.after ?_
    obtain ⟨⟨hreg, hs⟩, hmade⟩ := hr
    have hc' := hl.after.canonical
    have hL' := hl.denotes hL
    have hH' := hl.denotes hH
    refine ⟨⟨Manager.has_negIf.2 hs.has, fun s => ?_⟩, by rwa [Manager.negIf_index]⟩
    rw [hc'.eval_negIf hs.has, hc'.eval_node hs, hreg, hc'.eval_negIf hL'.has,
      hc'.eval_negIf hH'.has]
    split_ifs
    · simp [← hH'.holds s]
    · simp [← hL'.holds s]

theorem node_yields {v : Nat} (hw : w.current.WellFormed) (hv : 0 < v)
    (hL : w.current.Denotes low L) (hH : w.current.Denotes high H)
    (hlow : w.current.Above v low) (hhigh : w.current.Above v high) :
    Yields w (node v low high) fun r m => m.Denotes r fun s => if s v then H s else L s :=
  (node_makes hw hv hL hH hlow hhigh).imp fun _ _ _ hr => hr.1

theorem literal_yields {v : Nat} (hw : w.current.WellFormed) (hv : 0 < v) :
    Yields w (literal v) fun r m => m.Denotes r fun s => s v = true := by
  refine (node_yields hw hv (.zero hw.canonical) (.one hw.canonical) Manager.above_zero
    Manager.above_one).imp fun r w' _ hr => hr.congr fun s => ?_
  simp

/-- Looking up a result changes neither the nodes nor what is remembered. -/
theorem remembered_finds (hw : w.current.WellFormed) (k : Operation) :
    Yields w (remembered k) fun r m => m.nodes = w.current.nodes ∧
      (∀ l, m.results.find? l = w.current.results.find? l) ∧ r = w.current.results.find? k := by
  rcases w with ⟨⟨id, nodes, results⟩, parked⟩
  have hg : Manager.Grows ⟨id, nodes, results⟩ ⟨id, nodes, (results.get k).2⟩ :=
    ⟨rfl, Nat.le_refl _, fun _ _ => rfl⟩
  have hc : Manager.Canonical ⟨id, nodes, (results.get k).2⟩ := hw.canonical.of_nodes hg rfl
  have hl : Workspace.Leads ⟨⟨id, nodes, results⟩, parked⟩
      ⟨⟨id, nodes, (results.get k).2⟩, parked⟩ := by
    refine ⟨hw, ⟨hc, fun l r hr => ?_⟩, hg, rfl⟩
    rw [Cache.find?_get] at hr
    exact (hw.remembered l r hr).mono hg hw.canonical hc
  refine .modifyGet (a := (results.get k).1) hl rfl ⟨rfl, results.find?_get k, ?_⟩
  change (results.get k).1 = results.find? k
  unfold Cache.get
  split
  · rename_i h
    exact h.symm
  · rename_i h
    exact h.symm

theorem remembered_yields (hw : w.current.WellFormed) (k : Operation) :
    Yields w (remembered k) fun r m => ∀ g, r = some g → m.Right k g := by
  refine (remembered_finds hw k).imp fun r w' hl hr g hg => ?_
  exact (hw.remembered k g (hr.2.2.symm.trans hg)).mono hl.grows hw.canonical hl.after.canonical

theorem remember_yields (hw : w.current.WellFormed) {k : Operation} {r : Ref}
    (hr : w.current.Right k r) : Yields w (remember k r) fun _ m => m.nodes = w.current.nodes ∧
      ∀ l g, m.results.find? l = some g →
        l = k ∧ g = r ∨ w.current.results.find? l = some g := by
  rcases w with ⟨⟨id, nodes, results⟩, parked⟩
  have hg : Manager.Grows ⟨id, nodes, results⟩ ⟨id, nodes, results.insert k r⟩ :=
    ⟨rfl, Nat.le_refl _, fun _ _ => rfl⟩
  have hc : Manager.Canonical ⟨id, nodes, results.insert k r⟩ := hw.canonical.of_nodes hg rfl
  have hl : Workspace.Leads ⟨⟨id, nodes, results⟩, parked⟩
      ⟨⟨id, nodes, results.insert k r⟩, parked⟩ := by
    refine ⟨hw, ⟨hc, fun l g hfind => ?_⟩, hg, rfl⟩
    rcases Cache.find?_insert hfind with ⟨rfl, rfl⟩ | hold
    · exact hr.mono hg hw.canonical hc
    · exact (hw.remembered l g hold).mono hg hw.canonical hc
  exact .modifyGet hl rfl ⟨rfl, fun l g hfind => Cache.find?_insert hfind⟩

/-- The remembered result of an operation, or else its result, which is remembered now. -/
def memoized (k : Operation) (x : BddM Ref) : BddM Ref := do
  match ← remembered k with
  | some r => return r
  | none =>
    let r ← x
    remember k r
    return r

theorem memoized_yields {k : Operation} {x : BddM Ref} {F : Assignment → Prop}
    (hw : w.current.WellFormed)
    (hright : ∀ w' r, w.Leads w' → (w'.current.Right k r ↔ w'.current.Denotes r F))
    (hx : ∀ w', w.Leads w' → Yields w' x fun r m => m.Denotes r F) :
    Yields w (memoized k x) fun r m => m.Denotes r F := by
  refine .bind (remembered_yields hw k) fun o w1 hl1 ho => ?_
  cases o with
  | some r => exact Runs.pure hl1.after ((hright w1 r hl1).1 (ho r rfl))
  | none =>
    refine .bind (hx w1 hl1) fun r w2 hl2 hr => ?_
    refine .bind (remember_yields hl2.after ((hright w2 r (hl1.trans hl2)).2 hr))
      fun _ w3 hl3 _ => ?_
    exact Runs.pure hl3.after (hl3.denotes hr)

end Bdd

end SymbolicAutomata
