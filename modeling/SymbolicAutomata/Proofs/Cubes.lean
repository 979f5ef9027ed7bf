import SymbolicAutomata.Proofs.Reversals
import SymbolicAutomata.Proofs.WordLimits
/-!
# Cubes

The nodes of a cube are made directly, from the literal of the last variable up. Literals of
distinct variables give ordered nodes, and with them the reference of the conjunction. Where two
literals share a variable, one of its nodes is a child of another one. No ordered diagram has such a
node, so it gets a new cell, and so does every node above it: the reference is not that of the
conjunction, although it evaluates like it.
-/
namespace SymbolicAutomata

namespace Manager

variable {m m' m₀ : Manager} {f : Ref} {F L H : Assignment → Prop} {s : Assignment} {n : Node}
  {i : Nat}

/-- Whatever cells are added, the reference has the value of `F`. -/
def Settles (m : Manager) (f : Ref) (F : Assignment → Prop) : Prop :=
  ∀ m', m.Grows m' → ∀ s, ∃ b, m'.Evaluates s f b ∧ (b = true ↔ F s)

theorem Settles.mono (h : m.Settles f F) (hg : m.Grows m') : m'.Settles f F :=
  fun m'' hg' => h m'' (hg.trans hg')

theorem settles_zero : m.Settles .zero fun _ => False :=
  fun _ _ _ => ⟨false, .zero, by simp⟩

theorem Settles.neg (h : m.Settles f F) : m.Settles (-f) fun s => ¬ F s := by
  intro m' hg s
  obtain ⟨b, hb, hiff⟩ := h m' hg s
  exact ⟨!b, hb.neg, by simp [← hiff]⟩

theorem Settles.negIf (h : m.Settles f F) (b : Bool) :
    m.Settles (f.negIf b) fun s => if b then ¬ F s else F s := by
  cases b
  · simpa [Ref.negIf] using h
  · simpa [Ref.negIf] using h.neg

/-- The added cells need not be canonical. -/
theorem Canonical.evaluates_of_grows (h : m.Canonical) (hf : m.Has f) (hg : m.Grows m')
    (s : Assignment) : m'.Evaluates s f (m.eval f s) := by
  induction hi : f.index using Nat.strongRecOn generalizing f with
  | _ i ih =>
    subst hi
    rcases h.cases hf with h1 | ⟨n, hn⟩
    · rcases eq_one_or_zero h1 with rfl | rfl
      · rw [h.eval_one]
        exact .one
      · rw [h.eval_zero]
        exact .zero
    · have hside : ∀ b, m'.Evaluates s ((n.side b).negIf f.negated)
          (m.eval ((n.side b).negIf f.negated) s) := fun b =>
        ih _ (by rw [negIf_index]; exact h.side_index_lt hn b) (has_negIf.2 (h.has_side hn b)) rfl
      have ho := h.orderly _ n hn
      refine .step hn.isTerminal (hg.stores hn).value ?_
      rw [h.eval_node hn]
      cases hs : s n.var
      · rw [if_neg Bool.false_ne_true, if_neg Bool.false_ne_true, ← h.eval_negIf ho.low]
        exact hside false
      · rw [if_pos rfl, if_pos rfl, ← h.eval_negIf ho.high]
        exact hside true

theorem Denotes.settles (hf : m.Denotes f F) (h : m.Canonical) : m.Settles f F :=
  fun _ hg s => ⟨m.eval f s, h.evaluates_of_grows hf.has hg s, hf.holds s⟩

theorem Stores.settles (hn : m.Stores i n) (hlow : m.Settles n.low L) (hhigh : m.Settles n.high H) :
    m.Settles (.of i false) fun s => if s n.var then H s else L s := by
  intro m' hg s
  have hn' : m'.Stores (Ref.of i false).index n := by
    rw [Ref.of_index]
    exact hg.stores hn
  have hnot : (Ref.of i false).negated = false := Ref.of_negated i false
  have hstep : ∀ b, m'.Evaluates s (if s n.var then n.high else n.low) b →
      m'.Evaluates s (.of i false) b := fun b hb =>
    .step hn'.isTerminal hn'.value (by rwa [hnot])
  cases hs : s n.var
  · obtain ⟨b, hb, hiff⟩ := hlow m' hg s
    exact ⟨b, hstep b (by rwa [hs]), by simpa [hs] using hiff⟩
  · obtain ⟨b, hb, hiff⟩ := hhigh m' hg s
    exact ⟨b, hstep b (by rwa [hs]), by simpa [hs] using hiff⟩

end Manager

/-- Cells have been added to those of a canonical manager, not necessarily ordered nodes. -/
structure Workspace.Beyond (m₀ : Manager) (w : Workspace) : Prop where
  canonical : m₀.Canonical
  grows : m₀.Grows w.current
  sound : w.current.nodes.Sound (2 ≤ ·)

namespace Bdd

open Manager

variable {w : Workspace} {m₀ : Manager} {f low high : Ref} {F L H : Assignment → Prop} {n : Node}
  {l : Int} {ls : List Int} {v : Nat}

/-- The computation returns a reference to an added cell, which has the value of `F`. -/
def Adds (m₀ : Manager) (w : Workspace) (x : BddM Ref) (F : Assignment → Prop) : Prop :=
  ∃ r w', x w = .ok r w' ∧ w'.Beyond m₀ ∧ w.current.Grows w'.current ∧
    m₀.nodeCount < r.index ∧ w'.current.Settles r F

theorem Adds.congr {x : BddM Ref} {G : Assignment → Prop} (h : Adds m₀ w x F)
    (hFG : ∀ s, F s ↔ G s) : Adds m₀ w x G := by
  obtain rfl : F = G := funext fun s => propext (hFG s)
  exact h

/-- A node that the canonical manager does not store is found or made among the added cells. -/
theorem intern_adds (hw : w.Beyond m₀) (hv : 0 < n.var) (hnew : ∀ i, ¬ m₀.Stores i n) :
    ∃ i w', intern n w = .ok (.of i false) w' ∧ w'.Beyond m₀ ∧ w.current.Grows w'.current ∧
      m₀.nodeCount < i ∧ w'.current.Stores i n := by
  have hpos := hw.canonical.terminal.1
  have hcount := hw.grows.count
  rcases Table.find?_spec hw.sound n with ⟨j, hj, hj0, hle, hval⟩ | ⟨hnone, -⟩
  · -- the terminal decides no variable, so it is not the node
    have hj1 : j ≠ 1 := by
      rintro rfl
      rw [hw.grows.cells 1 hpos, hw.canonical.terminal.2] at hval
      obtain rfl := Option.some.inj hval
      exact absurd hv (Nat.lt_irrefl 0)
    have hstored : w.current.Stores j n := ⟨by omega, hle, hval⟩
    have hask : ask (·.nodes.find? n) w = .ok (some j) w := by simp only [ask, hj]
    refine ⟨j, w, bind_of_ok hask, hw, .refl _, ?_, hstored⟩
    by_contra hold
    exact hnew j ((hw.grows.stores_iff (Nat.le_of_not_lt hold)).1 hstored)
  · have hask : ask (·.nodes.find? n) w = .ok none w := by simp only [ask, hnone]
    obtain ⟨hi, hsound, hlast, hval, hold⟩ := Table.insertNew_spec hw.sound n
    rcases w with ⟨⟨id, nodes, results⟩, parked⟩
    have hg : Manager.Grows ⟨id, nodes, results⟩ ⟨id, (nodes.insertNew n).2, results⟩ :=
      ⟨rfl, Nat.le_trans (Nat.le_succ _) hlast.ge, hold⟩
    have hlinked : (fun i => 2 ≤ i ∨ i = nodes.last + 1) = (2 ≤ ·) := by
      funext i
      have hcount : m₀.nodeCount ≤ nodes.last := hcount
      exact propext ⟨fun h => by omega, .inl⟩
    have hlt : m₀.nodeCount < nodes.last + 1 := Nat.lt_succ_of_le hcount
    refine ⟨nodes.last + 1, ⟨⟨id, (nodes.insertNew n).2, results⟩, parked⟩, ?_,
      ⟨hw.canonical, hw.grows.trans hg, hlinked ▸ hsound⟩, hg, hlt, by omega, hlast.ge, hval⟩
    rw [← hi]
    exact bind_of_ok hask

theorem node_adds (hw : w.Beyond m₀) (hv : 0 < v) (hne : low ≠ high)
    (hnew : ∀ i n, m₀.Stores i n → n.var = v →
      n.low.index = low.index → n.high.index ≠ high.index)
    (hlow : w.current.Settles low L) (hhigh : w.current.Settles high H) :
    Adds m₀ w (node v low high) fun s => if s v then H s else L s := by
  have hne' : low.negIf high.negated ≠ high.negIf high.negated := fun heq => hne (by
    rw [← negIf_negIf low high.negated, heq, negIf_negIf])
  obtain ⟨i, w', hrun, hw', hg, hi, hn⟩ :=
    intern_adds (n := ⟨v, low.negIf high.negated, high.negIf high.negated⟩) hw hv
      fun i hi => hnew i _ hi rfl (negIf_index _ _) (negIf_index _ _)
  refine ⟨(Ref.of i false).negIf high.negated, w', ?_, hw', hg, ?_, ?_⟩
  · unfold node
    simp only [Nat.ne_of_gt hv, hne', ↓reduceIte]
    exact bind_of_ok hrun
  · rwa [negIf_index, Ref.of_index]
  · have hsettled := (hn.settles ((hlow.mono hg).negIf _) ((hhigh.mono hg).negIf _)).negIf
      high.negated
    convert hsettled using 2 with s
    cases high.negated <;> by_cases hs : s v = true <;> simp [hs]

/-- No stored node of the variable of the literal has the function as a child. -/
def Unguarded (m : Manager) (f : Ref) (l : Int) : Prop :=
  f.index ≠ 1 ∧ ∀ i n, m.Stores i n → n.var = l.natAbs → ∀ b, (n.side b).index ≠ f.index

/-- A function that decides the variable of a literal itself is not below a node of it. -/
theorem unguarded_of_not_above (h : m₀.Canonical) (hf : ¬ m₀.Above l.natAbs f) :
    Unguarded m₀ f l := by
  refine ⟨fun h1 => hf fun n hn => ?_, fun i n hn hvar b hside => hf ?_⟩
  · rw [h1] at hn
    exact absurd hn.1 (by decide)
  · have habove := h.above_side hn b
    rw [hvar] at habove
    simpa only [Above, hside] using habove

theorem unguarded_of_lt (h : m₀.Canonical) (hf : m₀.nodeCount < f.index) : Unguarded m₀ f l := by
  have hpos := h.terminal.1
  refine ⟨by omega, fun i n hn _ b => ?_⟩
  have hlt := h.side_index_lt hn b
  have hle := hn.2.1
  omega

theorem guardLiteral_adds (hw : w.Beyond m₀) (hl : l ≠ 0) (hf : Unguarded m₀ f l)
    (hF : w.current.Settles f F) :
    Adds m₀ w (guardLiteral f l) fun s => Literal.Holds s l ∧ F s := by
  have hpos : 0 < l.natAbs := by omega
  have hne : f ≠ .zero := fun heq => hf.1 (by rw [heq]; rfl)
  unfold guardLiteral Literal.Holds
  split_ifs with hneg
  · have hsign : ¬ 0 < l := by omega
    refine (node_adds hw hpos hne (fun i n hn hvar hlow => ?_) hF settles_zero).congr fun s => ?_
    · exact absurd hlow (hf.2 i n hn hvar false)
    · cases s l.natAbs <;> simp [hsign]
  · have hsign : 0 < l := by omega
    refine (node_adds hw hpos hne.symm (fun i n hn hvar _ => ?_) settles_zero hF).congr fun s => ?_
    · exact hf.2 i n hn hvar true
    · cases s l.natAbs <;> simp [hsign]

def positives (ls : List Int) : Assignment := fun v => ls.any fun l => l.natAbs = v ∧ 0 < l

theorem holds_positives (hls : (ls.map Int.natAbs).Nodup) (hl : l ∈ ls) :
    Literal.Holds (positives ls) l := by
  rw [Literal.Holds, positives, Bool.eq_iff_iff, decide_eq_true_iff, List.any_eq_true]
  constructor
  · rintro ⟨k, hk, hsame⟩
    simp only [decide_eq_true_eq] at hsame
    obtain rfl := List.inj_on_of_nodup_map hls hk hl hsame.1
    exact hsame.2
  · exact fun hsign => ⟨l, hl, by simpa using hsign⟩

/-- A conjunction of literals of distinct variables depends on each of them. -/
theorem not_above_of_mem (h : m₀.Canonical) (hls : (ls.map Int.natAbs).Nodup)
    (hF : m₀.Denotes f fun s => ∀ l ∈ ls, Literal.Holds s l) (hl : l ∈ ls) :
    ¬ m₀.Above l.natAbs f := by
  intro habove
  have hflip : m₀.eval f (Function.update (positives ls) l.natAbs (!positives ls l.natAbs)) =
      m₀.eval f (positives ls) :=
    h.eval_congr hF.has habove fun u hu => Function.update_of_ne (Nat.ne_of_gt hu) _ _
  rw [(hF.holds _).2 fun k hk => holds_positives hls hk, hF.holds] at hflip
  have hnot := hflip l hl
  rw [Literal.Holds, Function.update_self, ← holds_positives hls hl] at hnot
  exact absurd hnot (by simp)

/-- One more literal above a function that no stored node of its variable has as a child. -/
theorem foldr_cons_adds {w₁ : Workspace}
    (hrun : ls.foldrM (fun l f => guardLiteral f l) .one w = .ok f w₁) (hw₁ : w₁.Beyond m₀)
    (hg : w.current.Grows w₁.current) (hl : l ≠ 0) (hf : Unguarded m₀ f l)
    (hF : w₁.current.Settles f fun s => ∀ k ∈ ls, Literal.Holds s k) :
    Adds m₀ w ((l :: ls).foldrM (fun l f => guardLiteral f l) .one)
      fun s => ∀ k ∈ l :: ls, Literal.Holds s k := by
  obtain ⟨r, w₂, hrun', hw₂, hg', hr, hsettled⟩ :=
    (guardLiteral_adds hw₁ hl hf hF).congr fun s => List.forall_mem_cons.symm
  refine ⟨r, w₂, ?_, hw₂, hg.trans hg', hr, hsettled⟩
  rw [List.foldrM_cons, bind_of_ok hrun]
  exact hrun'

/-- From the second literal of one variable on, nodes get cells of their own. The literals after
it, whose variables are distinct, are guarded as usual. -/
theorem foldr_guardLiteral_adds (hw : w.current.WellFormed) (hne : ∀ l ∈ ls, l ≠ 0)
    (hls : ls.Pairwise (Int.natAbs · ≤ Int.natAbs ·)) (hdup : ¬ (ls.map Int.natAbs).Nodup) :
    ∃ m₀, w.current.Grows m₀ ∧ Adds m₀ w (ls.foldrM (fun l f => guardLiteral f l) .one)
      fun s => ∀ l ∈ ls, Literal.Holds s l := by
  induction ls with
  | nil => exact absurd List.nodup_nil hdup
  | cons l ls ih =>
    obtain ⟨-, htail⟩ := List.pairwise_cons.1 hls
    have hl := hne l (by simp)
    have hne' : ∀ k ∈ ls, k ≠ 0 := fun k hk => hne k (by simp [hk])
    by_cases hdistinct : (ls.map Int.natAbs).Nodup
    · -- the first literal repeats the variable of a later one
      obtain ⟨k, hk, hsame⟩ : ∃ k ∈ ls, k.natAbs = l.natAbs := by
        by_contra hmem
        exact hdup (List.nodup_cons.2 ⟨fun h => hmem (List.mem_map.1 h), hdistinct⟩)
      obtain ⟨f, w₁, hrun, hl₁, hF⟩ := yields_iff.1
        (foldr_guardLiteral_yields hw hne' (pairwise_natAbs_lt htail hdistinct))
      have hc := hl₁.after.canonical
      have hf := not_above_of_mem hc hdistinct hF hk
      rw [hsame] at hf
      exact ⟨w₁.current, hl₁.grows, foldr_cons_adds hrun ⟨hc, .refl _, hc.chained⟩ hl₁.grows hl
        (unguarded_of_not_above hc hf) (hF.settles hc)⟩
    · obtain ⟨m₀, hg₀, f, w₁, hrun, hw₁, hg, hf, hF⟩ := ih hne' htail hdistinct
      exact ⟨m₀, hg₀, foldr_cons_adds hrun hw₁ hg hl (unguarded_of_lt hw₁.canonical hf) hF⟩

theorem cube_adds (hw : w.current.WellFormed) (hleast : leastWord ∉ ls) (hne : ∀ l ∈ ls, l ≠ 0)
    (hdup : ¬ (ls.map Int.natAbs).Nodup) :
    ∃ m₀, w.current.Grows m₀ ∧ Adds m₀ w (cube ls) fun s => ∀ l ∈ ls, Literal.Holds s l := by
  have hperm := (sortByKey_perm Int.natAbs ls).map Int.natAbs
  have hdup' : ¬ ((sortByKey Int.natAbs ls).map Int.natAbs).Nodup :=
    fun h => hdup (hperm.nodup_iff.1 h)
  obtain ⟨m₀, hg, hadds⟩ := foldr_guardLiteral_adds hw (fun l hl => hne l (mem_sortByKey.1 hl))
    (sortByKey_pairwise Int.natAbs ls) hdup'
  refine ⟨m₀, hg, ?_⟩
  unfold cube
  rw [if_neg (by simpa using hleast), List.foldlM_reverse]
  exact hadds.congr fun s => by simp only [mem_sortByKey]

def signed (l : Int) : BddM Ref := do return (← literal l.natAbs).negIf (l < 0)

theorem signed_yields (hw : w.current.WellFormed) (hl : l ≠ 0) :
    Yields w (signed l) fun r m => m.Denotes r fun s => Literal.Holds s l := by
  refine .bind (literal_yields hw (by omega)) fun r w₁ hl₁ hr => ?_
  refine Runs.pure hl₁.after ((hr.negIf hl₁.after.canonical _).congr fun s => ?_)
  rw [Literal.Holds]
  rcases Int.lt_or_gt_of_ne hl with hneg | hpos
  · have hsign : ¬ 0 < l := by omega
    simp [hneg, hsign]
  · have hsign : ¬ l < 0 := by omega
    simp [hpos, hsign]

theorem conjMap_signed_yields (hw : w.current.WellFormed) (hne : ∀ l ∈ ls, l ≠ 0) :
    Yields w (conjMap signed ls) fun r m => m.Denotes r fun s => ∀ l ∈ ls, Literal.Holds s l :=
  conjMap_yields hw fun l hl _ hl' => signed_yields hl'.after (hne l hl)

/-- A cube of literals of distinct variables, in any order, is the reference of their conjunction,
the one that the conjunction of the variables and complemented variables returns. If two literals
share a variable, whether they agree or not, the cube evaluates like the conjunction but is another
reference. The least word has no absolute value. -/
theorem cube_of_wellFormed (hw : w.current.WellFormed) (hne : ∀ l ∈ ls, l ≠ 0) :
    (leastWord ∉ ls → (ls.map Int.natAbs).Nodup →
      Makes w (cube ls) (fun s => ∀ l ∈ ls, Literal.Holds s l) ∧
        Concur w (cube ls) (conjMap signed ls)) ∧
      (leastWord ∉ ls → ¬ (ls.map Int.natAbs).Nodup →
        ∃ g w₁, conjMap signed ls w = .ok g w₁ ∧ w.Leads w₁ ∧
          w₁.current.Denotes g (fun s => ∀ l ∈ ls, Literal.Holds s l) ∧
          ∃ r w₂, cube ls w₁ = .ok r w₂ ∧ r ≠ g ∧ ∀ s, ∃ b, w₂.current.Evaluates s r b ∧
            w₂.current.Evaluates s g b ∧ (b = true ↔ ∀ l ∈ ls, Literal.Holds s l)) ∧
      (leastWord ∈ ls → cube ls w = .error .overflow w) := by
  refine ⟨fun hleast hls => ⟨.of_yields (cube_yields hw hleast hne hls), ?_⟩, fun hleast hdup => ?_,
    fun hleast => ?_⟩
  · exact concur_of_settled (C := True) hw
      (fun w₁ hl => (cube_yields hl.after hleast hne hls).yieldsIff trivial)
      (fun w₁ hl => (conjMap_signed_yields hl.after hne).yieldsIff trivial)
      (fun _ _ _ hl hr => hl.denotes hr) fun _ _ _ hm hr hr' => (hr.eq_iff hm hr').2 fun _ => .rfl
  · obtain ⟨g, w₁, hrun, hl, hg⟩ := yields_iff.1 (conjMap_signed_yields hw hne)
    obtain ⟨m₀, hold, r, w₂, hrun', hw₂, hgrows, hr, hsettled⟩ :=
      cube_adds hl.after hleast hne hdup
    refine ⟨g, w₁, hrun, hl, hg, r, w₂, hrun', fun heq => ?_, fun s => ?_⟩
    · have hle := hg.has.2
      have hcount := hold.count
      rw [heq] at hr
      omega
    · obtain ⟨b, hb, hiff⟩ := hsettled _ (.refl _) s
      obtain ⟨c, hc, hiff'⟩ := hg.settles hl.after.canonical _ hgrows s
      obtain rfl : b = c := Bool.eq_iff_iff.2 (hiff.trans hiff'.symm)
      exact ⟨b, hb, hc, hiff⟩
  · unfold cube
    rw [if_pos (by simpa using hleast)]
    rfl

/-- Three literals out of order, a literal written twice, and the least word. -/
theorem cube_of_wellFormed_literals : ∃ m, Manager.new 0 1 1 = .ok m ∧
    (Makes ⟨m, []⟩ (cube [3, -1, 2]) (fun s => ∀ l ∈ [3, -1, 2], Literal.Holds s l) ∧
      Concur ⟨m, []⟩ (cube [3, -1, 2]) (conjMap signed [3, -1, 2])) ∧
    (∃ g w₁, conjMap signed [2, -1, 2] ⟨m, []⟩ = .ok g w₁ ∧ Workspace.Leads ⟨m, []⟩ w₁ ∧
      w₁.current.Denotes g (fun s => ∀ l ∈ [2, -1, 2], Literal.Holds s l) ∧
      ∃ r w₂, cube [2, -1, 2] w₁ = .ok r w₂ ∧ r ≠ g ∧ ∀ s, ∃ b, w₂.current.Evaluates s r b ∧
        w₂.current.Evaluates s g b ∧ (b = true ↔ ∀ l ∈ [2, -1, 2], Literal.Holds s l)) ∧
    cube [leastWord] ⟨m, []⟩ = .error .overflow ⟨m, []⟩ := by
  obtain ⟨m, hm⟩ := exists_new
  have hw := wellFormed_new hm
  exact ⟨m, hm, (cube_of_wellFormed hw (by decide)).1 (by decide) (by decide),
    (cube_of_wellFormed hw (by decide)).2.1 (by decide) (by decide),
    (cube_of_wellFormed hw (by decide)).2.2 (by decide)⟩

/-- A literal written twice, two contradictory literals, and the least word. -/
theorem cube_ne_conjunction : ∃ m, Manager.new 0 1 1 = .ok m ∧
    (∃ g w₁, conjMap signed [1, 1] ⟨m, []⟩ = .ok g w₁ ∧
      ∃ r w₂, cube [1, 1] w₁ = .ok r w₂ ∧ r ≠ g) ∧
    (∃ r w₁, cube [2, -2] ⟨m, []⟩ = .ok r w₁ ∧ r ≠ .zero) ∧
    ∃ e w₁, cube [leastWord] ⟨m, []⟩ = .error e w₁ ∧ e = .overflow := by
  decide +kernel

end Bdd

end SymbolicAutomata
