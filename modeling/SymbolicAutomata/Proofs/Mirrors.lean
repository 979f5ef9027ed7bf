import SymbolicAutomata.Proofs.Frugality
/-!
# Managers with the same nodes

Two managers may hold the same nodes in the same cells and remember different results. A computation
then gives the same answer with either, or fails with the same failure, and leaves both with the
same nodes again. Where one manager remembers a result and the other has forgotten it, the result is
there, so the other one makes no node when it computes the result again.
-/
namespace SymbolicAutomata

namespace Manager.Grows

variable {m m' : Manager} {f : Ref}

theorem value (h : m.Grows m') {i : Nat} (hi : i ≤ m.nodeCount) :
    m'.nodes.value i = m.nodes.value i := by
  unfold Table.value Table.read
  rw [h.cells i hi]

theorem var (h : m.Grows m') (hf : m.Has f) : m'.var f = m.var f := by
  unfold Manager.var
  rw [h.value hf.2]

theorem low (h : m.Grows m') (hf : m.Has f) : m'.low f = m.low f := by
  unfold Manager.low
  rw [h.value hf.2]

theorem high (h : m.Grows m') (hf : m.Has f) : m'.high f = m.high f := by
  unfold Manager.high
  rw [h.value hf.2]

theorem cofactors (h : m.Grows m') (hf : m.Has f) (v : Nat) :
    m'.cofactors f v = m.cofactors f v := by
  unfold Manager.cofactors
  rw [h.var hf, h.low hf, h.high hf]

theorem rootVar (h : m.Grows m') (hf : m.Has f) : m'.rootVar f = m.rootVar f := by
  unfold Manager.rootVar
  rw [h.var hf]

theorem cofactor (h : m.Grows m') (hf : m.Has f) (v : Nat) (b : Bool) :
    m'.cofactor v b f = m.cofactor v b f := by
  unfold Manager.cofactor
  rw [h.cells f.index hf.2]

variable {t : Triple} {v : Nat}

theorem headed (h : m.Grows m') (ht : t.In m) (hv : t.Headed m v) : t.Headed m' v := by
  obtain ⟨hpos, hroot, hf, hg, hh⟩ := hv
  rw [← h.rootVar ht.f, ← h.rootVar ht.g, ← h.rootVar ht.h] at hroot
  rw [← h.rootVar ht.f] at hf
  rw [← h.rootVar ht.g] at hg
  rw [← h.rootVar ht.h] at hh
  exact ⟨hpos, hroot, hf, hg, hh⟩

theorem split (h : m.Grows m') (ht : t.In m) (b : Bool) :
    t.cofactor m' v b = t.cofactor m v b := by
  unfold Triple.cofactor
  rw [h.cofactor ht.f, h.cofactor ht.g, h.cofactor ht.h]

theorem standard (h : m.Grows m') (hm : m.Canonical) (ht : t.In m) :
    m'.standard t = m.standard t := by
  have hin := Triple.in_absorb hm ht
  simp only [Manager.standard, h.rootVar hin.f, h.rootVar hin.g, h.rootVar hin.h]

end Manager.Grows

namespace Workspace

variable {v v' w w' : Workspace}

/-- Without a new node everything is as before. -/
theorem Leads.back (h : w.Leads w') (hcount : w'.current.nodeCount = w.current.nodeCount) :
    w'.Leads w where
  before := h.after
  after := h.before
  grows := ⟨h.grows.id.symm, Nat.le_of_eq hcount, fun i hi => (h.grows.cells i (hcount ▸ hi)).symm⟩
  parked := h.parked.symm

/-- The managers at work have the same nodes, and what they remember is settled. -/
structure Twins (w w' : Workspace) : Prop where
  there : w.Leads w'
  back : w'.Leads w
  settled : w.current.Settled
  settled' : w'.current.Settled

namespace Twins

theorem symm (h : w.Twins w') : w'.Twins w := ⟨h.back, h.there, h.settled', h.settled⟩

theorem count (h : w.Twins w') : w'.current.nodeCount = w.current.nodeCount :=
  Nat.le_antisymm h.back.grows.count h.there.grows.count

theorem depthBound (h : w.Twins w') : w'.current.depthBound = w.current.depthBound := by
  unfold Manager.depthBound
  rw [h.count]

theorem made {n : Node} (h : w.Twins w') (hl : w.Leads v) (hl' : w'.Leads v')
    (hcount : v.current.nodeCount = w.current.nodeCount + 1)
    (hcount' : v'.current.nodeCount = w'.current.nodeCount + 1)
    (hn : v.current.Stores (w.current.nodeCount + 1) n)
    (hn' : v'.current.Stores (w'.current.nodeCount + 1) n) : v.Leads v' where
  before := hl.after
  after := hl'.after
  grows := by
    have hsize := h.count
    refine ⟨hl'.grows.id.trans (h.there.grows.id.trans hl.grows.id.symm), by omega, fun i hi => ?_⟩
    rcases Nat.lt_or_ge w.current.nodeCount i with hlt | hle
    · obtain rfl : i = w.current.nodeCount + 1 := by omega
      rw [hn.2.2, ← hsize, hn'.2.2]
    · rw [hl.grows.cells i hle, ← h.there.grows.cells i hle]
      exact hl'.grows.cells i (by omega)
  parked := hl'.parked.trans (h.there.parked.trans hl.parked.symm)

/-- What makes no node keeps managers alike. -/
theorem still (h : w.Twins w') (hl : w.Leads v) (hl' : w'.Leads v')
    (hcount : v.current.nodeCount = w.current.nodeCount)
    (hcount' : v'.current.nodeCount = w'.current.nodeCount) (hs : v.current.Settled)
    (hs' : v'.current.Settled) : v.Twins v' where
  there := (hl.back hcount).trans (h.there.trans hl')
  back := (hl'.back hcount').trans (h.back.trans hl)
  settled := hs
  settled' := hs'

end Twins

end Workspace

namespace Bdd

open Manager

variable {α β : Type} {p : Prop} {v v' w w' : Workspace} {x : BddM α} {Q R : α → Manager → Prop}
  {S : β → Manager → Prop}

/-- The computation gives the same answer in both workspaces, or fails in the same way, and leaves
the managers alike. -/
def Mirrors (w w' : Workspace) (x : BddM α) (Q : α → Manager → Prop) : Prop :=
  match x w, x w' with
  | .ok a v, .ok b v' => a = b ∧ v.Twins v' ∧ w.Leads v ∧ Q a v.current
  | .error e v, .error e' v' => e = e' ∧ v.Twins v' ∧ w.Leads v
  | _, _ => False

namespace Mirrors

theorem congr {y : BddM α} (hxy : x w = y w) (hxy' : x w' = y w') (h : Mirrors w w' y Q) :
    Mirrors w w' x Q := by
  unfold Mirrors at h ⊢
  rwa [hxy, hxy']

theorem of_ok {a : α} (hx : x w = .ok a v) (hx' : x w' = .ok a v') (ht : v.Twins v')
    (hl : w.Leads v) (h : Q a v.current) : Mirrors w w' x Q := by
  unfold Mirrors
  rw [hx, hx']
  exact ⟨rfl, ht, hl, h⟩

theorem pure {a : α} (ht : w.Twins w') (h : Q a w.current) : Mirrors w w' (pure a) Q :=
  ⟨rfl, ht, .refl ht.there.before, h⟩

theorem throw {e : Failure} (ht : w.Twins w') : Mirrors w w' (throw e : BddM α) Q :=
  ⟨rfl, ht, .refl ht.there.before⟩

/-- Both runs return alike, or both fail alike. -/
theorem cases (h : Mirrors w w' x Q) :
    (∃ a v v', x w = .ok a v ∧ x w' = .ok a v' ∧ v.Twins v' ∧ w.Leads v ∧ Q a v.current) ∨
      ∃ e v v', x w = .error e v ∧ x w' = .error e v' ∧ v.Twins v' ∧ w.Leads v := by
  unfold Mirrors at h
  cases hx : x w with
  | ok a v =>
    cases hx' : x w' with
    | ok b v' =>
      rw [hx, hx'] at h
      obtain ⟨rfl, ht, hl, hQ⟩ := h
      exact .inl ⟨a, v, v', rfl, rfl, ht, hl, hQ⟩
    | error e' v' => simp [hx, hx'] at h
  | error e v =>
    cases hx' : x w' with
    | ok b v' => simp [hx, hx'] at h
    | error e' v' =>
      rw [hx, hx'] at h
      obtain ⟨rfl, ht, hl⟩ := h
      exact .inr ⟨e, v, v', rfl, rfl, ht, hl⟩

theorem imp (h : Mirrors w w' x Q) (hQR : ∀ a v, w.Leads v → Q a v.current → R a v.current) :
    Mirrors w w' x R := by
  rcases h.cases with ⟨a, v, v', hx, hx', ht, hl, hQ⟩ | ⟨e, v, v', hx, hx', ht, hl⟩
  · exact .of_ok hx hx' ht hl (hQR a v hl hQ)
  · unfold Mirrors
    rw [hx, hx']
    exact ⟨rfl, ht, hl⟩

theorem and_runs (h : Mirrors w w' x Q) (hR : Runs p w x R) :
    Mirrors w w' x fun a m => Q a m ∧ R a m := by
  rcases h.cases with ⟨a, v, v', hx, hx', ht, hl, hQ⟩ | ⟨e, v, v', hx, hx', ht, hl⟩
  · exact .of_ok hx hx' ht hl ⟨hQ, (hR.of_ok hx).2⟩
  · unfold Mirrors
    rw [hx, hx']
    exact ⟨rfl, ht, hl⟩

theorem bind {y : α → BddM β} (hx : Mirrors w w' x Q)
    (hy : ∀ a v v', v.Twins v' → w.Leads v → Q a v.current → Mirrors v v' (y a) S) :
    Mirrors w w' (x >>= y) S := by
  have hrun_ok : ∀ {u u' a}, x u = .ok a u' → (x >>= y) u = y a u' := by
    intro u u' a hu
    change EStateM.bind x y u = _
    simp only [EStateM.bind, hu]
  have hrun_error : ∀ {u u' e}, x u = .error e u' → (x >>= y) u = .error e u' := by
    intro u u' e hu
    change EStateM.bind x y u = _
    simp only [EStateM.bind, hu]
  rcases hx.cases with ⟨a, v, v', hx, hx', ht, hl, hQ⟩ | ⟨e, v, v', hx, hx', ht, hl⟩
  · rcases (hy a v v' ht hl hQ).cases with ⟨b, u, u', hb, hb', ht', hl', hS⟩ |
      ⟨e, u, u', he, he', ht', hl'⟩
    · exact .of_ok ((hrun_ok hx).trans hb) ((hrun_ok hx').trans hb') ht' (hl.trans hl') hS
    · unfold Mirrors
      rw [hrun_ok hx, hrun_ok hx', he, he']
      exact ⟨rfl, ht', hl.trans hl'⟩
  · unfold Mirrors
    rw [hrun_error hx, hrun_error hx']
    exact ⟨rfl, ht, hl⟩

theorem ask_bind {q : Manager → Except Failure α} {y : α → BddM β} (ht : w.Twins w')
    (hq : q w'.current = q w.current)
    (hy : ∀ a, q w.current = .ok a → Mirrors w w' (y a) S) : Mirrors w w' (ask q >>= y) S := by
  cases ha : q w.current with
  | ok a => exact .congr (ask_bind_eq ha) (ask_bind_eq (hq.trans ha)) (hy a ha)
  | error e =>
    have hrun : ∀ {u : Workspace}, q u.current = .error e → (ask q >>= y) u = .error e u := by
      intro u hu
      change EStateM.bind (ask q) y u = _
      unfold EStateM.bind ask
      rw [hu]
    unfold Mirrors
    rw [hrun ha, hrun (hq.trans ha)]
    exact ⟨rfl, ht, .refl ht.there.before⟩

section Sides

variable {f : Ref} {n : Node}

theorem ask_var {y : Nat → BddM β} (ht : w.Twins w') (hn : w.current.Stores f.index n)
    (hy : Mirrors w w' (y n.var) S) : Mirrors w w' (ask (·.var f) >>= y) S := by
  refine ask_bind ht (ht.there.grows.var hn.has) fun v hv => ?_
  obtain rfl := Except.ok.inj (hn.var.symm.trans hv)
  exact hy

theorem ask_low {y : Ref → BddM β} (ht : w.Twins w') (hn : w.current.Stores f.index n)
    (hy : Mirrors w w' (y ((n.side false).negIf f.negated)) S) :
    Mirrors w w' (ask (·.low f) >>= y) S := by
  refine ask_bind ht (ht.there.grows.low hn.has) fun g hg => ?_
  obtain rfl := Except.ok.inj (hn.low.symm.trans hg)
  exact hy

theorem ask_high {y : Ref → BddM β} (ht : w.Twins w') (hn : w.current.Stores f.index n)
    (hy : Mirrors w w' (y ((n.side true).negIf f.negated)) S) :
    Mirrors w w' (ask (·.high f) >>= y) S := by
  refine ask_bind ht (ht.there.grows.high hn.has) fun g hg => ?_
  obtain rfl := Except.ok.inj (hn.high.symm.trans hg)
  exact hy

theorem ask_depthBound {y : Nat → BddM β} (ht : w.Twins w')
    (hy : Mirrors w w' (y w.current.depthBound) S) :
    Mirrors w w' (Bdd.depthBound >>= y) S := by
  refine ask_bind ht (by rw [ht.depthBound]) fun n hn => ?_
  obtain rfl := Except.ok.inj hn
  exact hy

end Sides

theorem lift_bind {r : Except Failure α} {y : α → BddM β} (ht : w.Twins w')
    (hy : ∀ a, r = .ok a → Mirrors w w' (y a) S) : Mirrors w w' (liftM r >>= y) S := by
  cases r with
  | ok a => exact hy a rfl
  | error e => exact ⟨rfl, ht, .refl ht.there.before⟩

/-- Two runs that make no node are alike if their answers are. -/
theorem of_settles (ht : w.Twins w') (hx : Settles True w x Q) (hx' : Settles True w' x R)
    (heq : ∀ a b v v', w.Leads v → v.Twins v' → Q a v.current → R b v'.current → a = b) :
    Mirrors w w' x Q := by
  obtain ⟨a, v, hrun, hl, hs, hcount, hQ⟩ := yields_iff.1 hx
  obtain ⟨b, v', hrun', hl', hs', hcount', hR⟩ := yields_iff.1 hx'
  have ht' := ht.still hl hl' (hcount trivial) (hcount' trivial) hs hs'
  obtain rfl := heq a b v v' hl ht' hQ hR
  exact .of_ok hrun hrun' ht' hl hQ

end Mirrors

section Nodes

variable {F L H : Assignment → Prop} {r low high : Ref} {u : Nat} {k : Operation}

/-- A node has the same cell in both stores, and both make it or neither does. -/
theorem intern_mirrors {n : Node} (ht : w.Twins w')
    (ho : w.current.Orderly (w.current.nodeCount + 1) n) :
    Mirrors w w' (intern n) fun _ _ => True := by
  have ho' : w'.current.Orderly (w'.current.nodeCount + 1) n := by
    rw [ht.count]
    exact ht.there.grows.orderly ho
  obtain ⟨r, v, hrun, hl, ⟨hreg, hr⟩, hres, hcount⟩ :=
    yields_iff.1 (intern_yields ht.there.before ho)
  obtain ⟨r', v', hrun', hl', ⟨hreg', hr'⟩, hres', hcount'⟩ :=
    yields_iff.1 (intern_yields ht.back.before ho')
  have hs := hl.settled ht.settled fun l g hg => by rwa [hres] at hg
  have hs' := hl'.settled ht.settled' fun l g hg => by rwa [hres'] at hg
  have hsame : r.index = r'.index → r' = r := by
    intro hindex
    rw [← r.of_index_negated, ← r'.of_index_negated, hindex, hreg, hreg']
  -- who finds the node has it in common with the other
  have hshare : ∀ {u u' : Workspace} {i j : Nat}, u.Twins u' → u.current.Stores i n →
      u'.current.Stores j n → i = j := fun ht hi hj =>
    ht.back.before.canonical.shared _ _ n (ht.there.grows.stores hi) hj
  rcases hcount with hcount | ⟨hcount, hindex⟩ <;>
    rcases hcount' with hcount' | ⟨hcount', hindex'⟩
  · have ht' := ht.still hl hl' hcount hcount' hs hs'
    obtain rfl := hsame (hshare ht' hr hr')
    exact .of_ok hrun hrun' ht' hl trivial
  · have hold := ((hl.back hcount).trans (ht.there.trans hl')).grows.stores hr
    have hindex := hl'.after.canonical.shared _ _ n hold hr'
    have hle := ((hl.back hcount).grows.stores hr).2.1
    have hsize := ht.count
    omega
  · have hold := ((hl'.back hcount').trans (ht.back.trans hl)).grows.stores hr'
    have hindex' := hl.after.canonical.shared _ _ n hold hr
    have hle := ((hl'.back hcount').grows.stores hr').2.1
    have hsize := ht.count
    omega
  · obtain rfl := hsame (by rw [hindex, hindex', ht.count])
    rw [hindex] at hr
    rw [hindex'] at hr'
    have ht' : v.Twins v' := ⟨ht.made hl hl' hcount hcount' hr hr',
      ht.symm.made hl' hl hcount' hcount hr' hr, hs, hs'⟩
    exact .of_ok hrun hrun' ht' hl trivial

theorem node_mirrors (ht : w.Twins w') (hL : w.current.Denotes low L)
    (hH : w.current.Denotes high H) (hlow : w.current.Above u low) (hhigh : w.current.Above u high) :
    Mirrors w w' (node u low high) fun r m => m.Denotes r fun s => if s u then H s else L s := by
  have hw := ht.there.before
  rcases Nat.eq_zero_or_pos u with rfl | hu
  · exact Mirrors.throw ht
  suffices h : Mirrors w w' (node u low high) fun _ _ => True from
    (h.and_runs (node_yields hw hu hL hH hlow hhigh)).imp fun _ _ _ hr => hr.2
  unfold node
  simp only [Nat.ne_of_gt hu, ↓reduceIte]
  split_ifs with heq
  · exact Mirrors.pure ht trivial
  · have ho : w.current.Orderly (w.current.nodeCount + 1)
        ⟨u, low.negIf high.negated, high.negIf high.negated⟩ := by
      refine ⟨hu, has_negIf.2 hL.has, has_negIf.2 hH.has, ?_, ?_, above_negIf.2 hlow,
        above_negIf.2 hhigh, heq, ?_⟩
      · simp only [negIf_index]
        exact Nat.lt_succ_of_le hL.has.2
      · simp only [negIf_index]
        exact Nat.lt_succ_of_le hH.has.2
      · simp [negIf_negated]
    exact (intern_mirrors ht ho).bind fun r v v' ht _ _ => Mirrors.pure ht trivial

theorem literal_mirrors (ht : w.Twins w') (u : Nat) :
    Mirrors w w' (literal u) fun r m => m.Has r := by
  have hc := ht.there.before.canonical
  exact (node_mirrors ht (.zero hc) (.one hc) above_zero above_one).imp fun _ _ _ hr => hr.has

theorem memoized_mirrors {x : BddM Ref} (ht : w.Twins w')
    (hright : ∀ w' r, w.Leads w' → (w'.current.Right k r ↔ w'.current.Denotes r F))
    (hnone : w.current.results.find? k = none) (hnone' : w'.current.results.find? k = none)
    (hx : ∀ v v', v.Twins v' → w.Leads v →
      Mirrors v v' x fun r m => m.Denotes r F ∧ Backed m k) :
    Mirrors w w' (memoized k x) fun r m => m.Denotes r F := by
  have hlook : Mirrors w w' (remembered k) fun o _ => o = none := by
    refine (Mirrors.of_settles ht (remembered_settles ht.there.before ht.settled)
      (remembered_settles ht.back.before ht.settled') ?_).imp ?_
    · intro o o' _ _ _ _ ho ho'
      rw [ho.1, ho'.1, hnone, hnone']
    · intro o _ _ ho
      rw [ho.1, hnone]
  refine hlook.bind fun o v v' ht hl ho => ?_
  subst ho
  refine (hx v v' ht hl).bind fun r v1 v1' ht1 hl1 hr => ?_
  obtain ⟨hden, hbacked⟩ := hr
  have hr := (hright v1 r (hl.trans hl1)).2 hden
  have hr' := hr.mono ht1.there.grows ht1.there.before.canonical ht1.back.before.canonical
  have hkeep : Mirrors v1 v1' (remember k r) fun _ m => Backed m k :=
    .of_settles ht1 (remember_settles ht1.there.before ht1.settled hr hbacked)
      (remember_settles ht1.back.before ht1.settled' hr' (hbacked.later ht1.there hr))
      fun _ _ _ _ _ _ _ _ => rfl
  exact hkeep.bind fun _ v2 v2' ht2 hl2 _ => Mirrors.pure ht2 (hl2.denotes hden)

end Nodes

section Conditional

variable {t : Triple} {fuel : Nat}

theorem iteSplit_mirrors (ht : w.Twins w') (hin : t.In w.current) (hf : t.f.index ≠ 1)
    (hrec : ∀ v v' u, v.Twins v' → w.Leads v → u.In v.current → u.weight < t.weight →
      Mirrors v v' (iteFrom fuel u) fun r m => m.Denotes r fun s => u.choice v.current s = true) :
    Mirrors w w' (iteSplit fuel t) fun _ _ => True := by
  have hw := ht.there.before
  have hc := hw.canonical
  have hg := ht.there.grows
  obtain ⟨u, hu⟩ := Triple.exists_headed hc hin hf
  have hrun' : iteSplit fuel t w' = _ :=
    iteSplit_of_headed ht.back.before.canonical (hin.mono hg) hf (hg.headed hin hu)
  rw [hg.split hin, hg.split hin] at hrun'
  apply Mirrors.congr (iteSplit_of_headed hc hin hf hu) hrun'
  have hin' := fun b => Triple.in_cofactor hc hin hu.pos b
  have hweight := fun b => Triple.weight_cofactor hc hin hu.pos b hu.root
  refine (hrec w w' _ ht (.refl hw) (hin' false) (hweight false)).bind
    fun low v1 v1' ht1 hl1 hlow => ?_
  refine (hrec v1 v1' _ ht1 hl1 ((hin' true).mono hl1.grows) (hweight true)).bind
    fun high v2 v2' ht2 hl2 hhigh => ?_
  have hlow2 := hl2.denotes hlow
  have hhigh2 : v2.current.Denotes high fun s =>
      (t.cofactor w.current u true).choice w.current s = true :=
    hhigh.congr fun s => by rw [hl1.choice (hin' true)]
  refine (node_mirrors ht2 hlow2 hhigh2 ?_ ?_).imp fun _ _ _ _ => trivial
  · exact hlow2.above hl2.after.canonical fun s s' hs h => hu.choice_congr hc hin false hs ▸ h
  · exact hhigh2.above hl2.after.canonical fun s s' hs h => hu.choice_congr hc hin true hs ▸ h

/-- If the result of a conditional is there, neither manager makes a node. -/
theorem iteFrom_mirrors_of_represents (ht : w.Twins w') (hin : t.In w.current)
    (hfuel : t.weight < fuel)
    (h : w.current.Represents fun s => t.choice w.current s = true) :
    Mirrors w w' (iteFrom fuel t) fun r m => m.Denotes r fun s => t.choice w.current s = true := by
  have h' : w'.current.Represents fun s => t.choice w'.current s = true :=
    (ht.there.represents h).congr fun s => by rw [ht.there.choice hin]
  refine Mirrors.of_settles ht
    ((iteFrom_settles ht.there.before ht.settled hin hfuel).when fun _ => h)
    ((iteFrom_settles ht.back.before ht.settled' (hin.mono ht.there.grows) hfuel).when fun _ => h')
    fun r r' v v' hl htv hr hr' => ?_
  refine ((htv.there.denotes hr).eq_iff htv.back.before.canonical hr').2 fun s => ?_
  rw [ht.there.choice hin]

/-- A conditional has the same result in both managers. If the result is there, neither makes a
node, and otherwise neither remembers it. -/
theorem iteFrom_mirrors (ht : w.Twins w') (hin : t.In w.current) (hfuel : t.weight < fuel) :
    Mirrors w w' (iteFrom fuel t) fun r m => m.Denotes r fun s => t.choice w.current s = true := by
  suffices h : Mirrors w w' (iteFrom fuel t) fun _ _ => True from
    (h.and_runs (iteFrom_yields ht.there.before hin hfuel)).imp fun _ _ _ hr => hr.2
  induction fuel generalizing w w' t with
  | zero => omega
  | succ fuel ih =>
    have hw := ht.there.before
    have hw' := ht.back.before
    have hin' := hin.mono ht.there.grows
    by_cases hrep : w.current.Represents fun s => t.choice w.current s = true
    · exact (iteFrom_mirrors_of_represents ht hin hfuel hrep).imp fun _ _ _ _ => trivial
    cases hv : t.value? with
    | some r =>
      rw [iteFrom_of_value hv]
      exact Mirrors.pure ht trivial
    | none =>
      cases hv' : t.absorb.value? with
      | some r =>
        rw [iteFrom_of_absorb hv hv']
        exact Mirrors.pure ht trivial
      | none =>
        have hc := hw.canonical
        obtain ⟨hstd, hf, hweight, hchoice⟩ := standard_spec hc hin hv'
        have hrun' : iteFrom (fuel + 1) t w' = _ :=
          iteFrom_of_standard hw'.canonical hin' hv hv'
        rw [ht.there.grows.standard hc hin] at hrun'
        apply Mirrors.congr (iteFrom_of_standard hc hin hv hv') hrun'
        generalize w.current.standard t = tn at hstd hf hweight hchoice ⊢
        obtain ⟨u, n⟩ := tn
        simp only at hstd hf hweight hchoice ⊢
        have hforgot : ∀ {v : Workspace}, v.Leads w → u.In v.current →
            v.current.results.find? u.operation = none := by
          intro v hl hu
          cases hfind : v.current.results.find? u.operation with
          | none => rfl
          | some r =>
            have hr := (Triple.right_operation hu).1 (hl.before.remembered _ r hfind)
            refine absurd ⟨_, ((hl.denotes hr).negIf hc n).congr fun s => ?_⟩ hrep
            rw [hchoice, hl.choice hu]
            cases n <;> simp
        refine (memoized_mirrors ht (fun v r hl => hl.right_operation hstd)
          (hforgot (.refl hw) hstd) (hforgot ht.back (hstd.mono ht.there.grows)) fun v v' htv hl => ?_).bind
          fun r v v' htv hl hr => Mirrors.pure htv trivial
        have hu := hstd.mono hl.grows
        have hsplit : Mirrors v v' (iteSplit fuel u) _ :=
          iteSplit_mirrors htv hu hf fun v1 v1' u1 ht1 hl1 hu1 hlt =>
            ((ih ht1 hu1 (by omega)).and_runs
              (iteFrom_yields ht1.there.before hu1 (by omega))).imp fun _ _ _ hr => hr.2
        refine (hsplit.and_runs (iteSplit_yields hl.after hu hf fun v1 u1 hl1 hu1 hlt =>
          iteFrom_yields hl1.after hu1 (by omega))).imp fun r v1 _ hr => ⟨?_, ?_⟩
        · exact hr.2.congr fun s => by rw [hl.choice hstd]
        · rintro f d hfd
          cases hfd

theorem ite_mirrors {f g h : Ref} (ht : w.Twins w') (hf : w.current.Has f) (hg : w.current.Has g)
    (hh : w.current.Has h) : Mirrors w w' (ite f g h) fun r m => m.Has r := by
  have hin : Triple.In ⟨f, g, h⟩ w.current := ⟨hf, hg, hh⟩
  refine Mirrors.ask_depthBound ht ?_
  exact (iteFrom_mirrors ht hin (Triple.weight_lt hin)).imp fun _ _ _ hr => hr.has

end Conditional

section Quantification

variable {d : Domain} {fuel stop : Nat} {f : Ref} {n : Node}

theorem existSplit_mirrors (ht : w.Twins w')
    (hn : w.current.Stores f.index n)
    (hrec : ∀ v v' g, v.Twins v' → w.Leads v → v.current.Has g → g.index < f.index →
      Mirrors v v' (existFrom d fuel g) fun r m => m.Denotes r (v.current.Satisfiable d g)) :
    Mirrors w w' (existSplit d fuel n.var f) fun _ _ => True := by
  have hw := ht.there.before
  have hc := hw.canonical
  have hside := hc.side_spec hn
  refine Mirrors.ask_low ht hn ?_
  refine (hrec w w' _ ht (.refl hw) (hside false).1 (hside false).2.1).bind
    fun low v v' ht1 hl hlow => ?_
  refine Mirrors.lift_bind ht1 fun within hwithin => ?_
  have hn1 := hl.grows.stores hn
  have hhigh : ∀ {k : Ref → BddM Ref}, (∀ high u u', u.Twins u' → v.Leads u →
      u.current.Denotes high (w.current.Satisfiable d ((n.side true).negIf f.negated)) →
      Mirrors u u' (k high) fun _ _ => True) →
      Mirrors v v' (do k (← existFrom d fuel (← ask (·.high f)))) fun _ _ => True := by
    intro k hk
    refine Mirrors.ask_high ht1 hn1 ?_
    refine (hrec v v' _ ht1 hl (hl.grows.has (hside true).1) (hside true).2.1).bind
      fun high u u' ht2 hl2 hhigh => hk high u u' ht2 hl2 ?_
    exact hhigh.congr fun s => hl.satisfiable (hside true).1
  split_ifs with hin hone
  · exact Mirrors.pure ht1 trivial
  · refine hhigh fun high u u' ht2 hl2 hhigh => ?_
    exact (ite_mirrors ht2 (hl2.grows.has hlow.has) hl2.after.canonical.has_one hhigh.has).imp
      fun _ _ _ _ => trivial
  · refine hhigh fun high u u' ht2 hl2 hhigh => ?_
    have hc2 := hl2.after.canonical
    have hlow2 := hl2.denotes hlow
    exact (node_mirrors ht2 hlow2 hhigh (hlow2.above hc2 (.side_congr hc hn false))
      (hhigh.above hc2 (.side_congr hc hn true))).imp fun _ _ _ _ => trivial

theorem existFrom_mirrors_of_quantified (hd : d.stop = .ok stop) (ht : w.Twins w')
    (hf : w.current.Has f) (hfuel : f.index < fuel) (hq : w.current.Quantified d f) :
    Mirrors w w' (existFrom d fuel f) fun r m => m.Denotes r (w.current.Satisfiable d f) := by
  have hq' := ht.there.quantified hf hq
  refine (Mirrors.of_settles ht
    ((existFrom_settles hd ht.there.before ht.settled hf hfuel).when fun _ => hq)
    ((existFrom_settles hd ht.back.before ht.settled' (ht.there.grows.has hf) hfuel).when
      fun _ => hq') fun r r' v v' hl htv hr hr' => ?_).imp fun _ _ _ hr => hr.1
  exact ((htv.there.denotes hr.1).eq_iff htv.back.before.canonical hr'.1).2 fun s =>
    (ht.there.satisfiable hf).symm

/-- A quantification has the same result in both managers. If all is there that it makes, neither
makes a node, and otherwise neither remembers it. -/
theorem existFrom_mirrors (hd : d.stop = .ok stop) (ht : w.Twins w') (hf : w.current.Has f)
    (hfuel : f.index < fuel) :
    Mirrors w w' (existFrom d fuel f) fun r m => m.Denotes r (w.current.Satisfiable d f) := by
  classical
  suffices h : Mirrors w w' (existFrom d fuel f) fun _ _ => True from
    (h.and_runs (existFrom_yields hd ht.there.before hf hfuel)).imp fun _ _ _ hr => hr.2
  induction fuel generalizing w w' f with
  | zero => omega
  | succ fuel ih =>
    have hw := ht.there.before
    have hw' := ht.back.before
    have hc := hw.canonical
    have hf' := ht.there.grows.has hf
    by_cases hq : w.current.Quantified d f
    · exact (existFrom_mirrors_of_quantified hd ht hf hfuel hq).imp fun _ _ _ _ => trivial
    obtain ⟨n, hn, hlen, hlt⟩ := exists_of_not_rests hc hf fun hrest => hq (.rest hrest)
    have hn' := ht.there.grows.stores hn
    apply Mirrors.congr (existFrom_of_stores hd hn hlen hlt) (existFrom_of_stores hd hn' hlen hlt)
    refine (memoized_mirrors ht (fun v r hl => hl.right_exist hf) (ht.settled.find?_eq_none hq)
      (ht.settled'.find?_eq_none fun hq' => hq (ht.back.quantified hf' hq'))
      fun v v' htv hl => ?_).imp fun _ _ _ _ => trivial
    have hn1 := hl.grows.stores hn
    have hsplit : Mirrors v v' (existSplit d fuel n.var f) _ :=
      existSplit_mirrors htv hn1 fun u u' g htu hlu hg hlt =>
        ((ih htu hg (by omega)).and_runs
          (existFrom_yields hd htu.there.before hg (by omega))).imp fun _ _ _ hr => hr.2
    refine (hsplit.and_runs (existSplit_settles hd hl.after htv.settled hn1 hlen hlt (by omega)
      fun u g hlu hsu hg hlt => existFrom_settles hd hlu.after hsu hg (by omega))).imp
      fun r u hlu hr => ?_
    obtain ⟨-, -, -, hden, hquantified⟩ := hr
    refine ⟨hden.congr fun s => hl.satisfiable hf, ?_⟩
    rintro f' d' hk
    cases hk
    exact hquantified

end Quantification

end Bdd

end SymbolicAutomata
