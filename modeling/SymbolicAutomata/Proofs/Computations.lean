import SymbolicAutomata.Workspace
import SymbolicAutomata.Proofs.Diagrams
import Mathlib.Data.List.Forall2
import Mathlib.Data.List.Induction
import Mathlib.Data.List.ReduceOption
/-!
# What computations keep

A reference denotes a set of assignments. Nodes are never changed, so it denotes the same set in
every later state of its manager. A computation is described by what it returns and by the state it
leads to, which extends the state it starts from. The remembered results are right: each of them
denotes what its operation asks for.
-/
namespace SymbolicAutomata

/-- What returns a value has returned one at its first step. -/
theorem exists_of_bind_eq_ok {α β : Type} {x : Except Failure α} {f : α → Except Failure β} {b : β}
    (h : x >>= f = .ok b) : ∃ a, x = .ok a ∧ f a = .ok b := by
  cases x with
  | error e => cases h
  | ok a => exact ⟨a, rfl, h⟩

section Decidable

variable {α : Type}

/-! What a run comes to is decided by running it. -/

instance {x : Except Failure α} {P : α → Prop} [DecidablePred P] :
    Decidable (∃ a, x = .ok a ∧ P a) :=
  match x with
  | .ok a => decidable_of_iff (P a) (by simp)
  | .error _ => isFalse (by simp)

instance {x : BddM α} {w : Workspace} {P : α → Workspace → Prop} [∀ a w', Decidable (P a w')] :
    Decidable (∃ a w', x w = .ok a w' ∧ P a w') :=
  match x w with
  | .ok a w' => decidable_of_iff (P a w') (by simp)
  | .error _ _ => isFalse (by simp)

instance {x : BddM α} {w : Workspace} {P : Failure → Prop} [DecidablePred P] :
    Decidable (∃ e w', x w = .error e w' ∧ P e) :=
  match x w with
  | .ok _ _ => isFalse (by simp)
  | .error e _ => decidable_of_iff (P e) (by simp)

end Decidable

namespace Manager

variable {m m' m'' : Manager} {f g : Ref} {F G : Assignment → Prop}

/-- The function of `f` holds exactly under the assignments in `F`. -/
structure Denotes (m : Manager) (f : Ref) (F : Assignment → Prop) : Prop where
  has : m.Has f
  holds : ∀ s, m.eval f s = true ↔ F s

/-- All cells of `m` are cells of `m'` with the same content. -/
structure Grows (m m' : Manager) : Prop where
  id : m'.id = m.id
  count : m.nodeCount ≤ m'.nodeCount
  cells : ∀ i ≤ m.nodeCount, m'.nodes.values[i]? = m.nodes.values[i]?

theorem Grows.refl (m : Manager) : m.Grows m := ⟨rfl, Nat.le_refl _, fun _ _ => rfl⟩

theorem Grows.trans (h : m.Grows m') (h' : m'.Grows m'') : m.Grows m'' where
  id := h'.id.trans h.id
  count := Nat.le_trans h.count h'.count
  cells i hi := (h'.cells i (Nat.le_trans hi h.count)).trans (h.cells i hi)

theorem Grows.has (h : m.Grows m') (hf : m.Has f) : m'.Has f :=
  ⟨hf.1, Nat.le_trans hf.2 h.count⟩

theorem Grows.stores_iff (h : m.Grows m') {i : Nat} {n : Node} (hi : i ≤ m.nodeCount) :
    m'.Stores i n ↔ m.Stores i n := by
  have hcount := h.count
  simp only [Stores, h.cells i hi]
  constructor
  · rintro ⟨h2, _, hv⟩
    exact ⟨h2, hi, hv⟩
  · rintro ⟨h2, _, hv⟩
    exact ⟨h2, by omega, hv⟩

theorem Grows.stores (h : m.Grows m') {i : Nat} {n : Node} (hn : m.Stores i n) : m'.Stores i n :=
  (h.stores_iff hn.2.1).2 hn

theorem Grows.above (h : m.Grows m') (hf : m.Has f) {v : Nat} (hv : m.Above v f) :
    m'.Above v f :=
  fun n hn => hv n ((h.stores_iff hf.2).1 hn)

theorem Grows.orderly (h : m.Grows m') {i : Nat} {n : Node} (hn : m.Orderly i n) :
    m'.Orderly i n where
  var_pos := hn.var_pos
  low := h.has hn.low
  high := h.has hn.high
  low_lt := hn.low_lt
  high_lt := hn.high_lt
  low_above := h.above hn.low hn.low_above
  high_above := h.above hn.high hn.high_above
  differ := hn.differ
  regular := hn.regular

/-- Nothing that is made later changes a function. -/
theorem Grows.eval (h : m.Grows m') (hm : m.Canonical) (hm' : m'.Canonical) (hf : m.Has f)
    (s : Assignment) : m'.eval f s = m.eval f s := by
  induction hi : f.index using Nat.strongRecOn generalizing f with
  | _ i ih =>
    subst hi
    rcases hm.cases hf with h1 | ⟨n, hn⟩
    · rcases eq_one_or_zero h1 with rfl | rfl
      · rw [hm.eval_one, hm'.eval_one]
      · rw [hm.eval_zero, hm'.eval_zero]
    · have ho := hm.orderly _ n hn
      rw [hm.eval_node hn, hm'.eval_node (h.stores hn), ih _ ho.low_lt ho.low rfl,
        ih _ ho.high_lt ho.high rfl]

theorem denotes_eval (hf : m.Has f) : m.Denotes f fun s => m.eval f s = true :=
  ⟨hf, fun _ => Iff.rfl⟩

namespace Denotes

theorem congr (h : m.Denotes f F) (hFG : ∀ s, F s ↔ G s) : m.Denotes f G :=
  ⟨h.has, fun s => (h.holds s).trans (hFG s)⟩

theorem one (hm : m.Canonical) : m.Denotes .one fun _ => True := ⟨hm.has_one, fun s => by simp [hm]⟩

theorem zero (hm : m.Canonical) : m.Denotes .zero fun _ => False :=
  ⟨hm.has_zero, fun s => by simp [hm]⟩

theorem neg (hm : m.Canonical) (h : m.Denotes f F) : m.Denotes (-f) fun s => ¬ F s :=
  ⟨has_neg.2 h.has, fun s => by rw [hm.eval_neg h.has, ← h.holds s]; simp⟩

theorem negIf (hm : m.Canonical) (h : m.Denotes f F) (b : Bool) :
    m.Denotes (f.negIf b) fun s => if b then ¬ F s else F s := by
  cases b
  · exact h.congr fun s => by simp
  · exact (h.neg hm).congr fun s => by simp

theorem mono (h : m.Denotes f F) (hg : m.Grows m') (hm : m.Canonical) (hm' : m'.Canonical) :
    m'.Denotes f F :=
  ⟨hg.has h.has, fun s => by rw [hg.eval hm hm' h.has, h.holds s]⟩

theorem eq_iff (hm : m.Canonical) (hf : m.Denotes f F) (hg : m.Denotes g G) :
    f = g ↔ ∀ s, F s ↔ G s := by
  constructor
  · rintro rfl s
    rw [← hf.holds s, hg.holds s]
  · intro h
    refine hm.eq_of_eval_eq hf.has hg.has fun s => ?_
    rw [Bool.eq_iff_iff, hf.holds s, hg.holds s, h s]

theorem eq_zero_iff (hm : m.Canonical) (hf : m.Denotes f F) : f = .zero ↔ ∀ s, ¬ F s := by
  rw [hf.eq_iff hm (.zero hm)]
  simp

theorem eq_one_iff (hm : m.Canonical) (hf : m.Denotes f F) : f = .one ↔ ∀ s, F s := by
  rw [hf.eq_iff hm (.one hm)]
  simp

theorem above (hm : m.Canonical) (hf : m.Denotes f F) {v : Nat}
    (hv : ∀ s t : Assignment, (∀ w, v < w → s w = t w) → F s → F t) : m.Above v f := by
  refine hm.above_of_eval fun s t hst => ?_
  rw [Bool.eq_iff_iff, hf.holds, hf.holds]
  exact ⟨hv s t hst, hv t s fun w hw => (hst w hw).symm⟩

theorem evaluate (hm : m.Canonical) (h : m.Denotes f F) (s : Assignment) :
    ∃ b, m.evaluate f (fun v => .ok (s v)) = .ok b ∧ (b = true ↔ F s) :=
  ⟨m.eval f s, hm.evaluate_eq h.has s, h.holds s⟩

theorem evaluate_congr (hm : m.Canonical) (h : m.Denotes f F) {s t : Assignment}
    (hst : F s ↔ F t) :
    m.evaluate f (fun v => .ok (s v)) = m.evaluate f fun v => .ok (t v) := by
  have heval : m.eval f s = m.eval f t := by rw [Bool.eq_iff_iff, h.holds, h.holds, hst]
  rw [hm.evaluate_eq h.has, hm.evaluate_eq h.has, heval]

end Denotes

def AgreeOff (d : Domain) (s t : Assignment) : Prop :=
  ∀ v, ¬ (d.base ≤ v ∧ v < d.base + d.len) → s v = t v

/-- What the result of an operation denotes. -/
def Right (m : Manager) : Operation → Ref → Prop
  | .ite f g h, r => m.Has f ∧ m.Has g ∧ m.Has h ∧
      m.Denotes r fun s => (if m.eval f s then m.eval g s else m.eval h s) = true
  | .exist f d, r => m.Has f ∧ m.Denotes r fun s => ∃ t, AgreeOff d s t ∧ m.eval f t = true

structure WellFormed (m : Manager) : Prop where
  canonical : m.Canonical
  remembered : ∀ k r, m.results.find? k = some r → m.Right k r

theorem Right.mono {k : Operation} {r : Ref} (h : m.Right k r) (hg : m.Grows m')
    (hm : m.Canonical) (hm' : m'.Canonical) : m'.Right k r := by
  cases k with
  | ite a b c =>
    obtain ⟨ha, hb, hc, hr⟩ := h
    refine ⟨hg.has ha, hg.has hb, hg.has hc, (hr.mono hg hm hm').congr fun s => ?_⟩
    rw [hg.eval hm hm' ha, hg.eval hm hm' hb, hg.eval hm hm' hc]
  | exist a d =>
    obtain ⟨ha, hr⟩ := h
    refine ⟨hg.has ha, (hr.mono hg hm hm').congr fun s => ?_⟩
    simp only [hg.eval hm hm' ha]

end Manager

/-- The later state has well-formed diagrams that extend those of the earlier one. -/
structure Workspace.Leads (w w' : Workspace) : Prop where
  before : w.current.WellFormed
  after : w'.current.WellFormed
  grows : w.current.Grows w'.current
  parked : w'.parked = w.parked

namespace Workspace.Leads

variable {w w' w'' : Workspace}

theorem refl (h : w.current.WellFormed) : w.Leads w := ⟨h, h, .refl _, rfl⟩

theorem trans (h : w.Leads w') (h' : w'.Leads w'') : w.Leads w'' :=
  ⟨h.before, h'.after, h.grows.trans h'.grows, h'.parked.trans h.parked⟩

theorem denotes (h : w.Leads w') {f : Ref} {F : Assignment → Prop}
    (hf : w.current.Denotes f F) : w'.current.Denotes f F :=
  hf.mono h.grows h.before.canonical h.after.canonical

theorem eval (h : w.Leads w') {f : Ref} (hf : w.current.Has f) (s : Assignment) :
    w'.current.eval f s = w.current.eval f s :=
  h.grows.eval h.before.canonical h.after.canonical hf s

end Workspace.Leads

namespace Bdd

variable {α β : Type} {w : Workspace} {x : BddM α} {p q : Prop}

/-- From `w` the computation leads to an extension of `w`. Where it returns a value, that value and
the new manager satisfy `Q`; it fails only if `p` holds. -/
def Runs (p : Prop) (w : Workspace) (x : BddM α) (Q : α → Manager → Prop) : Prop :=
  match x w with
  | .ok a w' => w.Leads w' ∧ Q a w'.current
  | .error _ w' => p ∧ w.Leads w'

/-- The computation does not fail. -/
abbrev Yields (w : Workspace) (x : BddM α) (Q : α → Manager → Prop) : Prop := Runs False w x Q

variable {Q R : α → Manager → Prop} {S : β → Manager → Prop}

theorem yields_iff : Yields w x Q ↔ ∃ a w', x w = .ok a w' ∧ w.Leads w' ∧ Q a w'.current := by
  unfold Yields Runs
  cases x w with
  | ok a w' =>
    constructor
    · exact fun h => ⟨a, w', rfl, h⟩
    · rintro ⟨a, w', h, hl⟩
      cases h
      exact hl
  | error e w' => simp

theorem Runs.of_ok {a : α} {w' : Workspace} (h : Runs p w x Q) (hx : x w = .ok a w') :
    w.Leads w' ∧ Q a w'.current := by
  unfold Runs at h
  rwa [hx] at h

theorem bind_of_ok {a : α} {w' : Workspace} {y : α → BddM β} (hx : x w = .ok a w') :
    (x >>= y) w = y a w' := by
  change EStateM.bind x y w = _
  unfold EStateM.bind
  rw [hx]

theorem bind_of_error {e : Failure} {w' : Workspace} {y : α → BddM β} (hx : x w = .error e w') :
    (x >>= y) w = .error e w' := by
  change EStateM.bind x y w = _
  unfold EStateM.bind
  rw [hx]

theorem exists_of_bind_ok {w' : Workspace} {y : α → BddM β} {b : β} (h : (x >>= y) w = .ok b w') :
    ∃ a w₁, x w = .ok a w₁ ∧ y a w₁ = .ok b w' := by
  change EStateM.bind x y w = _ at h
  unfold EStateM.bind at h
  cases hx : x w with
  | ok a w₁ =>
    rw [hx] at h
    exact ⟨a, w₁, rfl, h⟩
  | error e w₁ =>
    rw [hx] at h
    cases h

theorem Runs.congr {y : BddM α} (hxy : x w = y w) (h : Runs p w y Q) : Runs p w x Q := by
  unfold Runs at h ⊢
  rwa [hxy]

theorem Runs.mono (h : Runs p w x Q) (hpq : p → q)
    (hQR : ∀ a w', w.Leads w' → Q a w'.current → R a w'.current) : Runs q w x R := by
  unfold Runs at h ⊢
  split
  · rename_i a w' hx
    rw [hx] at h
    exact ⟨h.1, hQR a w' h.1 h.2⟩
  · rename_i e w' hx
    rw [hx] at h
    exact ⟨hpq h.1, h.2⟩

theorem Runs.imp (h : Runs p w x Q)
    (hQR : ∀ a w', w.Leads w' → Q a w'.current → R a w'.current) : Runs p w x R :=
  h.mono id hQR

theorem Runs.mono_left (h : Runs p w x Q) (hpq : p → q) : Runs q w x Q :=
  h.mono hpq fun _ _ _ hQ => hQ

theorem Runs.weaken (h : Yields w x Q) : Runs p w x Q := h.mono_left False.elim

theorem Runs.yields (h : Runs p w x Q) (hp : ¬ p) : Yields w x Q := h.mono_left hp

theorem Runs.bind {y : α → BddM β} (hx : Runs p w x Q)
    (hy : ∀ a w', w.Leads w' → Q a w'.current → Runs p w' (y a) S) : Runs p w (x >>= y) S := by
  unfold Runs at hx
  have hrun : (x >>= y) w = match x w with
    | .ok a w' => y a w'
    | .error e w' => .error e w' := by
    change EStateM.bind x y w = _
    unfold EStateM.bind
    cases x w <;> rfl
  unfold Runs
  rw [hrun]
  cases hxw : x w with
  | ok a w' =>
    simp only [hxw] at hx
    have := hy a w' hx.1 hx.2
    unfold Runs at this
    cases hya : y a w' with
    | ok b w'' =>
      simp only [hya] at this ⊢
      exact ⟨hx.1.trans this.1, this.2⟩
    | error e w'' =>
      simp only [hya] at this ⊢
      exact ⟨this.1, hx.1.trans this.2⟩
  | error e w' => simpa only [hxw] using hx

/-- What follows a choice follows both of its branches. -/
theorem Runs.branch {c : Prop} [Decidable c] {y : BddM α} {k : α → BddM β}
    (hc : Runs p w (if c then x else y) Q)
    (hk : ∀ a w', w.Leads w' → Q a w'.current → Runs p w' (k a) S) :
    Runs p w (if c then x >>= k else y >>= k) S := by
  split_ifs at hc ⊢
  · exact .bind hc hk
  · exact .bind hc hk

theorem Runs.pure {a : α} (hw : w.current.WellFormed) (h : Q a w.current) :
    Runs p w (pure a) Q := ⟨.refl hw, h⟩

theorem Runs.map {f : α → β} (hx : Runs p w x Q)
    (hf : ∀ a w', w.Leads w' → Q a w'.current → S (f a) w'.current) : Runs p w (f <$> x) S := by
  rw [map_eq_pure_bind]
  exact .bind hx fun a w' hl ha => .pure hl.after (hf a w' hl ha)

theorem Runs.throw {e : Failure} (hw : w.current.WellFormed) (hp : p) :
    Runs p w (throw e : BddM α) Q := ⟨hp, .refl hw⟩

theorem Runs.modifyGet {r : Workspace → α × Workspace} {a : α} {w' : Workspace}
    (hl : w.Leads w') (hr : r w = (a, w')) (h : Q a w'.current) : Runs p w (modifyGet r) Q := by
  have hrun : (MonadState.modifyGet r : BddM α) w = .ok a w' := by
    change EStateM.modifyGet r w = _
    unfold EStateM.modifyGet
    rw [hr]
  unfold Runs
  rw [hrun]
  exact ⟨hl, h⟩

theorem Runs.ask_bind {r : Manager → Except Failure α} {a : α} {y : α → BddM β}
    (hr : r w.current = .ok a) (hy : Runs p w (y a) S) : Runs p w (ask r >>= y) S := by
  have hrun : (ask r >>= y) w = y a w := by
    change EStateM.bind (ask r) y w = _
    unfold EStateM.bind ask
    rw [hr]
  unfold Runs at hy ⊢
  rwa [hrun]

theorem Runs.lift_bind {r : Except Failure α} {a : α} {y : α → BddM β} (hr : r = .ok a)
    (hy : Runs p w (y a) S) : Runs p w (liftM r >>= y) S := by
  subst hr
  exact hy

theorem Runs.lift_error {r : Except Failure α} {e : Failure} {y : α → BddM β}
    (hw : w.current.WellFormed) (hr : r = .error e) (hp : p) : Runs p w (liftM r >>= y) S := by
  subst hr
  exact ⟨hp, .refl hw⟩

/-- A step that depends on the workspace in nothing may end the computation. -/
theorem Runs.lift_cases {r : Except Failure α} {y : α → BddM β} (hw : w.current.WellFormed)
    (hfails : ∀ e, r = .error e → p) (hy : ∀ a, r = .ok a → Runs p w (y a) S) :
    Runs p w (liftM r >>= y) S := by
  cases hr : r with
  | ok a => exact hy a hr
  | error e => exact ⟨hfails e hr, .refl hw⟩

theorem Runs.check {c : Prop} [Decidable c] {e : Failure} {y : α → BddM β} {z : BddM β}
    (hw : w.current.WellFormed) (hfails : c → p) (hz : ¬ c → Runs p w z S) :
    Runs p w (if c then MonadExcept.throw e >>= y else z) S := by
  split_ifs with hc
  · exact .bind (Q := fun _ _ => False) (Runs.throw hw (hfails hc)) fun _ _ _ hfalse => hfalse.elim
  · exact hz hc

theorem Runs.ask {r : Manager → Except Failure α} {a : α} (hw : w.current.WellFormed)
    (hr : r w.current = .ok a) (h : Q a w.current) : Runs p w (ask r) Q := by
  unfold Runs Bdd.ask
  rw [hr]
  exact ⟨.refl hw, h⟩

theorem Runs.within {id : Nat} (hid : id = w.current.id) (hx : Runs p w x Q) :
    Runs p w (Bdd.within id x) Q := by
  unfold Runs at hx ⊢
  rwa [within_current hid.symm]

/-- The computation returns a value exactly if `C` holds, and that value satisfies `Q`. -/
def YieldsIff (C : Prop) (w : Workspace) (x : BddM α) (Q : α → Manager → Prop) : Prop :=
  Runs (¬ C) w x fun a m => C ∧ Q a m

section YieldsIff

variable {C D : Prop}

theorem YieldsIff.yields (h : YieldsIff C w x Q) (hC : C) : Yields w x Q :=
  (Runs.yields h (not_not_intro hC)).imp fun _ _ _ ha => ha.2

theorem Runs.yieldsIff (h : Yields w x Q) (hC : C) : YieldsIff C w x Q :=
  .weaken (h.imp fun _ _ _ ha => ⟨hC, ha⟩)

theorem YieldsIff.imp (h : YieldsIff C w x Q)
    (hQR : ∀ a w', w.Leads w' → Q a w'.current → R a w'.current) : YieldsIff C w x R :=
  Runs.imp h fun a w' hl ha => ⟨ha.1, hQR a w' hl ha.2⟩

theorem YieldsIff.congr (h : YieldsIff C w x Q) (hCD : C ↔ D) : YieldsIff D w x Q :=
  propext hCD ▸ h

/-- Two steps return a value exactly if each of them does. -/
theorem YieldsIff.bind {y : α → BddM β} (hx : YieldsIff C w x Q)
    (hy : ∀ a w', w.Leads w' → Q a w'.current → YieldsIff D w' (y a) S) :
    YieldsIff (C ∧ D) w (x >>= y) S := by
  apply Runs.bind (Runs.mono_left hx fun hC h => hC h.1)
  rintro a w' hl ⟨hC, ha⟩
  exact (hy a w' hl ha).mono (fun hD h => hD h.2) fun b _ _ hb => ⟨⟨hC, hb.1⟩, hb.2⟩

theorem YieldsIff.bind_yields {y : α → BddM β} (hx : YieldsIff C w x Q)
    (hy : ∀ a w', w.Leads w' → Q a w'.current → Yields w' (y a) S) :
    YieldsIff C w (x >>= y) S := by
  apply Runs.bind hx
  rintro a w' hl ⟨hC, ha⟩
  exact (hy a w' hl ha).yieldsIff hC

theorem YieldsIff.map {f : α → β} (hx : YieldsIff C w x Q)
    (hf : ∀ a w', w.Leads w' → Q a w'.current → S (f a) w'.current) :
    YieldsIff C w (f <$> x) S :=
  Runs.map hx fun a w' hl ha => ⟨ha.1, hf a w' hl ha.2⟩

theorem YieldsIff.within {id : Nat} (hid : id = w.current.id) (hx : YieldsIff C w x Q) :
    YieldsIff C w (Bdd.within id x) Q := Runs.within hid hx

theorem YieldsIff.exists_ok_iff (h : YieldsIff C w x Q) : (∃ a w', x w = .ok a w') ↔ C := by
  constructor
  · rintro ⟨a, w', hx⟩
    exact (Runs.of_ok h hx).2.1
  · intro hC
    obtain ⟨a, w', hx, -⟩ := yields_iff.1 (h.yields hC)
    exact ⟨a, w', hx⟩

end YieldsIff

section Loops

variable {ι : Type} {is : List ι} {xs : List α}

theorem exists_right_of_forall₂ {T : α → β → Prop} {ys : List β} (h : List.Forall₂ T xs ys) :
    ∀ x ∈ xs, ∃ y ∈ ys, T x y := by
  induction h with
  | nil => simp
  | @cons x y xs ys hxy _ ih =>
    intro x' hx'
    rcases List.mem_cons.1 hx' with rfl | hx'
    · exact ⟨y, by simp, hxy⟩
    · obtain ⟨y', hy', hT⟩ := ih x' hx'
      exact ⟨y', by simp [hy'], hT⟩

theorem exists_left_of_forall₂ {T : α → β → Prop} {ys : List β} (h : List.Forall₂ T xs ys) :
    ∀ y ∈ ys, ∃ x ∈ xs, T x y := exists_right_of_forall₂ h.flip

theorem getElem?_left_of_forall₂ {T : α → β → Prop} {ys : List β} {i : Nat} {y : β}
    (h : List.Forall₂ T xs ys) (hy : ys[i]? = some y) : ∃ x, xs[i]? = some x ∧ T x y := by
  obtain ⟨hi, rfl⟩ := List.getElem?_eq_some_iff.1 hy
  have hi' : i < xs.length := h.length_eq.symm ▸ hi
  exact ⟨xs[i], List.getElem?_eq_getElem hi', h.get hi' hi⟩

theorem getElem?_right_of_forall₂ {T : α → β → Prop} {ys : List β} {i : Nat} {x : α}
    (h : List.Forall₂ T xs ys) (hx : xs[i]? = some x) : ∃ y, ys[i]? = some y ∧ T x y :=
  getElem?_left_of_forall₂ h.flip hx

/-- What holds of the items that a loop has been through holds of all items in the end. -/
theorem foldlM_runs {next : β → α → BddM β} {b : β} {I : List α → β → Manager → Prop}
    (hw : w.current.WellFormed) (hb : I [] b w.current)
    (hnext : ∀ before x after, before ++ x :: after = xs → ∀ w' b, w.Leads w' →
      I before b w'.current → Runs p w' (next b x) (I (before ++ [x]))) :
    Runs p w (xs.foldlM next b) (I xs) := by
  induction xs using List.reverseRecOn with
  | nil => exact Runs.pure hw hb
  | append_singleton xs x ih =>
    have hall := ih fun before y after hsplit => hnext before y (after ++ [x]) (by simp [← hsplit])
    rw [List.foldlM_append]
    apply Runs.bind hall
    intro c w1 hl1 hc
    rw [List.foldlM_cons]
    exact Runs.bind (hnext xs x [] rfl w1 c hl1 hc) fun d w2 hl2 hd => Runs.pure hl2.after hd

/-- The items of a list are worked on in turn. What is known of a result is kept. -/
theorem mapM_yields {make : α → BddM β} {Q : ι → β → Manager → Prop}
    (hw : w.current.WellFormed)
    (hmake : List.Forall₂ (fun i x => ∀ w', w.Leads w' → Yields w' (make x) (Q i)) is xs)
    (hlater : ∀ i y (w' w'' : Workspace), w'.Leads w'' → Q i y w'.current → Q i y w''.current) :
    Yields w (xs.mapM make) fun ys m => List.Forall₂ (fun i y => Q i y m) is ys := by
  induction xs generalizing w is with
  | nil =>
    cases hmake
    exact Runs.pure hw .nil
  | cons x xs ih =>
    cases hmake with
    | @cons i _ is _ hx hrest =>
      rw [List.mapM_cons]
      refine .bind (hx w (.refl hw)) fun y w1 hl1 hy => ?_
      have hrest' := hrest.imp fun _ _ hmake w' (hl : w1.Leads w') => hmake w' (hl1.trans hl)
      refine .bind (ih hl1.after hrest') fun ys w2 hl2 hys => ?_
      exact Runs.pure hl2.after (.cons (hlater i y w1 w2 hl2 hy) hys)

theorem mapM_mem_yields {make : α → BddM β} {Q : α → β → Manager → Prop}
    (hw : w.current.WellFormed)
    (hmake : ∀ x ∈ xs, ∀ w', w.Leads w' → Yields w' (make x) (Q x))
    (hlater : ∀ x y (w' w'' : Workspace), w'.Leads w'' → Q x y w'.current → Q x y w''.current) :
    Yields w (xs.mapM make) fun ys m =>
      (∀ x ∈ xs, ∃ y ∈ ys, Q x y m) ∧ ∀ y ∈ ys, ∃ x ∈ xs, Q x y m := by
  apply (mapM_yields hw (List.forall₂_same.2 hmake) hlater).imp
  intro ys w' _ hys
  exact ⟨exists_right_of_forall₂ hys, exists_left_of_forall₂ hys⟩

theorem filterMapM_eq (choose : α → BddM (Option β)) (xs : List α) :
    xs.filterMapM choose = do return (← xs.mapM choose).reduceOption := by
  induction xs with
  | nil => rfl
  | cons x xs ih =>
    rw [List.filterMapM_cons, List.mapM_cons, ih]
    simp only [bind_assoc, pure_bind]
    congr 1
    funext o
    cases o <;> simp [List.reduceOption]

open Classical in
theorem filterM_yields {test : α → BddM Bool} {P : α → Prop} (hw : w.current.WellFormed)
    (htest : ∀ x ∈ xs, ∀ w', w.Leads w' → Yields w' (test x) fun b _ => b = true ↔ P x) :
    Yields w (xs.filterM test) fun ys _ => ys = xs.filter fun x => decide (P x) := by
  suffices ∀ found, Yields w (xs.filterAuxM test found) fun ys _ =>
      ys = (xs.filter fun x => decide (P x)).reverse ++ found by
    refine .bind (this []) fun ys w1 hl1 hys => Runs.pure hl1.after ?_
    rw [hys, List.append_nil, List.reverse_reverse]
  induction xs generalizing w with
  | nil => exact fun found => Runs.pure hw rfl
  | cons x xs ih =>
    intro found
    refine .bind (htest x (by simp) w (.refl hw)) fun b w1 hl1 hb => ?_
    have hrest := ih hl1.after fun y hy w' hl' => htest y (by simp [hy]) w' (hl1.trans hl')
    refine (hrest (bif b then x :: found else found)).imp fun ys w2 _ hys => ?_
    rw [hys]
    cases b with
    | true => simp [List.filter_cons_of_pos, hb.1 rfl]
    | false =>
      have hnot : ¬ P x := fun h => Bool.false_ne_true (hb.2 h)
      simp [hnot]

end Loops

end Bdd

end SymbolicAutomata
