import SymbolicAutomata.Quantifier
import SymbolicAutomata.Proofs.Conditionals
/-!
# Quantification over a domain

The result holds where some values of the quantified variables satisfy the function. A node above
the domain keeps its variable; a node within it becomes the disjunction of its sides.
-/
namespace SymbolicAutomata

namespace Domain

variable {d : Domain}

theorem stop_eq {n : Nat} (h : d.stop = .ok n) : n = d.base + d.len := (stop_eq_ok_iff.1 h).2.symm

theorem contains_eq {n v : Nat} (h : d.stop = .ok n) :
    d.contains v = .ok (decide (d.base ≤ v ∧ v < n)) := by
  unfold contains
  split_ifs with hb
  · simp [h, hb, bind, Except.bind, pure, Except.pure]
  · simp [hb]

end Domain

namespace Manager

variable {m : Manager} {f : Ref} {n : Node} {d : Domain} {s t : Assignment}

theorem AgreeOff.refl (d : Domain) (s : Assignment) : AgreeOff d s s := fun _ _ => rfl

theorem AgreeOff.congr (h : AgreeOff d s t) (u : Assignment) : AgreeOff d s u ↔ AgreeOff d t u :=
  forall₂_congr fun v hv => by rw [h v hv]

/-- Some values of the variables of the domain satisfy `f`. -/
def Satisfiable (m : Manager) (d : Domain) (f : Ref) (s : Assignment) : Prop :=
  ∃ t, AgreeOff d s t ∧ m.eval f t = true

/-- Quantified variables from the domain's end on leave a function as it is. -/
theorem satisfiable_iff_of_above (h : m.Canonical) (hf : m.Has f) {v : Nat} (hv : m.Above v f)
    (hd : d.base + d.len ≤ v + 1) : m.Satisfiable d f s ↔ m.eval f s = true := by
  constructor
  · rintro ⟨t, hst, ht⟩
    rwa [h.eval_congr hf hv fun w hw => hst w (by omega)]
  · exact fun hs => ⟨s, .refl d s, hs⟩

theorem satisfiable_iff_of_empty (hd : d.len = 0) : m.Satisfiable d f s ↔ m.eval f s = true := by
  constructor
  · rintro ⟨t, hst, ht⟩
    obtain rfl : s = t := funext fun v => hst v (by omega)
    exact ht
  · exact fun hs => ⟨s, .refl d s, hs⟩

theorem satisfiable_terminal (h : m.Canonical) (hf : f.index = 1) :
    m.Satisfiable d f s ↔ m.eval f s = true := by
  unfold Satisfiable
  rcases eq_one_or_zero hf with rfl | rfl
  · simp only [h.eval_one, and_true]
    exact ⟨fun _ => trivial, fun _ => ⟨s, .refl d s⟩⟩
  · simp [h.eval_zero]

theorem Satisfiable.congr (h : m.Canonical) (hf : m.Has f) {v : Nat} (hv : m.Above v f)
    (hst : ∀ w, v < w → s w = t w) (hs : m.Satisfiable d f s) : m.Satisfiable d f t := by
  obtain ⟨s', hs', he⟩ := hs
  refine ⟨fun w => if d.base ≤ w ∧ w < d.base + d.len then s' w else t w,
    fun w hw => (if_neg hw).symm, ?_⟩
  rw [← he]
  refine h.eval_congr hf hv fun w hw => ?_
  split_ifs with hd
  · rfl
  · rw [← hst w hw, hs' w hd]

theorem Satisfiable.side_congr (h : m.Canonical) (hn : m.Stores f.index n) (b : Bool)
    (s t : Assignment) (hst : ∀ w, n.var < w → s w = t w)
    (hs : m.Satisfiable d ((n.side b).negIf f.negated) s) :
    m.Satisfiable d ((n.side b).negIf f.negated) t :=
  hs.congr h (h.side_spec hn b).1 (h.side_spec hn b).2.2 hst

/-- No variable of the domain is left to quantify at `f`. -/
def Rests (m : Manager) (d : Domain) (f : Ref) : Prop :=
  f.index = 1 ∨ d.len = 0 ∨ ∃ n, m.Stores f.index n ∧ d.base + d.len ≤ n.var

theorem satisfiable_of_rests (h : m.Canonical) (hf : m.Has f) (hr : m.Rests d f) :
    m.Satisfiable d f s ↔ m.eval f s = true := by
  rcases hr with h1 | hempty | ⟨n, hn, hle⟩
  · exact satisfiable_terminal h h1
  · exact satisfiable_iff_of_empty hempty
  · have hpos := (h.orderly _ n hn).var_pos
    have habove : m.Above (n.var - 1) f := fun n' hn' => by
      obtain rfl := hn.unique hn'
      omega
    exact satisfiable_iff_of_above h hf habove (by omega)

theorem exists_of_not_rests (h : m.Canonical) (hf : m.Has f) (hr : ¬ m.Rests d f) :
    ∃ n, m.Stores f.index n ∧ d.len ≠ 0 ∧ n.var < d.base + d.len := by
  rcases h.cases hf with h1 | ⟨n, hn⟩
  · exact absurd (.inl h1) hr
  · refine ⟨n, hn, fun hempty => hr (.inr (.inl hempty)), ?_⟩
    by_contra hle
    exact hr (.inr (.inr ⟨n, hn, by omega⟩))

theorem satisfiable_above (h : m.Canonical) (hn : m.Stores f.index n)
    (hv : ¬ (d.base ≤ n.var ∧ n.var < d.base + d.len)) :
    m.Satisfiable d f s ↔ m.Satisfiable d ((n.side (s n.var)).negIf f.negated) s := by
  have hsame : ∀ t, AgreeOff d s t →
      m.eval f t = m.eval ((n.side (s n.var)).negIf f.negated) t := fun t hst => by
    rw [h.eval_side hn, hst n.var hv]
  unfold Satisfiable
  constructor
  · rintro ⟨t, hst, ht⟩
    exact ⟨t, hst, hsame t hst ▸ ht⟩
  · rintro ⟨t, hst, ht⟩
    exact ⟨t, hst, (hsame t hst).symm ▸ ht⟩

/-- A node of the domain is satisfied through one of its sides. -/
theorem satisfiable_within (h : m.Canonical) (hn : m.Stores f.index n)
    (hv : d.base ≤ n.var ∧ n.var < d.base + d.len) :
    m.Satisfiable d f s ↔ m.Satisfiable d ((n.side false).negIf f.negated) s ∨
      m.Satisfiable d ((n.side true).negIf f.negated) s := by
  have hside : ∀ b, m.Satisfiable d ((n.side b).negIf f.negated) s → m.Satisfiable d f s := by
    rintro b ⟨t, hst, ht⟩
    obtain ⟨hhas, -, habove⟩ := h.side_spec hn b
    refine ⟨Function.update t n.var b, fun w hw => ?_, ?_⟩
    · have hne : w ≠ n.var := fun he => hw (by rwa [he])
      rw [Function.update_of_ne hne, hst w hw]
    · rw [h.eval_side hn, Function.update_self, ← ht]
      exact h.eval_congr hhas habove fun w hw => Function.update_of_ne (by omega) _ _
  constructor
  · rintro ⟨t, hst, ht⟩
    rw [h.eval_side hn] at ht
    cases hb : t n.var
    · exact .inl ⟨t, hst, hb ▸ ht⟩
    · exact .inr ⟨t, hst, hb ▸ ht⟩
  · rintro (hl | hr)
    · exact hside false hl
    · exact hside true hr

end Manager

namespace Workspace.Leads

variable {w w' : Workspace}

theorem satisfiable (h : w.Leads w') {f : Ref} (hf : w.current.Has f) {d : Domain}
    {s : Assignment} : w'.current.Satisfiable d f s ↔ w.current.Satisfiable d f s := by
  simp only [Manager.Satisfiable, h.eval hf]

theorem right_exist (h : w.Leads w') {f r : Ref} (hf : w.current.Has f) {d : Domain} :
    w'.current.Right (.exist f d) r ↔ w'.current.Denotes r (w.current.Satisfiable d f) := by
  constructor
  · exact fun hr => hr.2.congr fun s => h.satisfiable hf
  · exact fun hr => ⟨h.grows.has hf, hr.congr fun s => (h.satisfiable hf).symm⟩

end Workspace.Leads

namespace Bdd

open Manager

variable {w : Workspace} {f g : Ref} {F G : Assignment → Prop} {d : Domain}

section Recursion

variable {fuel stop v : Nat} {n : Node}

/-- The result for a node from those for its sides. -/
def existSplit (d : Domain) (fuel v : Nat) (f : Ref) : BddM Ref := do
  let low ← existFrom d fuel (← ask (·.low f))
  if ← d.contains v then
    if low = .one then pure .one
    else do disj low (← existFrom d fuel (← ask (·.high f)))
  else do node v low (← existFrom d fuel (← ask (·.high f)))

theorem existFrom_of_rests (hd : d.stop = .ok stop) (hr : w.current.Rests d f) :
    existFrom d (fuel + 1) f w = .ok f w := by
  unfold existFrom
  rcases hr with h1 | hempty | ⟨n, hn, hle⟩
  · rw [isTerminal_iff.2 h1, Bool.true_or]
    rfl
  · simp only [Domain.isEmpty, hempty, decide_true, Bool.or_true]
    rfl
  · have hstop := Domain.stop_eq hd
    by_cases hempty : d.isEmpty = true
    · rw [hempty, Bool.or_true]
      rfl
    · rw [hn.isTerminal, Bool.false_or, if_neg hempty, ask_bind_eq hn.var, hd]
      change (if stop ≤ n.var then pure f else _ : BddM Ref) w = _
      rw [if_pos (by omega)]
      rfl

/-- At any other node the result is looked up, and made from those for the sides if need be. -/
theorem existFrom_of_stores (hd : d.stop = .ok stop) (hn : w.current.Stores f.index n)
    (hlen : d.len ≠ 0) (hlt : n.var < d.base + d.len) :
    existFrom d (fuel + 1) f w = memoized (.exist f d) (existSplit d fuel n.var f) w := by
  have hstop := Domain.stop_eq hd
  unfold existFrom
  simp only [hn.isTerminal, Domain.isEmpty, hlen, decide_false, Bool.or_self, Bool.false_eq_true,
    ↓reduceIte]
  rw [ask_bind_eq hn.var, hd]
  change (if stop ≤ n.var then pure f else _ : BddM Ref) w = _
  rw [if_neg (by omega)]
  simp only [memoized, existSplit, bind_assoc]
  refine congrFun (congrArg (remembered _ >>= ·) (funext fun o => ?_)) w
  cases o with
  | some r => rfl
  | none =>
    refine congrArg (ask _ >>= ·) (funext fun g =>
      congrArg (existFrom d fuel g >>= ·) (funext fun low =>
        congrArg (liftM _ >>= ·) (funext fun within => ?_)))
    split_ifs <;> simp only [bind_assoc]

end Recursion

section Sides

variable {α : Type} {q : Manager → Except Failure α} {x : α} {walk : α → BddM Ref} {low : Ref}

/-- The disjunction of the sides is known once the low one is constant one. -/
theorem joinSides_yields (hw : w.current.WellFormed) (hlow : w.current.Denotes low F)
    (hq : q w.current = .ok x) (hhigh : Yields w (walk x) fun r m => m.Denotes r G) :
    Yields w (if low = .one then pure .one else do disj low (← walk (← ask q)))
      fun r m => m.Denotes r fun s => F s ∨ G s := by
  split_ifs with hone
  · refine Runs.pure hw ((Denotes.one hw.canonical).congr fun s => ?_)
    have hall := (hlow.eq_one_iff hw.canonical).1 hone s
    simp [hall]
  · refine .ask_bind hq (.bind hhigh fun high w1 hl1 hhigh => ?_)
    exact disj_yields hl1.after (hl1.denotes hlow) hhigh

/-- A variable is kept above sides that do not depend on it. -/
theorem keepRoot_yields {v : Nat} (hv : 0 < v) (hlow : w.current.Denotes low F)
    (hq : q w.current = .ok x) (hhigh : Yields w (walk x) fun r m => m.Denotes r G)
    (hF : ∀ s t : Assignment, (∀ u, v < u → s u = t u) → F s → F t)
    (hG : ∀ s t : Assignment, (∀ u, v < u → s u = t u) → G s → G t) :
    Yields w (do node v low (← walk (← ask q)))
      fun r m => m.Denotes r fun s => if s v then G s else F s := by
  refine .ask_bind hq (.bind hhigh fun high w1 hl1 hhigh => ?_)
  have hlow1 := hl1.denotes hlow
  have hc1 := hl1.after.canonical
  exact node_yields hl1.after hv hlow1 hhigh (hlow1.above hc1 hF) (hhigh.above hc1 hG)

end Sides

theorem existSplit_yields {fuel stop : Nat} {n : Node} (hd : d.stop = .ok stop)
    (hw : w.current.WellFormed) (hn : w.current.Stores f.index n)
    (hrec : ∀ w' g, w.Leads w' → w'.current.Has g → g.index < f.index →
      Yields w' (existFrom d fuel g) fun r m => m.Denotes r (w'.current.Satisfiable d g)) :
    Yields w (existSplit d fuel n.var f) fun r m => m.Denotes r (w.current.Satisfiable d f) := by
  have hc := hw.canonical
  have hstop := Domain.stop_eq hd
  have hside := hc.side_spec hn
  have hrecur : ∀ (b : Bool) w', w.Leads w' →
      Yields w' (existFrom d fuel ((n.side b).negIf f.negated)) fun r m =>
        m.Denotes r (w.current.Satisfiable d ((n.side b).negIf f.negated)) := by
    intro b w' hl
    obtain ⟨hhas, hlt, -⟩ := hside b
    refine (hrec w' _ hl (hl.grows.has hhas) hlt).imp fun r _ _ hden => ?_
    exact hden.congr fun s => hl.satisfiable hhas
  refine .ask_bind hn.low (.bind (hrecur false w (.refl hw)) fun low w1 hl1 hlow => ?_)
  refine .lift_bind (Domain.contains_eq hd) ?_
  simp only [decide_eq_true_eq]
  have hasked := (hl1.grows.stores hn).high
  have hhigh := hrecur true w1 hl1
  by_cases hin : d.base ≤ n.var ∧ n.var < stop
  · rw [if_pos hin]
    rw [hstop] at hin
    refine (joinSides_yields hl1.after hlow hasked hhigh).imp fun r w' hl' hr => ?_
    exact hr.congr fun s => (satisfiable_within hc hn hin).symm
  · rw [if_neg hin]
    rw [hstop] at hin
    refine (keepRoot_yields (hc.orderly _ n hn).var_pos hlow hasked hhigh
      (.side_congr hc hn false) (.side_congr hc hn true)).imp fun r w' hl' hr => ?_
    refine hr.congr fun s => ?_
    rw [satisfiable_above hc hn hin]
    cases s n.var <;> simp

theorem existFrom_yields {fuel stop : Nat} (hd : d.stop = .ok stop) (hw : w.current.WellFormed)
    (hf : w.current.Has f) (hfuel : f.index < fuel) :
    Yields w (existFrom d fuel f) fun r m => m.Denotes r (w.current.Satisfiable d f) := by
  classical
  induction fuel generalizing w f with
  | zero => omega
  | succ fuel ih =>
    have hc := hw.canonical
    by_cases hrest : w.current.Rests d f
    · apply Runs.congr (existFrom_of_rests hd hrest)
      exact Runs.pure hw ⟨hf, fun s => (satisfiable_of_rests hc hf hrest).symm⟩
    obtain ⟨n, hn, hlen, hlt⟩ := exists_of_not_rests hc hf hrest
    apply Runs.congr (existFrom_of_stores hd hn hlen hlt)
    refine memoized_yields hw (fun w' r hl => hl.right_exist hf) fun w' hl => ?_
    refine (existSplit_yields hd hl.after (hl.grows.stores hn) fun w'' g hl' hg hlt =>
      ih hl'.after hg (by omega)).imp fun r _ _ hr => ?_
    exact hr.congr fun s => hl.satisfiable hf

/-- Existential quantification denotes the assignments that some values of the variables satisfy. -/
theorem exist_yields {stop : Nat} (hd : d.stop = .ok stop) (hw : w.current.WellFormed)
    (hF : w.current.Denotes f F) :
    Yields w (exist f d) fun r m => m.Denotes r fun s => ∃ t, AgreeOff d s t ∧ F t := by
  refine .ask_bind rfl ((existFrom_yields hd hw hF.has hF.has.lt_depthBound).imp
    fun r w' _ hr => ?_)
  exact hr.congr fun s => by simp only [Manager.Satisfiable, hF.holds]

theorem univ_yields {stop : Nat} (hd : d.stop = .ok stop) (hw : w.current.WellFormed)
    (hF : w.current.Denotes f F) :
    Yields w (univ f d) fun r m => m.Denotes r fun s => ∀ t, AgreeOff d s t → F t := by
  refine .bind (exist_yields hd hw (hF.neg hw.canonical)) fun r w' hl hr => .pure hl.after ?_
  refine (hr.neg hl.after.canonical).congr fun s => ?_
  simp

theorem joinExist_yields {stop : Nat} (hd : d.stop = .ok stop) (hw : w.current.WellFormed)
    (hF : w.current.Denotes f F) (hG : w.current.Denotes g G) :
    Yields w (joinExist f g d) fun r m =>
      m.Denotes r fun s => ∃ t, AgreeOff d s t ∧ F t ∧ G t :=
  .bind (conj_yields hw hF hG) fun _ _ hl hr => exist_yields hd hl.after hr

/-- The computation returns a function that depends on no variable of the domain and holds exactly
under the assignments in `F`. -/
def Eliminates (d : Domain) (w : Workspace) (x : BddM Ref) (F : Assignment → Prop) : Prop :=
  ∃ r w₁, x w = .ok r w₁ ∧ w.Leads w₁ ∧ w₁.current.Has r ∧
    (∀ s t : Assignment, AgreeOff d s t → w₁.current.evaluate r (fun v => .ok (s v)) =
      w₁.current.evaluate r fun v => .ok (t v)) ∧
    ∀ s : Assignment, ∃ b, w₁.current.evaluate r (fun v => .ok (s v)) = .ok b ∧ (b = true ↔ F s)

theorem Eliminates.of_yields {x : BddM Ref} (hx : Yields w x fun r m => m.Denotes r F)
    (hF : ∀ s t, AgreeOff d s t → (F s ↔ F t)) : Eliminates d w x F := by
  obtain ⟨r, w₁, hrun, hl, hr⟩ := yields_iff.1 hx
  have hm := hl.after.canonical
  refine ⟨r, w₁, hrun, hl, hr.has, fun s t hst => ?_, hr.evaluate hm⟩
  exact hr.evaluate_congr hm (hF s t hst)

/-- Without an end of the domain nothing is quantified, and only constants pass. -/
theorem exist_keeps (hw : w.current.WellFormed) (hf : w.current.Has f) :
    Runs True w (exist f d) fun r m => m.Has r := by
  cases hd : d.stop with
  | ok stop =>
    exact (exist_yields hd hw (denotes_eval hf)).mono (fun _ => trivial) fun _ _ _ h => h.has
  | error e =>
    refine .ask_bind rfl ?_
    have hpos : w.current.depthBound = w.current.depthBound - 1 + 1 := by
      have := hf.lt_depthBound
      omega
    rw [hpos]
    unfold existFrom
    by_cases hstop : (f.isTerminal || d.isEmpty) = true
    · rw [if_pos hstop]
      exact Runs.pure hw hf
    · rw [if_neg hstop]
      refine .ask_bind (hw.canonical.var_eq hf) ?_
      rw [hd]
      exact ⟨trivial, .refl hw⟩

end Bdd

end SymbolicAutomata
