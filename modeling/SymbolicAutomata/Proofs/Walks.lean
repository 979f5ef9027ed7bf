import SymbolicAutomata.Proofs.Belonging
import SymbolicAutomata.Proofs.Mirrors
import SymbolicAutomata.Proofs.Replacements
import SymbolicAutomata.Proofs.Substitutions
/-!
# Operations in managers with the same nodes

Walks ask for the same nodes in both managers and keep the same notes, so all operations have the
same results there.
-/
namespace SymbolicAutomata

theorem Manager.Canonical.has_children {m : Manager} {f : Ref} {n : Node} (hm : m.Canonical)
    (hn : m.Stores f.index n) :
    m.Has (n.low.negIf f.negated) ∧ m.Has (n.high.negIf f.negated) :=
  ⟨(hm.side_spec hn false).1, (hm.side_spec hn true).1⟩

def Manager.Visited (m : Manager) (seen : Std.TreeSet Nat) : Prop :=
  1 ∈ seen ∧ ∀ i ∈ seen, 0 < i ∧ i ≤ m.nodeCount

theorem Manager.Visited.insert {m : Manager} {f : Ref} {seen : Std.TreeSet Nat}
    (h : m.Visited seen) (hf : m.Has f) : m.Visited (seen.insert f.index) := by
  refine ⟨by simp [h.1], fun i hi => ?_⟩
  rcases mem_insert.1 hi with rfl | hi
  · exact hf
  · exact h.2 i hi

namespace Manager.Grows

variable {m m' : Manager} {f : Ref} {seen : Std.TreeSet Nat}

theorem decidedBelow_eq (h : m.Grows m') (hf : m.Has f) (level : Nat) :
    m'.decidedBelow level f = m.decidedBelow level f := by
  unfold Manager.decidedBelow
  rw [h.var hf]

theorem evaluateFrom (h : m.Grows m') (hm : m.Canonical) (value : Nat → Except Failure Bool)
    {fuel : Nat} (hf : m.Has f) :
    m'.evaluateFrom value fuel f = m.evaluateFrom value fuel f := by
  induction fuel generalizing f with
  | zero => rfl
  | succ fuel ih =>
    unfold Manager.evaluateFrom
    rw [h.var hf, h.low hf, h.high hf]
    rcases hm.cases hf with h1 | ⟨n, hn⟩
    · simp [isTerminal_iff.2 h1]
    · obtain ⟨hlow, hhigh⟩ := hm.has_children hn
      rw [hn.low, hn.high]
      simp only [bind, Except.bind, ih hlow, ih hhigh]

theorem bracketFrom (h : m.Grows m') (hm : m.Canonical) {fuel : Nat} (hf : m.Has f) :
    m'.bracketFrom fuel f = m.bracketFrom fuel f := by
  induction fuel generalizing f with
  | zero => rfl
  | succ fuel ih =>
    unfold Manager.bracketFrom
    rw [h.var hf, h.low hf, h.high hf]
    rcases hm.cases hf with h1 | ⟨n, hn⟩
    · rcases eq_one_or_zero h1 with rfl | rfl <;> simp
    · obtain ⟨hlow, hhigh⟩ := hm.has_children hn
      rw [hn.low, hn.high]
      simp only [bind, Except.bind, ih hlow, ih hhigh]

/-- The terminal is there from the start, so that no walk asks for its children. -/
theorem descendantsFrom (h : m.Grows m') (hm : m.Canonical) (fuel : Nat) (hf : m.Has f)
    (hseen : m.Visited seen) :
    m'.descendantsFrom fuel f seen = m.descendantsFrom fuel f seen ∧
      ∀ seen', m.descendantsFrom fuel f seen = .ok seen' → m.Visited seen' := by
  induction fuel generalizing f seen with
  | zero => exact ⟨rfl, fun _ h => by cases h⟩
  | succ fuel ih =>
    unfold Manager.descendantsFrom
    split_ifs with hknown
    · exact ⟨rfl, fun _ h => Except.ok.inj h ▸ hseen⟩
    rw [h.low hf, h.high hf]
    obtain ⟨n, hn⟩ := (hm.cases hf).resolve_left fun h1 => hknown (by simpa [h1] using hseen.1)
    obtain ⟨hlow, hhigh⟩ := hm.has_children hn
    rw [hn.low, hn.high]
    obtain ⟨heq, hkept⟩ := ih hlow (hseen.insert hf)
    simp only [bind, Except.bind, heq]
    cases hx : m.descendantsFrom fuel (n.low.negIf f.negated) (seen.insert f.index) with
    | error e => exact ⟨rfl, fun _ h => by cases h⟩
    | ok seen2 => exact ih hhigh (hkept seen2 hx)

theorem foldlM_descendantsFrom (h : m.Grows m') (hm : m.Canonical) (fuel : Nat) {fs : List Ref}
    (hfs : ∀ f ∈ fs, m.Has f) (hseen : m.Visited seen) :
    fs.foldlM (fun seen f => m'.descendantsFrom fuel f seen) seen =
        fs.foldlM (fun seen f => m.descendantsFrom fuel f seen) seen ∧
      ∀ seen', fs.foldlM (fun seen f => m.descendantsFrom fuel f seen) seen = .ok seen' →
        m.Visited seen' := by
  induction fs generalizing seen with
  | nil => exact ⟨rfl, fun _ h => Except.ok.inj h ▸ hseen⟩
  | cons f fs ih =>
    obtain ⟨heq, hkept⟩ := h.descendantsFrom hm fuel (hfs f (by simp)) hseen
    simp only [List.foldlM_cons, bind, Except.bind, heq]
    cases hx : m.descendantsFrom fuel f seen with
    | error e => exact ⟨rfl, fun _ h => by cases h⟩
    | ok seen2 => exact ih (fun g hg => hfs g (by simp [hg])) (hkept seen2 hx)

theorem mapM_var (h : m.Grows m') {is : List Nat} (his : ∀ i ∈ is, 0 < i ∧ i ≤ m.nodeCount) :
    is.mapM (fun i => m'.var (.of i false)) = is.mapM fun i => m.var (.of i false) := by
  induction is with
  | nil => rfl
  | cons i is ih =>
    have hvar : m'.var (.of i false) = m.var (.of i false) :=
      h.var (by simpa [Manager.Has, Ref.of_index] using his i (by simp))
    rw [List.mapM_cons, List.mapM_cons, hvar, ih fun j hj => his j (by simp [hj])]

end Manager.Grows

namespace Workspace.Twins

variable {w w' : Workspace} {f : Ref}

theorem cofactorsBelow (h : w.Twins w') (hf : w.current.Has f) (level : Nat) :
    w'.current.cofactorsBelow f level = w.current.cofactorsBelow f level := by
  have hm := h.there.before.canonical
  obtain ⟨ts, visited, hwalk⟩ := Manager.exists_walks hm hf level ∅
  rw [hwalk.cofactorsBelow_eq hm hf]
  exact (hwalk.later h.there.grows hm hf).cofactorsBelow_eq h.there.after.canonical
    (h.there.grows.has hf)

theorem evaluate (h : w.Twins w') (hf : w.current.Has f) (value : Nat → Except Failure Bool) :
    w'.current.evaluate f value = w.current.evaluate f value := by
  unfold Manager.evaluate
  rw [h.depthBound, h.there.grows.evaluateFrom h.there.before.canonical value hf]

theorem bracket (h : w.Twins w') (hf : w.current.Has f) :
    w'.current.bracket f = w.current.bracket f := by
  unfold Manager.bracket
  rw [h.depthBound, h.there.grows.bracketFrom h.there.before.canonical hf]

theorem descendants (h : w.Twins w') (fs : List Ref) (hfs : ∀ f ∈ fs, w.current.Has f) :
    w'.current.descendants fs = w.current.descendants fs ∧
      ∀ is, w.current.descendants fs = .ok is → ∀ i ∈ is, 0 < i ∧ i ≤ w.current.nodeCount := by
  have hone := h.there.before.canonical.has_one
  have hstart : w.current.Visited (Std.TreeSet.ofList [Ref.one.index]) :=
    ⟨by simp [Ref.one, Ref.of_index], fun i hi => by
      obtain rfl : Ref.one.index = i := by simpa using hi
      exact hone⟩
  unfold Manager.descendants
  obtain ⟨heq, hkept⟩ := h.there.grows.foldlM_descendantsFrom
    h.there.before.canonical w.current.depthBound hfs hstart
  rw [h.depthBound, heq]
  refine ⟨rfl, fun is his i hi => ?_⟩
  cases hx : fs.foldlM (fun seen f => w.current.descendantsFrom w.current.depthBound f seen)
      (Std.TreeSet.ofList [Ref.one.index]) with
  | error e =>
    rw [hx] at his
    cases his
  | ok seen =>
    rw [hx] at his
    obtain rfl := Except.ok.inj his
    exact (hkept seen hx).2 i (Std.TreeSet.mem_toList.1 hi)

theorem support (h : w.Twins w') (hf : w.current.Has f) :
    w'.current.support f = w.current.support f := by
  obtain ⟨heq, hfound⟩ := h.descendants [f] (by simpa using hf)
  unfold Manager.support
  rw [heq]
  cases hx : w.current.descendants [f] with
  | error e => rfl
  | ok is =>
    have hvars := h.there.grows.mapM_var (hfound is hx)
    simp only [bind, Except.bind, hvars]

theorem nodesOf (h : w.Twins w') (hf : w.current.Has f) :
    w'.current.nodesOf f = w.current.nodesOf f := by
  unfold Manager.nodesOf
  rw [(h.descendants [f] (by simpa using hf)).1]

end Workspace.Twins

namespace Bdd

open Manager

variable {α σ : Type} {v v' w₀ w w' : Workspace} {f g : Ref}

section Connectives

theorem conj_mirrors (ht : w.Twins w') (hf : w.current.Has f) (hg : w.current.Has g) :
    Mirrors w w' (conj f g) fun r m => m.Has r :=
  ite_mirrors ht hf hg ht.there.before.canonical.has_zero

theorem disj_mirrors (ht : w.Twins w') (hf : w.current.Has f) (hg : w.current.Has g) :
    Mirrors w w' (disj f g) fun r m => m.Has r :=
  ite_mirrors ht hf ht.there.before.canonical.has_one hg

theorem diff_mirrors (ht : w.Twins w') (hf : w.current.Has f) (hg : w.current.Has g) :
    Mirrors w w' (diff f g) fun r m => m.Has r :=
  ite_mirrors ht hg ht.there.before.canonical.has_zero hf

theorem implies_mirrors (ht : w.Twins w') (hf : w.current.Has f) (hg : w.current.Has g) :
    Mirrors w w' (implies f g) fun _ _ => True :=
  (diff_mirrors ht hf hg).bind fun _ _ _ ht _ _ => Mirrors.pure ht trivial

theorem foldlM_mirrors {add : Ref → α → BddM Ref} {xs : List α} {K : α → Manager → Prop}
    (ht : w.Twins w') (hf : w.current.Has f) (hxs : ∀ x ∈ xs, K x w.current)
    (hlater : ∀ x (v v' : Workspace), v.Leads v' → K x v.current → K x v'.current)
    (hadd : ∀ x v v' f, v.Twins v' → v.current.Has f → K x v.current →
      Mirrors v v' (add f x) fun r m => m.Has r) :
    Mirrors w w' (xs.foldlM add f) fun r m => m.Has r := by
  induction xs generalizing w w' f with
  | nil => exact Mirrors.pure ht hf
  | cons x xs ih =>
    rw [List.foldlM_cons]
    refine (hadd x w w' f ht hf (hxs x (by simp))).bind fun r v v' ht1 hl hr => ?_
    exact ih ht1 hr fun y hy => hlater y w v hl (hxs y (by simp [hy]))

theorem conjAll_mirrors {fs : List Ref} (ht : w.Twins w') (hfs : ∀ f ∈ fs, w.current.Has f) :
    Mirrors w w' (conjAll fs) fun r m => m.Has r :=
  foldlM_mirrors (K := fun f m => m.Has f) ht ht.there.before.canonical.has_one hfs
    (fun _ _ _ hl => hl.grows.has) fun _ _ _ _ ht hf hx => conj_mirrors ht hf hx

theorem disjAll_mirrors {fs : List Ref} (ht : w.Twins w') (hfs : ∀ f ∈ fs, w.current.Has f) :
    Mirrors w w' (disjAll fs) fun r m => m.Has r :=
  foldlM_mirrors (K := fun f m => m.Has f) ht ht.there.before.canonical.has_zero hfs
    (fun _ _ _ hl => hl.grows.has) fun _ _ _ _ ht hf hx => disj_mirrors ht hf hx

end Connectives

section Quantification

variable {d : Domain}

theorem exist_mirrors (ht : w.Twins w') (hf : w.current.Has f) :
    Mirrors w w' (exist f d) fun r m => m.Has r := by
  refine Mirrors.ask_depthBound ht ?_
  cases hd : d.stop with
  | ok stop => exact (existFrom_mirrors hd ht hf hf.lt_depthBound).imp fun _ _ _ hr => hr.has
  | error e =>
    have hpos : w.current.depthBound = w.current.depthBound - 1 + 1 := by
      have := hf.lt_depthBound
      omega
    rw [hpos]
    unfold existFrom
    split_ifs with hstop
    · exact Mirrors.pure ht hf
    · refine Mirrors.ask_bind ht (ht.there.grows.var hf) fun v hv => ?_
      exact Mirrors.lift_bind ht fun stop hstop => by simp [hd] at hstop

theorem univ_mirrors (ht : w.Twins w') (hf : w.current.Has f) :
    Mirrors w w' (univ f d) fun r m => m.Has r :=
  (exist_mirrors ht (has_neg.2 hf)).bind fun _ _ _ ht _ hr => Mirrors.pure ht (has_neg.2 hr)

theorem joinExist_mirrors (ht : w.Twins w') (hf : w.current.Has f) (hg : w.current.Has g) :
    Mirrors w w' (joinExist f g d) fun r m => m.Has r :=
  (conj_mirrors ht hf hg).bind fun _ _ _ ht _ hr => exist_mirrors ht hr

end Quantification

section Substitution

/-- Fixing variables, with what the walk has noted of functions of the manager it began in. -/
theorem restrictFrom_mirrors {fixed : Fixing} {fuel : Nat} {memo : Memo} (ht : w.Twins w')
    (hl : w₀.Leads w) (hf : w₀.current.Has f) (hfuel : f.index < fuel)
    (hmemo : memo.Sound (w₀.current.Reads w.current fixed.override)) :
    Mirrors w w' (restrictFrom fixed fuel f memo) fun p m =>
      w₀.current.Reads m fixed.override f p.1 ∧
        p.2.Sound (w₀.current.Reads m fixed.override) := by
  suffices h : Mirrors w w' (restrictFrom fixed fuel f memo) fun _ _ => True from
    (h.and_runs (restrictFrom_yields hl hf hfuel hmemo)).imp fun _ _ _ hp => hp.2
  induction fuel generalizing w w' f memo with
  | zero => omega
  | succ fuel ih =>
    have hc := hl.before.canonical
    unfold restrictFrom
    rcases hc.cases hf with h1 | ⟨n, hn⟩
    · rw [if_pos (isTerminal_iff.2 h1)]
      exact Mirrors.pure ht trivial
    have hnw := hl.grows.stores hn
    simp only [hn.isTerminal, Bool.false_eq_true, ↓reduceIte]
    cases hfind : memo[f]? with
    | some r => exact Mirrors.pure ht trivial
    | none =>
      refine Mirrors.ask_var ht hnw ?_
      have hside := hc.side_spec hn
      have hrecur : ∀ (b : Bool) (v v' : Workspace) (memo : Memo), v.Twins v' → w₀.Leads v →
          memo.Sound (w₀.current.Reads v.current fixed.override) →
          Mirrors v v' (restrictFrom fixed fuel ((n.side b).negIf f.negated) memo) fun p m =>
            w₀.current.Reads m fixed.override ((n.side b).negIf f.negated) p.1 ∧
              p.2.Sound (w₀.current.Reads m fixed.override) := by
        intro b v v' memo ht' hl' hmemo'
        have hlt := Nat.lt_of_lt_of_le (hside b).2.1 (Nat.le_of_lt_succ hfuel)
        exact ((ih ht' hl' (hside b).1 hlt hmemo').and_runs
          (restrictFrom_yields hl' (hside b).1 hlt hmemo')).imp fun _ _ _ hp => hp.2
      cases hlook : fixed.lookup n.var with
      | some b =>
        cases b with
        | true =>
          exact Mirrors.ask_high ht hnw ((hrecur true w w' memo ht hl hmemo).bind
            fun _ _ _ ht1 _ _ => Mirrors.pure ht1 trivial)
        | false =>
          exact Mirrors.ask_low ht hnw ((hrecur false w w' memo ht hl hmemo).bind
            fun _ _ _ ht1 _ _ => Mirrors.pure ht1 trivial)
      | none =>
        refine Mirrors.ask_low ht hnw ((hrecur false w w' memo ht hl hmemo).bind
          fun p v1 v1' ht1 hl1 hp => ?_)
        have hl1' := hl.trans hl1
        refine Mirrors.ask_high ht1 (hl1.grows.stores hnw)
          ((hrecur true v1 v1' p.2 ht1 hl1' hp.2).bind fun q v2 v2' ht2 hl2 hq => ?_)
        have hc2 := hl2.after.canonical
        have hlow := hl2.denotes hp.1.2
        refine (node_mirrors ht2 hlow hq.1.2
          (hlow.above hc2 fun s t hst h => eval_override_congr false hc hn hst ▸ h)
          (hq.1.2.above hc2 fun s t hst h => eval_override_congr true hc hn hst ▸ h)).bind
          fun r v3 v3' ht3 _ _ => Mirrors.pure ht3 trivial

theorem restrict_mirrors {fixed : Fixing} (ht : w.Twins w') (hf : w.current.Has f) :
    Mirrors w w' (restrict f fixed) fun r m => m.Has r := by
  unfold restrict
  split_ifs
  · exact Mirrors.pure ht hf
  · refine Mirrors.ask_depthBound ht ?_
    refine (restrictFrom_mirrors ht (.refl ht.there.before) hf hf.lt_depthBound
      Memo.sound_empty).bind fun p v v' ht1 _ hp => ?_
    exact Mirrors.pure ht1 hp.1.2.has

/-- All that the walk has noted belongs to the manager. -/
def Noted (m : Manager) (_ r : Ref) : Prop := m.Has r

theorem Noted.later {memo : Memo} (h : memo.Sound (Noted v.current)) (hl : v.Leads v') :
    memo.Sound (Noted v'.current) := h.imp fun _ _ => hl.grows.has

theorem renameFrom_mirrors {names : Renaming} {fuel : Nat} {memo : Memo} (ht : w.Twins w')
    (hf : w.current.Has f) (hmemo : memo.Sound (Noted w.current)) :
    Mirrors w w' (renameFrom names fuel f memo) fun p m => m.Has p.1 ∧ p.2.Sound (Noted m) := by
  induction fuel generalizing w w' f memo with
  | zero => exact Mirrors.throw ht
  | succ fuel ih =>
    have hc := ht.there.before.canonical
    unfold renameFrom
    rcases hc.cases hf with h1 | ⟨n, hn⟩
    · rw [if_pos (isTerminal_iff.2 h1)]
      exact Mirrors.pure ht ⟨hf, hmemo⟩
    simp only [hn.isTerminal, Bool.false_eq_true, ↓reduceIte]
    cases hfind : memo[f.regular]? with
    | some r => exact Mirrors.pure ht ⟨has_negIf.2 (hmemo _ r hfind), hmemo⟩
    | none =>
      have hn' : w.current.Stores f.regular.index n := by rwa [Ref.regular, Ref.of_index]
      have hside := fun b => (hc.side_spec hn' b).1
      refine Mirrors.ask_var ht hn' (Mirrors.ask_low ht hn' ?_)
      refine (ih ht (hside false) hmemo).bind fun p v1 v1' ht1 hl1 hp => ?_
      refine Mirrors.ask_high ht1 (hl1.grows.stores hn') ?_
      refine (ih ht1 (hl1.grows.has (hside true)) hp.2).bind fun q v2 v2' ht2 hl2 hq => ?_
      refine (literal_mirrors ht2 _).bind fun x v3 v3' ht3 hl3 hx => ?_
      refine (ite_mirrors ht3 hx (hl3.grows.has hq.1)
        ((hl2.trans hl3).grows.has hp.1)).bind fun r v4 v4' ht4 hl4 hr => ?_
      exact Mirrors.pure ht4 ⟨has_negIf.2 hr, (Noted.later hq.2 (hl3.trans hl4)).insert hr⟩

theorem rename_mirrors {names : Renaming} (ht : w.Twins w') (hf : w.current.Has f) :
    Mirrors w w' (rename f names) fun r m => m.Has r := by
  unfold rename
  split_ifs
  · exact Mirrors.pure ht hf
  · refine Mirrors.ask_depthBound ht ?_
    exact (renameFrom_mirrors ht hf Memo.sound_empty).bind fun p v v' ht1 _ hp =>
      Mirrors.pure ht1 hp.1

end Substitution

section Splitting

variable {level : Nat} {x : BddM α} {β : Type}

theorem Mirrors.state_bind {x : StateT σ BddM α} {y : α → StateT σ BddM β} {st : σ}
    {Q : α × σ → Manager → Prop} {S : β × σ → Manager → Prop} (hx : Mirrors w w' (x st) Q)
    (hy : ∀ a st' v v', v.Twins v' → w.Leads v → Q (a, st') v.current →
      Mirrors v v' (y a st') S) : Mirrors w w' ((x >>= y) st) S :=
  hx.bind fun a v v' ht hl hQ => hy a.1 a.2 v v' ht hl hQ

theorem Mirrors.state_lift {y : α → StateT σ BddM β} {st : σ} {Q : α → Manager → Prop}
    {S : β × σ → Manager → Prop} (hx : Mirrors w w' x Q)
    (hy : ∀ a v v', v.Twins v' → w.Leads v → Q a v.current → Mirrors v v' (y a st) S) :
    Mirrors w w' ((liftM x >>= y : StateT σ BddM β) st) S := by
  rw [state_lift_bind]
  exact hx.bind hy

theorem replaceFrom_mirrors {make : Ref → StateT σ BddM Ref} {fuel : Nat} {memo : Memo} {st : σ}
    (hmake : ∀ v v' t st, v.Twins v' → v.current.Has t →
      Mirrors v v' (make t st) fun a m => m.Has a.1)
    (ht : w.Twins w') (hf : w.current.Has f) (hmemo : memo.Sound (Noted w.current)) :
    Mirrors w w' (replaceFrom level make fuel f memo st) fun a m =>
      m.Has a.1.1 ∧ a.1.2.Sound (Noted m) := by
  induction fuel generalizing w w' f memo st with
  | zero => exact Mirrors.throw ht
  | succ fuel ih =>
    have hc := ht.there.before.canonical
    unfold replaceFrom
    cases hfind : memo[f]? with
    | some r => exact Mirrors.pure ht ⟨hmemo f r hfind, hmemo⟩
    | none =>
      simp only
      rw [state_lift_bind]
      refine Mirrors.ask_bind ht (ht.there.grows.decidedBelow_eq hf level) fun b hb => ?_
      split_ifs with hdone
      · refine (hmake w w' f st ht hf).state_bind fun r st' v v' ht1 hl1 hr => ?_
        exact Mirrors.pure ht1 ⟨hr, (Noted.later hmemo hl1).insert hr⟩
      · have hopen : ¬ w.current.DecidedBelow level f := by
          classical
          rw [hc.decidedBelow_eq hf] at hb
          simpa [← Except.ok.inj hb] using hdone
        obtain ⟨n, hn, -⟩ := not_decidedBelow.1 hopen
        have hside := fun b => (hc.side_spec hn b).1
        rw [state_lift_bind]
        refine Mirrors.ask_var ht hn ?_
        rw [state_lift_bind]
        refine Mirrors.ask_low ht hn ?_
        refine (ih ht (hside false) hmemo).state_bind fun a st1 v1 v1' ht1 hl1 ha => ?_
        rw [state_lift_bind]
        refine Mirrors.ask_high ht1 (hl1.grows.stores hn) ?_
        refine (ih ht1 (hl1.grows.has (hside true)) ha.2).state_bind
          fun b st2 v2 v2' ht2 hl2 hb => ?_
        refine (literal_mirrors ht2 _).state_lift fun x v3 v3' ht3 hl3 hx => ?_
        refine (ite_mirrors ht3 hx (hl3.grows.has hb.1)
          ((hl2.trans hl3).grows.has ha.1)).state_lift fun r v4 v4' ht4 hl4 hr => ?_
        exact Mirrors.pure ht4 ⟨hr, (Noted.later hb.2 (hl3.trans hl4)).insert hr⟩

/-- A replacement in both managers, if what stands in for the remaining functions is alike. -/
theorem replaceBelow_mirrors {make : Ref → StateT σ BddM Ref} {st : σ}
    (hmake : ∀ v v' t st, v.Twins v' → v.current.Has t →
      Mirrors v v' (make t st) fun a m => m.Has a.1)
    (ht : w.Twins w') (hf : w.current.Has f) :
    Mirrors w w' (replaceBelow f level make st) fun a m => m.Has a.1 := by
  unfold replaceBelow
  rw [state_lift_bind]
  refine Mirrors.ask_depthBound ht ?_
  exact (replaceFrom_mirrors hmake ht hf Memo.sound_empty).state_bind
    fun a st' v v' ht1 _ ha => Mirrors.pure ht1 ha.1

theorem selectBelow_mirrors {t : Ref} (ht : w.Twins w') (hf : w.current.Has f) :
    Mirrors w w' (selectBelow f level t) fun r m => m.Has r := by
  have hmake : ∀ v v' u (st : PUnit), v.Twins v' → v.current.Has u →
      Mirrors v v' ((pure (if u = t then .one else .zero) : StateT PUnit BddM Ref) st)
        fun a m => m.Has a.1 := by
    intro v v' u st ht1 _
    refine Mirrors.pure ht1 ?_
    split_ifs
    · exact ht1.there.before.canonical.has_one
    · exact ht1.there.before.canonical.has_zero
  exact (replaceBelow_mirrors hmake ht hf).bind fun a v v' ht1 _ ha => Mirrors.pure ht1 ha

end Splitting

section Encoding

variable {d : Domain} {F : Assignment → Prop}

theorem guardLiteral_mirrors {l : Int} (ht : w.Twins w') (hF : w.current.Denotes f F)
    (habove : w.current.Above l.natAbs f) :
    Mirrors w w' (guardLiteral f l) fun r m => m.Denotes r fun s => Literal.Holds s l ∧ F s := by
  have hc := ht.there.before.canonical
  rcases eq_or_ne l 0 with rfl | hl
  · exact Mirrors.throw ht
  suffices h : Mirrors w w' (guardLiteral f l) fun _ _ => True from
    (h.and_runs (guardLiteral_yields ht.there.before hl hF habove)).imp fun _ _ _ hr => hr.2
  unfold guardLiteral
  split_ifs
  · exact (node_mirrors ht hF (.zero hc) habove above_zero).imp fun _ _ _ _ => trivial
  · exact (node_mirrors ht (.zero hc) hF above_zero habove).imp fun _ _ _ _ => trivial

theorem foldr_guardLiteral_mirrors {ls : List Int} (ht : w.Twins w')
    (hls : ls.Pairwise (Int.natAbs · < Int.natAbs ·)) :
    Mirrors w w' (ls.foldrM (fun l f => guardLiteral f l) .one) fun r m =>
      m.Denotes r fun s => ∀ l ∈ ls, Literal.Holds s l := by
  induction ls generalizing w w' with
  | nil => exact Mirrors.pure ht ((Denotes.one ht.there.before.canonical).congr fun s => by simp)
  | cons l ls ih =>
    obtain ⟨hl, hls⟩ := List.pairwise_cons.1 hls
    rw [List.foldrM_cons]
    refine (ih ht hls).bind fun f v v' ht1 hl1 hF => ?_
    have habove : v.current.Above l.natAbs f := by
      apply hF.above hl1.after.canonical
      intro s t hst hs k hk
      unfold Literal.Holds
      rw [← hst _ (hl k hk)]
      exact hs k hk
    exact (guardLiteral_mirrors ht1 hF habove).imp fun r _ _ hr => hr.congr fun s => by simp

/-- A cube fails, or else has literals of distinct variables. -/
theorem cube_mirrors {ls : List Int} (ht : w.Twins w')
    (hls : leastWord ∈ ls ∨ (ls.map Int.natAbs).Nodup) :
    Mirrors w w' (cube ls) fun r m => m.Has r := by
  unfold cube
  split_ifs with hleast
  · exact Mirrors.throw ht
  · have hnodup := hls.resolve_left (by simpa using hleast)
    rw [List.foldlM_reverse]
    exact (foldr_guardLiteral_mirrors ht (sorted_natAbs hnodup)).imp fun _ _ _ hr => hr.has

theorem value_mirrors {n : Nat} (ht : w.Twins w') :
    Mirrors w w' (value d n) fun r m => m.Has r := by
  unfold value
  split_ifs
  · exact Mirrors.throw ht
  · apply Mirrors.lift_bind ht
    intro vs hvs
    obtain ⟨hend, rfl⟩ := Domain.vars_eq_ok_iff.1 hvs
    apply Mirrors.lift_bind ht
    intro ls hls
    exact cube_mirrors ht (distinct_of_literals hend (literals_of_value hls))

theorem atMost_mirrors {bits bound : Nat} (ht : w.Twins w') :
    Mirrors w w' (atMost d bits bound) fun r m => m.Has r := by
  induction bits generalizing w w' bound with
  | zero => exact Mirrors.pure ht ht.there.before.canonical.has_one
  | succ i ih =>
    apply Mirrors.lift_bind ht
    intro v _
    by_cases hout : i + 1 < 64 ∧ bound >>> (i + 1) ≠ 0
    · rw [if_pos hout]
      exact Mirrors.pure ht ht.there.before.canonical.has_one
    · rw [if_neg hout]
      apply Mirrors.lift_bind ht
      intro mask _
      refine (ih ht).bind fun rest v1 v1' ht1 hl1 hrest => ?_
      refine (literal_mirrors ht1 v).bind fun x v2 v2' ht2 hl2 hx => ?_
      have hc := ht2.there.before.canonical
      split_ifs
      · exact ite_mirrors ht2 hx (hl2.grows.has hrest) hc.has_one
      · exact ite_mirrors ht2 hx hc.has_zero (hl2.grows.has hrest)

theorem atLeast_mirrors {bits bound : Nat} (ht : w.Twins w') :
    Mirrors w w' (atLeast d bits bound) fun r m => m.Has r := by
  induction bits generalizing w w' bound with
  | zero =>
    refine Mirrors.pure ht ?_
    split_ifs
    · exact ht.there.before.canonical.has_one
    · exact ht.there.before.canonical.has_zero
  | succ i ih =>
    apply Mirrors.lift_bind ht
    intro v _
    by_cases hout : i + 1 < 64 ∧ bound >>> (i + 1) ≠ 0
    · rw [if_pos hout]
      exact Mirrors.pure ht ht.there.before.canonical.has_zero
    · rw [if_neg hout]
      apply Mirrors.lift_bind ht
      intro mask _
      refine (ih ht).bind fun rest v1 v1' ht1 hl1 hrest => ?_
      refine (literal_mirrors ht1 v).bind fun x v2 v2' ht2 hl2 hx => ?_
      have hc := ht2.there.before.canonical
      split_ifs
      · exact ite_mirrors ht2 hx (hl2.grows.has hrest) hc.has_zero
      · exact ite_mirrors ht2 hx hc.has_one (hl2.grows.has hrest)

theorem range_mirrors {lo hi : Nat} (ht : w.Twins w') :
    Mirrors w w' (range d lo hi) fun r m => m.Has r := by
  unfold range
  split_ifs
  · exact Mirrors.pure ht ht.there.before.canonical.has_zero
  · refine (atMost_mirrors ht).bind fun below v v' ht1 hl1 hbelow => ?_
    refine (atLeast_mirrors ht1).bind fun above v2 v2' ht2 hl2 habove => ?_
    exact conj_mirrors ht2 (hl2.grows.has hbelow) habove

end Encoding

end Bdd

end SymbolicAutomata
