import SymbolicAutomata.Substitution
import SymbolicAutomata.Proofs.Conditionals
/-!
# Fixing and renaming variables

Both operations read the function under a changed assignment: fixed variables have their given
value, and a renamed variable has the value of its new name. The references of a walk stay those of
the manager in which it began, so what a walk has made is right for all that it makes later.
-/
namespace SymbolicAutomata

namespace Memo

variable {memo : Memo} {P Q : Ref → Ref → Prop}

/-- All entries stand in the given relation. -/
def Sound (memo : Memo) (P : Ref → Ref → Prop) : Prop := ∀ f r, memo[f]? = some r → P f r

theorem sound_empty : Sound (∅ : Memo) P := fun f r h => by simp at h

theorem Sound.imp (h : memo.Sound P) (hPQ : ∀ f r, P f r → Q f r) : memo.Sound Q :=
  fun f r hr => hPQ f r (h f r hr)

theorem Sound.insert (h : memo.Sound P) {f r : Ref} (hr : P f r) :
    Sound (Std.TreeMap.insert memo f r) P := by
  intro g q hq
  rw [Std.TreeMap.getElem?_insert] at hq
  split_ifs at hq with heq
  · obtain rfl := Std.LawfulEqOrd.eq_of_compare heq
    cases hq
    exact hr
  · exact h g q hq

end Memo

def Fixing.override (fixed : Fixing) (s : Assignment) : Assignment := fun v =>
  (fixed.lookup v).getD (s v)

/-- All variables below the level, as an assignment has them. -/
def Fixing.below (level : Nat) (s : Assignment) : Fixing := (List.range level).map fun v => (v, s v)

theorem Fixing.lookup_below (level : Nat) (s : Assignment) (v : Nat) :
    (Fixing.below level s).lookup v = if v < level then some (s v) else none := by
  unfold Fixing.below
  split_ifs with hv
  · exact List.lookup_graph s (List.mem_range.2 hv)
  · rw [List.lookup_eq_none_iff]
    simp only [List.mem_map, List.mem_range]
    rintro _ ⟨u, hu, rfl⟩
    simp only [bne_iff_ne]
    omega

theorem Fixing.override_below (level : Nat) (s s' : Assignment) :
    (Fixing.below level s).override s' = fun v => if v < level then s v else s' v := by
  funext v
  rw [Fixing.override, Fixing.lookup_below]
  split_ifs <;> rfl

theorem Renaming.apply_pos {names : Renaming} (h : ∀ e ∈ names.entries, 0 < e.2) {v : Nat}
    (hv : 0 < v) : 0 < names.apply v := by
  unfold Renaming.apply
  rw [Std.TreeMap.getD_eq_getD_getElem?]
  cases hn : names.names[v]? with
  | none => exact hv
  | some a => exact h (v, a) (Std.TreeMap.mem_toList_iff_getElem?_eq_some.2 hn)

/-- The assignment that a function is read under when its variables get new names. -/
def Renaming.pull (names : Renaming) (s : Assignment) : Assignment := fun v => s (names.apply v)

namespace Manager

/-- What `r` denotes in `m` is `f` of `m₀` under the changed assignment. -/
def Reads (m₀ m : Manager) (change : Assignment → Assignment) (f r : Ref) : Prop :=
  m₀.Has f ∧ m.Denotes r fun s => m₀.eval f (change s) = true

theorem Reads.neg {m₀ m : Manager} {change : Assignment → Assignment} {f r : Ref}
    (h : m₀.Reads m change f r) (hc₀ : m₀.Canonical) (hc : m.Canonical) (b : Bool) :
    m₀.Reads m change (f.negIf b) (r.negIf b) := by
  refine ⟨has_negIf.2 h.1, (h.2.negIf hc b).congr fun s => ?_⟩
  rw [hc₀.eval_negIf h.1]
  cases b <;> simp

theorem Reads.select {m₀ m : Manager} {fixed : Fixing} {f r : Ref} {n : Node} {b : Bool}
    (hc₀ : m₀.Canonical) (hn : m₀.Stores f.index n) (hb : fixed.lookup n.var = some b)
    (hr : m₀.Reads m fixed.override ((n.side b).negIf f.negated) r) :
    m₀.Reads m fixed.override f r := by
  refine ⟨hn.has, hr.2.congr fun s => ?_⟩
  rw [hc₀.eval_side hn]
  simp [Fixing.override, hb]

/-- Later variables are fixed in the same way. -/
theorem eval_override_congr {m₀ : Manager} {fixed : Fixing} {f : Ref} {n : Node} (b : Bool)
    {s t : Assignment} (hc₀ : m₀.Canonical) (hn : m₀.Stores f.index n)
    (hst : ∀ v, n.var < v → s v = t v) :
    m₀.eval ((n.side b).negIf f.negated) (fixed.override s) =
      m₀.eval ((n.side b).negIf f.negated) (fixed.override t) := by
  obtain ⟨hhas, -, habove⟩ := hc₀.side_spec hn b
  exact hc₀.eval_congr hhas habove fun v hv => by simp only [Fixing.override, hst v hv]

theorem reads_terminal {m₀ m : Manager} {change : Assignment → Assignment} {f : Ref}
    (hc₀ : m₀.Canonical) (hc : m.Canonical) (hf : f.index = 1) : m₀.Reads m change f f := by
  rcases eq_one_or_zero hf with rfl | rfl
  · exact ⟨hc₀.has_one, (Denotes.one hc).congr fun s => by simp [hc₀]⟩
  · exact ⟨hc₀.has_zero, (Denotes.zero hc).congr fun s => by simp [hc₀]⟩

end Manager

namespace Workspace.Leads

variable {w w' : Workspace} {m₀ : Manager} {change : Assignment → Assignment}

theorem reads (h : w.Leads w') {f r : Ref} (hr : m₀.Reads w.current change f r) :
    m₀.Reads w'.current change f r := ⟨hr.1, h.denotes hr.2⟩

theorem memo (h : w.Leads w') {memo : Memo} (hm : memo.Sound (m₀.Reads w.current change)) :
    memo.Sound (m₀.Reads w'.current change) := hm.imp fun _ _ => h.reads

end Workspace.Leads

namespace Bdd

open Manager

variable {w₀ w : Workspace} {f : Ref} {F : Assignment → Prop}

theorem restrictFrom_yields {fixed : Fixing} {fuel : Nat} {memo : Memo} (hl : w₀.Leads w)
    (hf : w₀.current.Has f) (hfuel : f.index < fuel)
    (hmemo : memo.Sound (w₀.current.Reads w.current fixed.override)) :
    Yields w (restrictFrom fixed fuel f memo) fun p m =>
      w₀.current.Reads m fixed.override f p.1 ∧
        p.2.Sound (w₀.current.Reads m fixed.override) := by
  induction fuel generalizing w f memo with
  | zero => omega
  | succ fuel ih =>
    have hc := hl.before.canonical
    unfold restrictFrom
    rcases hc.cases hf with h1 | ⟨n, hn⟩
    · simp only [isTerminal_iff.2 h1, ↓reduceIte]
      exact Runs.pure hl.after ⟨reads_terminal hc hl.after.canonical h1, hmemo⟩
    have hnw := hl.grows.stores hn
    simp only [hn.isTerminal, Bool.false_eq_true, ↓reduceIte]
    cases hfind : memo[f]? with
    | some r => exact Runs.pure hl.after ⟨hmemo f r hfind, hmemo⟩
    | none =>
      refine .ask_bind hnw.var ?_
      have hside := hc.side_spec hn
      have hrecur : ∀ (b : Bool) w' (memo : Memo), w₀.Leads w' →
          memo.Sound (w₀.current.Reads w'.current fixed.override) →
          Yields w' (restrictFrom fixed fuel ((n.side b).negIf f.negated) memo) fun p m =>
            w₀.current.Reads m fixed.override ((n.side b).negIf f.negated) p.1 ∧
              p.2.Sound (w₀.current.Reads m fixed.override) := fun b w' memo hl' hmemo' =>
        ih hl' (hside b).1 (Nat.lt_of_lt_of_le (hside b).2.1 (Nat.le_of_lt_succ hfuel)) hmemo'
      cases hlook : fixed.lookup n.var with
      | some b =>
        cases b with
        | true =>
          refine .ask_bind hnw.high (.bind (hrecur true w memo hl hmemo) fun p w1 hl1 hp => ?_)
          have hr := hp.1.select hc hn hlook
          exact Runs.pure hl1.after ⟨hr, hp.2.insert hr⟩
        | false =>
          refine .ask_bind hnw.low (.bind (hrecur false w memo hl hmemo) fun p w1 hl1 hp => ?_)
          have hr := hp.1.select hc hn hlook
          exact Runs.pure hl1.after ⟨hr, hp.2.insert hr⟩
      | none =>
        refine .ask_bind hnw.low (.bind (hrecur false w memo hl hmemo) fun p w1 hl1 hp => ?_)
        have hl1' := hl.trans hl1
        refine .ask_bind (hl1.grows.stores hnw).high
          (.bind (hrecur true w1 p.2 hl1' hp.2) fun q w2 hl2 hq => ?_)
        have hl2' := hl1'.trans hl2
        have hlow := hl2.denotes hp.1.2
        have hhigh := hq.1.2
        refine .bind (node_yields hl2.after (hc.orderly _ n hn).var_pos hlow hhigh
          (hlow.above hl2.after.canonical fun s t hst h => eval_override_congr false hc hn hst ▸ h)
          (hhigh.above hl2.after.canonical fun s t hst h => eval_override_congr true hc hn hst ▸ h))
          fun r w3 hl3 hr => ?_
        have hread : w₀.current.Reads w3.current fixed.override f r := by
          refine ⟨hf, hr.congr fun s => ?_⟩
          have hvar : fixed.override s n.var = s n.var := by simp [Fixing.override, hlook]
          rw [hc.eval_side hn, hvar]
          cases s n.var <;> simp
        exact Runs.pure hl3.after ⟨hread, (hl3.memo hq.2).insert hread⟩

/-- Fixing variables denotes the function under the assignments with these values. -/
theorem restrict_yields {fixed : Fixing} (hw : w.current.WellFormed)
    (hF : w.current.Denotes f F) :
    Yields w (restrict f fixed) fun r m => m.Denotes r fun s => F (fixed.override s) := by
  unfold restrict
  split_ifs with hempty
  · rw [List.isEmpty_iff] at hempty
    subst hempty
    exact Runs.pure hw hF
  · refine .ask_bind rfl (.bind (restrictFrom_yields (.refl hw) hF.has hF.has.lt_depthBound
      Memo.sound_empty) fun p w' hl hp => Runs.pure hl.after ?_)
    exact hp.1.2.congr fun s => hF.holds _

theorem renameFrom_yields {names : Renaming} (hnames : ∀ v, 0 < v → 0 < names.apply v)
    {fuel : Nat} {memo : Memo} (hl : w₀.Leads w) (hf : w₀.current.Has f) (hfuel : f.index < fuel)
    (hmemo : memo.Sound (w₀.current.Reads w.current names.pull)) :
    Yields w (renameFrom names fuel f memo) fun p m =>
      w₀.current.Reads m names.pull f p.1 ∧ p.2.Sound (w₀.current.Reads m names.pull) := by
  induction fuel generalizing w f memo with
  | zero => omega
  | succ fuel ih =>
    have hc := hl.before.canonical
    unfold renameFrom
    rcases hc.cases hf with h1 | ⟨n, hn⟩
    · simp only [isTerminal_iff.2 h1, ↓reduceIte]
      exact Runs.pure hl.after ⟨reads_terminal hc hl.after.canonical h1, hmemo⟩
    simp only [hn.isTerminal, Bool.false_eq_true, ↓reduceIte]
    have hindex : f.regular.index = f.index := Ref.of_index _ _
    have hback : ∀ w' r, w₀.Leads w' → w₀.current.Reads w'.current names.pull f.regular r →
        w₀.current.Reads w'.current names.pull f (r.negIf f.negated) := by
      intro w' r hl' hr
      have := hr.neg hc hl'.after.canonical f.negated
      rwa [regular_negIf] at this
    cases hfind : memo[f.regular]? with
    | some r => exact Runs.pure hl.after ⟨hback w r hl (hmemo _ r hfind), hmemo⟩
    | none =>
      have hn' : w₀.current.Stores f.regular.index n := by rwa [hindex]
      have hnw := hl.grows.stores hn'
      have hpos := (hc.orderly _ n hn).var_pos
      have hside := hc.side_spec hn'
      refine .ask_bind hnw.var (.ask_bind hnw.low ?_)
      have hrecur : ∀ (b : Bool) w' (memo : Memo), w₀.Leads w' →
          memo.Sound (w₀.current.Reads w'.current names.pull) →
          Yields w' (renameFrom names fuel ((n.side b).negIf f.regular.negated) memo) fun p m =>
            w₀.current.Reads m names.pull ((n.side b).negIf f.regular.negated) p.1 ∧
              p.2.Sound (w₀.current.Reads m names.pull) := fun b w' memo hl' hmemo' =>
        ih hl' (hside b).1 (by have := (hside b).2.1; omega) hmemo'
      refine .bind (hrecur false w memo hl hmemo) fun p w1 hl1 hp => ?_
      have hl1' := hl.trans hl1
      refine .ask_bind (hl1.grows.stores hnw).high
        (.bind (hrecur true w1 p.2 hl1' hp.2) fun q w2 hl2 hq => ?_)
      refine .bind (literal_yields hl2.after (hnames _ hpos)) fun x w3 hl3 hx => ?_
      have hlow := hl3.denotes (hl2.denotes hp.1.2)
      have hhigh := hl3.denotes hq.1.2
      refine .bind (ite_yields hl3.after hx hhigh hlow) fun r w4 hl4 hr => ?_
      have hl4' := (hl1'.trans hl2).trans (hl3.trans hl4)
      have hread : w₀.current.Reads w4.current names.pull f.regular r := by
        refine ⟨hn'.has, hr.congr fun s => ?_⟩
        rw [hc.eval_side hn']
        change _ ↔ w₀.current.eval ((n.side (s (names.apply n.var))).negIf f.regular.negated) _ = _
        cases s (names.apply n.var) <;> simp
      exact Runs.pure hl4.after
        ⟨hback w4 r hl4' hread, ((hl3.trans hl4).memo hq.2).insert hread⟩

/-- Renaming denotes the function under the assignments read through the new names. -/
theorem rename_yields {names : Renaming} (hnames : ∀ v, 0 < v → 0 < names.apply v)
    (hw : w.current.WellFormed) (hF : w.current.Denotes f F) :
    Yields w (rename f names) fun r m => m.Denotes r fun s => F (names.pull s) := by
  unfold rename
  split_ifs with hid
  · refine Runs.pure hw (hF.congr fun s => ?_)
    have hsame : names.pull s = s := by
      funext v
      have hnone : names.names[v]? = none := by
        rw [Std.TreeMap.getElem?_of_isEmpty hid]
      simp [Renaming.pull, Renaming.apply, Std.TreeMap.getD_eq_getD_getElem?, hnone]
    rw [hsame]
  · refine .ask_bind rfl (.bind (renameFrom_yields hnames (.refl hw) hF.has hF.has.lt_depthBound
      Memo.sound_empty) fun p w' hl hp => Runs.pure hl.after ?_)
    exact hp.1.2.congr fun s => hF.holds _

/-- What reads a function under changed assignments evaluates as the function does there. -/
theorem evaluates_of_reads {x : BddM Ref} (change : Assignment → Assignment)
    (hw : w.current.WellFormed) (hf : w.current.Has f)
    (hx : Yields w x fun r m => m.Denotes r fun s => w.current.eval f (change s) = true) :
    ∃ r w₁, x w = .ok r w₁ ∧ w.Leads w₁ ∧
      (w₁.current.Denotes r fun s => w.current.eval f (change s) = true) ∧
      ∀ s : Assignment, ∃ b, w₁.current.evaluate r (fun v => .ok (s v)) = .ok b ∧
        w.current.evaluate f (fun v => .ok (change s v)) = .ok b := by
  obtain ⟨r, w₁, hrun, hl, hr⟩ := yields_iff.1 hx
  refine ⟨r, w₁, hrun, hl, hr, fun s => ⟨_, hl.after.canonical.evaluate_eq hr.has s, ?_⟩⟩
  rw [hw.canonical.evaluate_eq hf, Except.ok.injEq, Bool.eq_iff_iff]
  exact (hr.holds s).symm

/-- The old names are found again by names that lead back to them. -/
theorem rename_back_yields {names back : Renaming} {r : Ref} (hl : w₀.Leads w)
    (hf : w₀.current.Has f)
    (hr : w.current.Denotes r fun s => w₀.current.eval f (names.pull s) = true)
    (hpos : ∀ v, 0 < v → 0 < back.apply v)
    (hback : ∀ v, 0 < v → back.apply (names.apply v) = v) :
    Yields w (rename r back) fun q _ => q = f := by
  have hc := hl.before.canonical
  refine (rename_yields hpos hl.after hr).imp fun q w₁ hl₁ hq => ?_
  have hf₁ := (hl.trans hl₁).denotes (denotes_eval hf)
  refine (hq.eq_iff hl₁.after.canonical hf₁).2 fun s => ?_
  -- no function depends on the variable 0, so it does not matter what becomes of it
  have habove : w₀.current.Above 0 f := fun n hn => (hc.orderly _ n hn).var_pos
  have hsame : w₀.current.eval f (names.pull (back.pull s)) = w₀.current.eval f s :=
    hc.eval_congr hf habove fun v hv => congrArg s (hback v hv)
  rw [hsame]

/-- Renaming ends without failure where no variable gets the name 0, and the result evaluates under
every assignment as the function does where each variable has the value of its new name. Names that
lead back from the new ones to the old ones give back the same reference, then and at any later
time. -/
theorem rename_of_wellFormed (names : Renaming) (hw : w.current.WellFormed)
    (hf : w.current.Has f) (hnames : ∀ e ∈ names.entries, 0 < e.2) :
    ∃ r w₁, rename f names w = .ok r w₁ ∧ w.Leads w₁ ∧ w₁.current.Has r ∧
      (∀ s : Assignment, ∃ b, w₁.current.evaluate r (fun v => .ok (s v)) = .ok b ∧
        w.current.evaluate f (fun v => .ok (s (names.apply v))) = .ok b) ∧
      ∀ back : Renaming, (∀ e ∈ back.entries, 0 < e.2) →
        (∀ v, 0 < v → back.apply (names.apply v) = v) →
        ∀ w₂, w₁.Leads w₂ → ∃ w₃, rename r back w₂ = .ok f w₃ := by
  obtain ⟨r, w₁, hrun, hl, hr, hevaluates⟩ := evaluates_of_reads names.pull hw hf
    (rename_yields (fun v => Renaming.apply_pos hnames) hw (denotes_eval hf))
  refine ⟨r, w₁, hrun, hl, hr.has, hevaluates, fun back hpos hback w₂ hl₂ => ?_⟩
  obtain ⟨q, w₃, hq, -, rfl⟩ := yields_iff.1 (rename_back_yields (hl.trans hl₂) hf
    (hl₂.denotes hr) (fun v => Renaming.apply_pos hpos) hback)
  exact ⟨w₃, hq⟩

/-- Three variables take each other's places in a circle, and back. -/
theorem rename_of_wellFormed_circle : ∃ m f w r w₁ w₂, Manager.new 0 1 1 = .ok m ∧
    (do conj (← literal 1) (-(← literal 2))) ⟨m, []⟩ = .ok f w ∧
    rename f (.ofList [(1, 2), (2, 3), (3, 1)]) w = .ok r w₁ ∧ r ≠ f ∧
    rename r (.ofList [(2, 1), (3, 2), (1, 3)]) w₁ = .ok f w₂ := by
  have hruns : ∃ m, Manager.new 0 1 1 = .ok m ∧ ∃ f w,
      (do conj (← literal 1) (-(← literal 2))) ⟨m, []⟩ = .ok f w ∧
      ∃ r w₁, rename f (.ofList [(1, 2), (2, 3), (3, 1)]) w = .ok r w₁ ∧ r ≠ f := by
    decide +kernel
  obtain ⟨m, hm, f, w, hf, r, w₁, hr, hne⟩ := hruns
  have hmade : Yields ⟨m, []⟩ (do conj (← literal 1) (-(← literal 2))) fun f m => m.Has f := by
    refine .bind (literal_yields (wellFormed_new hm) (by decide)) fun x w₁ hl₁ hx => ?_
    refine .bind (literal_yields hl₁.after (by decide)) fun y w₂ hl₂ hy => ?_
    exact (conj_yields hl₂.after (hl₂.denotes hx) (hy.neg hl₂.after.canonical)).imp
      fun _ _ _ hr => hr.has
  obtain ⟨hl, hhas⟩ := Runs.of_ok hmade hf
  obtain ⟨r', w₁', hr', hl', -, -, hback⟩ :=
    rename_of_wellFormed (.ofList [(1, 2), (2, 3), (3, 1)]) hl.after hhas (by decide)
  obtain ⟨rfl, rfl⟩ : r' = r ∧ w₁' = w₁ := by simpa using hr'.symm.trans hr
  obtain ⟨w₂, hrun⟩ := hback (.ofList [(2, 1), (3, 2), (1, 3)]) (by decide) (fun v _ => by
    simp only [Renaming.ofList, List.foldl, Renaming.apply_insert, Renaming.apply_identity]
    split_ifs <;> omega) w₁' (.refl hl'.after)
  exact ⟨m, f, w, r', w₁', w₂, hm, hf, hr, hne, hrun⟩

end Bdd

end SymbolicAutomata
