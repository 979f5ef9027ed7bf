import SymbolicAutomata.Proofs.Quantifiers
/-!
# Results that are there already

Nodes are never freed. A conditional whose result some reference denotes makes no node when it is
computed, and no more does a quantification that finds all its intermediate results. Whatever is
remembered of a quantification has them, so it costs no node to compute it once more.
-/
namespace SymbolicAutomata

namespace Manager

variable {m : Manager} {d : Domain} {f : Ref} {F G : Assignment → Prop}

/-- Some reference denotes the set. -/
def Represents (m : Manager) (F : Assignment → Prop) : Prop := ∃ r, m.Denotes r F

theorem Represents.congr (h : m.Represents F) (hFG : ∀ s, F s ↔ G s) : m.Represents G :=
  h.imp fun _ hr => hr.congr hFG

theorem Represents.cofactor {v : Nat} (h : m.Represents F) (hm : m.Canonical) (hv : 0 < v)
    (hF : ∀ s t : Assignment, (∀ u, v ≤ u → s u = t u) → F s → F t) (b : Bool) :
    m.Represents fun s => F (Function.update s v b) := by
  obtain ⟨r, hr⟩ := h
  have habove : m.Above (v - 1) r := hr.above hm fun s t hst => hF s t fun u hu => hst u (by omega)
  have hroot : m.rootVar r = 0 ∨ v ≤ m.rootVar r :=
    ((hm.above_iff hr.has).1 habove).imp_right fun hlt => by omega
  refine ⟨m.cofactor v b r, hm.has_cofactor hr.has hv b, fun s => ?_⟩
  rw [← hr.holds, hm.eval_cofactor hr.has hv, Function.update_self]
  rw [hm.eval_congr (hm.has_cofactor hr.has hv b) (hm.above_cofactor hr.has hv b hroot)
    fun u hu => (Function.update_of_ne (Nat.ne_of_gt hu) b s).symm]

/-- The low side of the node decides the result: the variable of the node is quantified, and some
values always satisfy the low side. -/
def LowSuffices (m : Manager) (d : Domain) (f : Ref) (n : Node) : Prop :=
  d.base ≤ n.var ∧ ∀ s, m.Satisfiable d ((n.side false).negIf f.negated) s

/-- Everything is there that the quantification of `f` makes. The high side is left out where the
low one decides the result. -/
inductive Quantified (m : Manager) (d : Domain) : Ref → Prop
  | rest {f : Ref} (h : m.Rests d f) : Quantified m d f
  | node {f : Ref} {n : Node} (hn : m.Stores f.index n)
      (low : Quantified m d ((n.side false).negIf f.negated))
      (high : ¬ m.LowSuffices d f n → Quantified m d ((n.side true).negIf f.negated))
      (result : m.Represents (m.Satisfiable d f)) : Quantified m d f

theorem Quantified.sides {n : Node} (h : m.Quantified d f) (hn : m.Stores f.index n)
    (hlen : d.len ≠ 0) (hlt : n.var < d.base + d.len) :
    m.Quantified d ((n.side false).negIf f.negated) ∧
      (¬ m.LowSuffices d f n → m.Quantified d ((n.side true).negIf f.negated)) ∧
        m.Represents (m.Satisfiable d f) := by
  cases h with
  | rest hrest =>
    rcases hrest with h1 | hempty | ⟨n', hn', hle⟩
    · have := hn.1
      omega
    · exact absurd hempty hlen
    · obtain rfl := hn.unique hn'
      omega
  | node hn' low high result =>
    obtain rfl := hn.unique hn'
    exact ⟨low, high, result⟩

/-- What is remembered of quantifications has all that they make. -/
def Settled (m : Manager) : Prop :=
  ∀ f d r, m.results.find? (.exist f d) = some r → m.Quantified d f

theorem Settled.find?_eq_none (h : m.Settled) (hq : ¬ m.Quantified d f) :
    m.results.find? (.exist f d) = none := by
  cases hfind : m.results.find? (.exist f d) with
  | none => rfl
  | some r => exact absurd (h f d r hfind) hq

theorem settled_new {id storageBits cacheBits : Nat}
    (h : Manager.new id storageBits cacheBits = .ok m) : m.Settled := by
  intro f d r hr
  rw [results_new h] at hr
  cases hr

end Manager

namespace Workspace.Leads

variable {w w' : Workspace} {d : Domain} {f : Ref} {F : Assignment → Prop}

theorem represents (h : w.Leads w') (hF : w.current.Represents F) : w'.current.Represents F :=
  hF.imp fun _ hr => h.denotes hr

theorem lowSuffices {n : Node} (h : w.Leads w') (hn : w.current.Stores f.index n) :
    w'.current.LowSuffices d f n ↔ w.current.LowSuffices d f n :=
  and_congr_right' (forall_congr' fun _ =>
    h.satisfiable (h.before.canonical.side_spec hn false).1)

theorem quantified (h : w.Leads w') (hf : w.current.Has f) (hq : w.current.Quantified d f) :
    w'.current.Quantified d f := by
  induction hq with
  | rest hrest =>
    refine .rest (hrest.imp_right (Or.imp_right ?_))
    rintro ⟨n, hn, hle⟩
    exact ⟨n, h.grows.stores hn, hle⟩
  | node hn low high result ihlow ihhigh =>
    have hside := fun b => (h.before.canonical.side_spec hn b).1
    refine .node (h.grows.stores hn) (ihlow (hside false)) (fun hnot => ihhigh (fun hall =>
      hnot ((h.lowSuffices hn).2 hall)) (hside true)) ?_
    exact (h.represents result).congr fun s => (h.satisfiable hf).symm

/-- New nodes and forgotten results leave the remembered ones settled. -/
theorem settled (h : w.Leads w') (hs : w.current.Settled)
    (hr : ∀ k r, w'.current.results.find? k = some r → w.current.results.find? k = some r) :
    w'.current.Settled := by
  intro f d r hfind
  have hfind' := hr _ r hfind
  exact h.quantified (h.before.remembered _ r hfind').1 (hs f d r hfind')

end Workspace.Leads

namespace Bdd

open Manager

variable {α β : Type} {w : Workspace} {x : BddM α} {P P' : Prop} {Q R : α → Manager → Prop}
  {S : β → Manager → Prop}

/-- The computation returns and leaves what is remembered settled. It makes no node if `P` holds. -/
abbrev Settles (P : Prop) (w : Workspace) (x : BddM α) (Q : α → Manager → Prop) : Prop :=
  Yields w x fun a m => m.Settled ∧ (P → m.nodeCount = w.current.nodeCount) ∧ Q a m

namespace Settles

theorem pure {a : α} (hw : w.current.WellFormed) (hs : w.current.Settled) (h : Q a w.current) :
    Settles P w (pure a) Q := Runs.pure hw ⟨hs, fun _ => rfl, h⟩

theorem bind {y : α → BddM β} (hx : Settles P w x Q)
    (hy : ∀ a w', w.Leads w' → w'.current.Settled → Q a w'.current → Settles P w' (y a) S) :
    Settles P w (x >>= y) S := by
  refine Runs.bind hx fun a w1 hl1 h1 => ?_
  obtain ⟨hs1, hcount1, hQ⟩ := h1
  refine Runs.imp (hy a w1 hl1 hs1 hQ) fun b w2 hl2 h2 => ?_
  obtain ⟨hs2, hcount2, hS⟩ := h2
  exact ⟨hs2, fun hP => (hcount2 hP).trans (hcount1 hP), hS⟩

theorem mono (h : Settles P' w x Q) (hP : P → P')
    (hQR : ∀ a w', w.Leads w' → Q a w'.current → R a w'.current) : Settles P w x R :=
  Runs.imp h fun a w' hl hQ => ⟨hQ.1, fun hp => hQ.2.1 (hP hp), hQR a w' hl hQ.2.2⟩

theorem when (h : Settles P' w x Q) (hP : P → P') : Settles P w x Q :=
  h.mono hP fun _ _ _ hQ => hQ

theorem and_yields (h : Settles P w x Q) (hR : Yields w x R) :
    Settles P w x fun a m => Q a m ∧ R a m := by
  obtain ⟨a, w', hrun, hl, hs, hcount, hQ⟩ := yields_iff.1 h
  obtain ⟨-, hR'⟩ := hR.of_ok hrun
  exact yields_iff.2 ⟨a, w', hrun, hl, hs, hcount, hQ, hR'⟩

end Settles

section Nodes

variable {F L H : Assignment → Prop} {r low high : Ref} {v : Nat} {k : Operation}

theorem node_settles (hw : w.current.WellFormed) (hs : w.current.Settled) (hv : 0 < v)
    (hL : w.current.Denotes low L) (hH : w.current.Denotes high H)
    (hlow : w.current.Above v low) (hhigh : w.current.Above v high) :
    Settles (w.current.Represents fun s => if s v then H s else L s) w (node v low high)
      fun r m => m.Denotes r fun s => if s v then H s else L s := by
  refine (node_makes hw hv hL hH hlow hhigh).imp fun r w' hl hr => ?_
  obtain ⟨hden, hresults, hcount⟩ := hr
  refine ⟨hl.settled hs fun k g hg => by rwa [hresults] at hg, ?_, hden⟩
  rintro ⟨r₀, hr₀⟩
  -- a reference of the new cell would denote what an older one does
  obtain rfl := ((hl.denotes hr₀).eq_iff hl.after.canonical hden).2 fun _ => Iff.rfl
  rcases hcount with hcount | ⟨-, hindex⟩
  · exact hcount
  · have hle := hr₀.has.2
    omega

/-- The result is remembered with all that it is made from. -/
def Backed (m : Manager) (k : Operation) : Prop := ∀ f d, k = .exist f d → m.Quantified d f

theorem Backed.later {w' : Workspace} (hb : Backed w.current k) (hl : w.Leads w')
    (hr : w.current.Right k r) : Backed w'.current k := by
  rintro f d rfl
  exact hl.quantified hr.1 (hb f d rfl)

theorem remembered_settles (hw : w.current.WellFormed) (hs : w.current.Settled) :
    Settles P w (remembered k) fun o m =>
      o = w.current.results.find? k ∧ ∀ r, o = some r → m.Right k r := by
  have hfound : Settles P w (remembered k) fun o _ => o = w.current.results.find? k := by
    refine (remembered_finds hw k).imp fun o w1 hl1 ho => ?_
    obtain ⟨hnodes, hfind, ho⟩ := ho
    refine ⟨hl1.settled hs fun l g hg => by rwa [hfind] at hg, fun _ => ?_, ho⟩
    rw [nodeCount, hnodes, nodeCount]
  exact hfound.and_yields (remembered_yields hw k)

theorem remember_settles (hw : w.current.WellFormed) (hs : w.current.Settled)
    (hr : w.current.Right k r) (hb : Backed w.current k) :
    Settles P w (remember k r) fun _ m => Backed m k := by
  refine (remember_yields hw hr).imp fun _ w1 hl1 h1 => ?_
  obtain ⟨hnodes, hfind⟩ := h1
  have hb1 := hb.later hl1 hr
  refine ⟨fun f d g hg => ?_, fun _ => by rw [nodeCount, hnodes, nodeCount], hb1⟩
  rcases hfind _ g hg with ⟨rfl, rfl⟩ | hold
  · exact hb1 f d rfl
  · exact hl1.quantified (hw.remembered _ g hold).1 (hs f d g hold)

theorem memoized_settles {x : BddM Ref} (hw : w.current.WellFormed) (hs : w.current.Settled)
    (hright : ∀ w' r, w.Leads w' → (w'.current.Right k r ↔ w'.current.Denotes r F))
    (hx : ∀ w', w.Leads w' → w'.current.Settled →
      Settles P w' x fun r m => m.Denotes r F ∧ Backed m k) :
    Settles P w (memoized k x) fun r m => m.Denotes r F ∧ Backed m k := by
  refine (remembered_settles hw hs).bind fun o w1 hl1 hs1 ho => ?_
  obtain ⟨ho, hr⟩ := ho
  cases o with
  | some r =>
    refine Settles.pure hl1.after hs1 ⟨(hright w1 r hl1).1 (hr r rfl), ?_⟩
    rintro f d rfl
    exact hl1.quantified (hw.remembered _ r ho.symm).1 (hs f d r ho.symm)
  | none =>
    refine (hx w1 hl1 hs1).bind fun r w2 hl2 hs2 hr => ?_
    refine (remember_settles hl2.after hs2 ((hright w2 r (hl1.trans hl2)).2 hr.1) hr.2).bind
      fun _ w3 hl3 hs3 hb3 => ?_
    exact Settles.pure hl3.after hs3 ⟨hl3.denotes hr.1, hb3⟩

end Nodes

section Conditional

variable {t : Triple} {fuel : Nat}

theorem iteSplit_settles (hw : w.current.WellFormed) (hs : w.current.Settled) (ht : t.In w.current)
    (hf : t.f.index ≠ 1)
    (hrec : ∀ w' u, w.Leads w' → w'.current.Settled → u.In w'.current → u.weight < t.weight →
      Settles (w'.current.Represents fun s => u.choice w'.current s = true) w' (iteFrom fuel u)
        fun r m => m.Denotes r fun s => u.choice w'.current s = true) :
    Settles (w.current.Represents fun s => t.choice w.current s = true) w (iteSplit fuel t)
      fun _ _ => True := by
  have hc := hw.canonical
  obtain ⟨v, hv⟩ := Triple.exists_headed hc ht hf
  apply Runs.congr (iteSplit_of_headed hc ht hf hv)
  have hin := fun b => Triple.in_cofactor hc ht hv.pos b
  have hweight := fun b => Triple.weight_cofactor hc ht hv.pos b hv.root
  have hside : ∀ b, (w.current.Represents fun s => t.choice w.current s = true) →
      w.current.Represents fun s => (t.cofactor w.current v b).choice w.current s = true := by
    intro b h
    refine (h.cofactor hc hv.pos (fun s s' hs hF => ?_) b).congr fun s => ?_
    · rwa [← hv.choice_congr_of_le hc ht hs]
    · rw [Triple.choice_cofactor hc ht hv.pos, Function.update_self,
        hv.choice_congr hc ht b fun u hu => Function.update_of_ne (Nat.ne_of_gt hu) b s]
  have hlow := (hrec w _ (.refl hw) hs (hin false) (hweight false)).when (hside false)
  refine hlow.bind fun low w1 hl1 hs1 hlow => ?_
  have hhigh := (hrec w1 _ hl1 hs1 ((hin true).mono hl1.grows) (hweight true)).when fun h =>
    (hl1.represents (hside true h)).congr fun s => by rw [hl1.choice (hin true)]
  refine hhigh.bind fun high w2 hl2 hs2 hhigh => ?_
  have hl : w.Leads w2 := hl1.trans hl2
  have hlow2 := hl2.denotes hlow
  have hhigh2 : w2.current.Denotes high fun s =>
      (t.cofactor w.current v true).choice w.current s = true :=
    hhigh.congr fun s => by rw [hl1.choice (hin true)]
  refine (node_settles hl2.after hs2 hv.pos hlow2 hhigh2 ?_ ?_).mono (fun h => ?_)
    fun _ _ _ _ => trivial
  · exact hlow2.above hl2.after.canonical fun s s' hs h => hv.choice_congr hc ht false hs ▸ h
  · exact hhigh2.above hl2.after.canonical fun s s' hs h => hv.choice_congr hc ht true hs ▸ h
  · refine (hl.represents h).congr fun s => ?_
    rw [Triple.choice_cofactor hc ht hv.pos]
    cases s v <;> simp

/-- A conditional makes no node if its result is there. -/
theorem iteFrom_settles (hw : w.current.WellFormed) (hs : w.current.Settled) (ht : t.In w.current)
    (hfuel : t.weight < fuel) :
    Settles (w.current.Represents fun s => t.choice w.current s = true) w (iteFrom fuel t)
      fun r m => m.Denotes r fun s => t.choice w.current s = true := by
  suffices h : Settles (w.current.Represents fun s => t.choice w.current s = true) w
      (iteFrom fuel t) fun _ _ => True from
    (h.and_yields (iteFrom_yields hw ht hfuel)).mono id fun _ _ _ hQ => hQ.2
  induction fuel generalizing w t with
  | zero => omega
  | succ fuel ih =>
    have hc := hw.canonical
    cases hv : t.value? with
    | some r =>
      rw [iteFrom_of_value hv]
      exact Settles.pure hw hs trivial
    | none =>
      cases hv' : t.absorb.value? with
      | some r =>
        rw [iteFrom_of_absorb hv hv']
        exact Settles.pure hw hs trivial
      | none =>
        obtain ⟨hin, hf, hweight, hchoice⟩ := standard_spec hc ht hv'
        apply Runs.congr (iteFrom_of_standard hc ht hv hv')
        generalize w.current.standard t = tn at hin hf hweight hchoice ⊢
        obtain ⟨u, n⟩ := tn
        simp only at hin hf hweight hchoice ⊢
        have hmemo := memoized_settles (k := u.operation) (x := iteSplit fuel u)
          (P := w.current.Represents fun s => t.choice w.current s = true) hw hs
          (fun w' r hl => hl.right_operation hin) ?_
        · exact hmemo.bind fun r w1 hl1 hs1 _ => Settles.pure hl1.after hs1 trivial
        · intro w1 hl1 hs1
          have hin1 := hin.mono hl1.grows
          have hrec : ∀ w' u', w1.Leads w' → w'.current.Settled → u'.In w'.current →
              u'.weight < u.weight →
              Settles (w'.current.Represents fun s => u'.choice w'.current s = true) w'
                (iteFrom fuel u') fun r m => m.Denotes r fun s => u'.choice w'.current s = true :=
            fun w' u' hl' hs' hin' hlt =>
              ((ih hl'.after hs' hin' (by omega)).and_yields
                (iteFrom_yields hl'.after hin' (by omega))).mono id fun _ _ _ hQ => hQ.2
          have hyields : Yields w1 (iteSplit fuel u) _ :=
            iteSplit_yields hl1.after hin1 hf fun w' u' hl' hin' hlt =>
              iteFrom_yields hl'.after hin' (by omega)
          refine ((iteSplit_settles hl1.after hs1 hin1 hf hrec).and_yields hyields).mono
            (fun h => ?_) fun r w2 hl2 hQ => ⟨hQ.2.congr fun s => by rw [hl1.choice hin], ?_⟩
          · obtain ⟨r, hr⟩ := hl1.represents h
            refine ⟨_, (hr.negIf hl1.after.canonical n).congr fun s => ?_⟩
            rw [hchoice, ← hl1.choice hin]
            cases n <;> simp
          · rintro f d hfd
            cases hfd

theorem disj_settles {f g : Ref} {F G : Assignment → Prop} (hw : w.current.WellFormed)
    (hs : w.current.Settled) (hF : w.current.Denotes f F) (hG : w.current.Denotes g G) :
    Settles (w.current.Represents fun s => F s ∨ G s) w (disj f g)
      fun r m => m.Denotes r fun s => F s ∨ G s := by
  have ht : Triple.In ⟨f, .one, g⟩ w.current := ⟨hF.has, hw.canonical.has_one, hG.has⟩
  have hiff : ∀ s, Triple.choice ⟨f, .one, g⟩ w.current s = true ↔ F s ∨ G s := by
    intro s
    rw [Triple.choice, hw.canonical.eval_one, ← hF.holds, ← hG.holds]
    cases w.current.eval f s <;> simp
  refine Runs.ask_bind rfl ((iteFrom_settles hw hs ht (Triple.weight_lt ht)).mono
    (fun h => h.congr fun s => (hiff s).symm) fun r w' _ hr => hr.congr hiff)

end Conditional

section Quantification

variable {d : Domain} {fuel stop : Nat} {f : Ref} {n : Node}

/-- Both sides are quantified, the high one unless the low one decides the result. -/
theorem existSplit_sides (hd : d.stop = .ok stop) (hw : w.current.WellFormed)
    (hs : w.current.Settled) (hn : w.current.Stores f.index n) (hlen : d.len ≠ 0)
    (hlt : n.var < d.base + d.len)
    (hrec : ∀ w' g, w.Leads w' → w'.current.Settled → w'.current.Has g → g.index < f.index →
      Settles (w'.current.Quantified d g) w' (existFrom d fuel g) fun r m =>
        m.Denotes r (w'.current.Satisfiable d g) ∧ m.Quantified d g) :
    Settles (w.current.Quantified d f) w (existSplit d fuel n.var f) fun _ m =>
      m.Quantified d ((n.side false).negIf f.negated) ∧
      (¬ w.current.LowSuffices d f n → m.Quantified d ((n.side true).negIf f.negated)) := by
  have hc := hw.canonical
  have hstop := Domain.stop_eq hd
  have hside := hc.side_spec hn
  have hlow := (hrec w _ (.refl hw) hs (hside false).1 (hside false).2.1).when
    fun h : w.current.Quantified d f => (h.sides hn hlen hlt).1
  refine Runs.ask_bind hn.low (hlow.bind fun low w1 hl1 hs1 hlow => ?_)
  obtain ⟨hlow, hqlow⟩ := hlow
  refine Runs.lift_bind (Domain.contains_eq hd) ?_
  simp only [decide_eq_true_eq]
  have hasked := (hl1.grows.stores hn).high
  have hhigh : ¬ w.current.LowSuffices d f n →
      Settles (w.current.Quantified d f) w1 (existFrom d fuel ((n.side true).negIf f.negated))
        fun r m => m.Denotes r (w.current.Satisfiable d ((n.side true).negIf f.negated)) ∧
          m.Quantified d ((n.side true).negIf f.negated) := by
    intro hnot
    have hhas := (hside true).1
    refine (hrec w1 _ hl1 hs1 (hl1.grows.has hhas) (hside true).2.1).mono
      (fun h => hl1.quantified hhas ((h.sides hn hlen hlt).2.1 hnot)) fun r _ _ hr => ?_
    exact ⟨hr.1.congr fun s => hl1.satisfiable hhas, hr.2⟩
  have hresult : ∀ {w'}, w1.Leads w' → w.current.Quantified d f →
      w'.current.Represents (w.current.Satisfiable d f) := fun hl h =>
    (hl1.trans hl).represents (h.sides hn hlen hlt).2.2
  by_cases hin : d.base ≤ n.var ∧ n.var < stop
  · rw [if_pos hin]
    split_ifs with hone
    · have hall := (hlow.eq_one_iff hl1.after.canonical).1 hone
      exact Settles.pure hl1.after hs1 ⟨hqlow, fun hnot => absurd ⟨hin.1, hall⟩ hnot⟩
    · have hnot : ¬ w.current.LowSuffices d f n := fun hall =>
        hone ((hlow.eq_one_iff hl1.after.canonical).2 hall.2)
      refine Runs.ask_bind hasked ((hhigh hnot).bind fun high w2 hl2 hs2 hhigh => ?_)
      refine (disj_settles hl2.after hs2 (hl2.denotes hlow) hhigh.1).mono (fun h => ?_)
        fun r w3 hl3 _ => ⟨?_, fun _ => ?_⟩
      · exact (hresult hl2 h).congr fun s => satisfiable_within hc hn (hstop ▸ hin)
      · exact (hl2.trans hl3).quantified (hl1.grows.has (hside false).1) hqlow
      · exact hl3.quantified ((hl1.trans hl2).grows.has (hside true).1) hhigh.2
  · rw [if_neg hin]
    have hnot : ¬ w.current.LowSuffices d f n := fun hall => hin ⟨hall.1, by omega⟩
    refine Runs.ask_bind hasked ((hhigh hnot).bind fun high w2 hl2 hs2 hhigh => ?_)
    have hc2 := hl2.after.canonical
    have hlow2 := hl2.denotes hlow
    refine (node_settles hl2.after hs2 (hc.orderly _ n hn).var_pos hlow2 hhigh.1
      (hlow2.above hc2 (.side_congr hc hn false))
      (hhigh.1.above hc2 (.side_congr hc hn true))).mono (fun h => ?_)
      fun r w3 hl3 _ => ⟨?_, fun _ => ?_⟩
    · refine (hresult hl2 h).congr fun s => ?_
      rw [satisfiable_above hc hn (hstop ▸ hin)]
      cases s n.var <;> simp
    · exact (hl2.trans hl3).quantified (hl1.grows.has (hside false).1) hqlow
    · exact hl3.quantified ((hl1.trans hl2).grows.has (hside true).1) hhigh.2

theorem existSplit_settles (hd : d.stop = .ok stop) (hw : w.current.WellFormed)
    (hs : w.current.Settled) (hn : w.current.Stores f.index n) (hlen : d.len ≠ 0)
    (hlt : n.var < d.base + d.len) (hfuel : f.index ≤ fuel)
    (hrec : ∀ w' g, w.Leads w' → w'.current.Settled → w'.current.Has g → g.index < f.index →
      Settles (w'.current.Quantified d g) w' (existFrom d fuel g) fun r m =>
        m.Denotes r (w'.current.Satisfiable d g) ∧ m.Quantified d g) :
    Settles (w.current.Quantified d f) w (existSplit d fuel n.var f) fun r m =>
      m.Denotes r (w.current.Satisfiable d f) ∧ m.Quantified d f := by
  have hyields := existSplit_yields hd hw hn fun w' g hl hg hlt =>
    existFrom_yields hd hl.after hg (Nat.lt_of_lt_of_le hlt hfuel)
  refine ((existSplit_sides hd hw hs hn hlen hlt hrec).and_yields hyields).mono id
    fun r w1 hl1 hr => ?_
  obtain ⟨⟨hlow, hhigh⟩, hden⟩ := hr
  rw [← hl1.lowSuffices hn] at hhigh
  exact ⟨hden, .node (hl1.grows.stores hn) hlow hhigh
    ⟨r, hden.congr fun s => (hl1.satisfiable hn.has).symm⟩⟩

/-- A quantification makes no node if all that it makes is there, and then it is. -/
theorem existFrom_settles (hd : d.stop = .ok stop) (hw : w.current.WellFormed)
    (hs : w.current.Settled) (hf : w.current.Has f) (hfuel : f.index < fuel) :
    Settles (w.current.Quantified d f) w (existFrom d fuel f) fun r m =>
      m.Denotes r (w.current.Satisfiable d f) ∧ m.Quantified d f := by
  classical
  induction fuel generalizing w f with
  | zero => omega
  | succ fuel ih =>
    have hc := hw.canonical
    by_cases hrest : w.current.Rests d f
    · apply Runs.congr (existFrom_of_rests hd hrest)
      exact Settles.pure hw hs ⟨⟨hf, fun s => (satisfiable_of_rests hc hf hrest).symm⟩, .rest hrest⟩
    obtain ⟨n, hn, hlen, hlt⟩ := exists_of_not_rests hc hf hrest
    apply Runs.congr (existFrom_of_stores hd hn hlen hlt)
    have hmemo := memoized_settles (k := .exist f d) (x := existSplit d fuel n.var f)
      (P := w.current.Quantified d f) (F := w.current.Satisfiable d f) hw hs ?_ ?_
    · exact hmemo.mono id fun r w1 hl1 hr => ⟨hr.1, hr.2 f d rfl⟩
    · exact fun w' r hl => hl.right_exist hf
    · intro w1 hl1 hs1
      refine (existSplit_settles hd hl1.after hs1 (hl1.grows.stores hn) hlen hlt (by omega)
        fun w' g hl' hs' hg hlt => ih hl'.after hs' hg (by omega)).mono
        (hl1.quantified hf) fun r w2 hl2 hr => ?_
      refine ⟨hr.1.congr fun s => hl1.satisfiable hf, ?_⟩
      rintro f' d' hk
      cases hk
      exact hr.2

end Quantification

end Bdd

end SymbolicAutomata
