import SymbolicAutomata.Proofs.Residuals
import SymbolicAutomata.Proofs.Minimizations
/-!
# Minimization of the empty language

Minimization leaves one state for each class of states that match each other's moves, where all
states from which nothing is accepted count as one. If nothing is accepted at all, no word leads to
any of the other classes, but their states may be there.
-/
namespace SymbolicAutomata

open Manager Bdd Layout SymbolicNfa

variable {g : NFA Nat Nat} {n p q : Nat} {R : Nat → Nat → Prop} {Bs : List (Set Nat)}

theorem Productive.induct_drawing {ss ts : List Nat} {es : List (Nat × Nat)} {P : Nat → Prop}
    (h : Productive (drawing ss ts es) p) (haccept : ∀ q ∈ ts, P q)
    (hstep : ∀ e ∈ es, P e.2 → P e.1) : P p :=
  h.induct haccept fun p _ q hq => hstep (p, q) (mem_drawing_step.1 hq)

namespace SymbolicNfa

variable {w : Workspace} {m : Manager} {a : SymbolicNfa}

def IsProductive (a : SymbolicNfa) (m : Manager) (p : Nat) : Prop :=
  ∃ u q, a.Run m p u q ∧ a.accepting.contains q m = .ok true

/-- The two states are related, or nothing is accepted from either of them. -/
def Matched (a : SymbolicNfa) (m : Manager) (R : Nat → Nat → Prop) (p q : Nat) : Prop :=
  R p q ∨ ¬ a.IsProductive m p ∧ ¬ a.IsProductive m q

/-- Related states accept alike and match each other's moves. -/
structure IsMatching (a : SymbolicNfa) (m : Manager) (R : Nat → Nat → Prop) : Prop where
  accept : ∀ p q, R p q →
    (a.accepting.contains p m = .ok true ↔ a.accepting.contains q m = .ok true)
  forth : ∀ p q x p', R p q → a.HasEdge m p x p' → ∃ q', a.HasEdge m q x q' ∧ a.Matched m R p' q'
  back : ∀ p q x q', R p q → a.HasEdge m q x q' → ∃ p', a.HasEdge m p x p' ∧ a.Matched m R p' q'

/-- Bisimilar, once all states from which nothing is accepted count as one. -/
def Alike (a : SymbolicNfa) (m : Manager) (p q : Nat) : Prop :=
  ∃ R, a.IsMatching m R ∧ a.Matched m R p q

def classes (a : SymbolicNfa) (m : Manager) : Set (Set Nat) :=
  (fun p => {q | q < a.stateCount ∧ a.Alike m p q}) '' Set.Iio a.stateCount

theorem Matched.symm (h : a.Matched m R p q) : a.Matched m (fun p q => R q p) q p :=
  h.imp_right And.symm

theorem IsMatching.symm (hR : a.IsMatching m R) : a.IsMatching m fun p q => R q p where
  accept p q hpq := (hR.accept q p hpq).symm
  forth p q x p' hpq hp' := by
    obtain ⟨q', hq', hmatched⟩ := hR.back q p x p' hpq hp'
    exact ⟨q', hq', hmatched.symm⟩
  back p q x q' hpq hq' := by
    obtain ⟨p', hp', hmatched⟩ := hR.forth q p x q' hpq hq'
    exact ⟨p', hp', hmatched.symm⟩

theorem Alike.refl (p : Nat) : a.Alike m p p := by
  refine ⟨Eq, ⟨?_, ?_, ?_⟩, .inl rfl⟩
  · rintro p _ rfl
    rfl
  · rintro p _ x p' rfl hp'
    exact ⟨p', hp', .inl rfl⟩
  · rintro p _ x p' rfl hp'
    exact ⟨p', hp', .inl rfl⟩

theorem alike_of_not_productive (hp : ¬ a.IsProductive m p) (hq : ¬ a.IsProductive m q) :
    a.Alike m p q :=
  ⟨fun _ _ => False, ⟨fun _ _ h => h.elim, fun _ _ _ _ h => h.elim, fun _ _ _ _ h => h.elim⟩,
    .inr ⟨hp, hq⟩⟩

theorem IsMatching.productive (hR : a.IsMatching m R) (hpq : R p q) (hp : a.IsProductive m p) :
    a.IsProductive m q := by
  obtain ⟨u, r, hrun, hacc⟩ := hp
  induction hrun generalizing q with
  | nil p => exact ⟨[], q, .nil q, (hR.accept p q hpq).1 hacc⟩
  | cons first rest ih =>
    obtain ⟨q', hq', hpq' | ⟨hdead, -⟩⟩ := hR.forth _ q _ _ hpq first
    · obtain ⟨v, s, hrun, hacc⟩ := ih hpq' hacc
      exact ⟨_ :: v, s, .cons hq' hrun, hacc⟩
    · exact absurd ⟨_, _, rest, hacc⟩ hdead

section Shown

variable (h : a.Shows m g) (hm : m.Canonical) (hg : Contained g a.stateCount)
include h hm hg

theorem Shows.productive_iff (hp : p < a.stateCount) : a.IsProductive m p ↔ Productive g p := by
  have hlt : ∀ cs, ∀ q ∈ g.evalFrom {p} cs, q < a.stateCount := fun cs =>
    hg.toBounded.eval (by simpa using hp) cs
  constructor
  · rintro ⟨u, q, hrun, hacc⟩
    rw [h.run_iff hm hg.toBounded] at hrun
    exact ⟨u.codes, u.lettered_codes, q,
      (h.accepts_state_iff hm (hlt _ q hrun)).1 hacc, hrun⟩
  · rintro ⟨cs, hcs, q, hacc, hrun⟩
    obtain ⟨u, rfl⟩ := hcs.exists_word
    exact ⟨u, q, (h.run_iff hm hg.toBounded).2 hrun,
      (h.accepts_state_iff hm (hlt _ q hrun)).2 hacc⟩

theorem Shows.dead_iff (hp : p < a.stateCount) :
    Dead g a.stateCount p ↔ ¬ a.IsProductive m p := by
  rw [h.productive_iff hm hg hp]
  exact and_iff_right hp

/-- Between dead states there are all edges, and no others leave them. -/
theorem step_of_not_productive {c p' : Nat} (hp : p < a.stateCount) (hq : q < a.stateCount)
    (hpdead : ¬ a.IsProductive m p) (hqdead : ¬ a.IsProductive m q) (hc : c < letterCount)
    (hp' : p' ∈ (joined g a.stateCount).step p c) :
    ∃ q', q' ∈ (joined g a.stateCount).step q c ∧
      p' < a.stateCount ∧ q' < a.stateCount ∧ a.Matched m R p' q' := by
  obtain ⟨q', hq', hp'dead, hq'dead⟩ := (dead_bisimulation hg).forth p q c p'
    ⟨(h.dead_iff hm hg hp).2 hpdead, (h.dead_iff hm hg hq).2 hqdead⟩ hc hp'
  exact ⟨q', hq', hp'dead.1, hq'dead.1, .inr ⟨(h.dead_iff hm hg hp'dead.1).1 hp'dead,
    (h.dead_iff hm hg hq'dead.1).1 hq'dead⟩⟩

theorem IsMatching.step {c p' : Nat} (hR : a.IsMatching m R) (hp : p < a.stateCount)
    (hq : q < a.stateCount) (hpq : a.Matched m R p q) (hc : c < letterCount)
    (hp' : p' ∈ (joined g a.stateCount).step p c) :
    ∃ q', q' ∈ (joined g a.stateCount).step q c ∧
      p' < a.stateCount ∧ q' < a.stateCount ∧ a.Matched m R p' q' := by
  have hedge := fun p x q => h.hasEdge_code_iff hm hg.toBounded (p := p) (q := q) (x := x)
  obtain hpq | ⟨hpdead, hqdead⟩ := hpq
  · rcases hp' with hstep | hadded
    · obtain ⟨x, rfl⟩ := Letter.exists_code hc
      obtain ⟨q', hq', hmatched⟩ := hR.forth p q x p' hpq ((hedge p x p').2 hstep)
      rw [hedge] at hq'
      exact ⟨q', .inl hq', hg.target p _ p' hstep, hg.target q _ q' hq', hmatched⟩
    · have hpdead := (h.dead_iff hm hg hp).1 hadded.1
      exact step_of_not_productive h hm hg hp hq hpdead
        (fun hq => hpdead (hR.symm.productive hpq hq)) hc (.inr hadded)
  · exact step_of_not_productive h hm hg hp hq hpdead hqdead hc hp'

theorem IsMatching.bisimulation (hR : a.IsMatching m R) :
    Bisimulation (joined g a.stateCount) fun p q =>
      p < a.stateCount ∧ q < a.stateCount ∧ a.Matched m R p q where
  accept := by
    rintro p q ⟨hp, hq, hpq | ⟨hpdead, hqdead⟩⟩
    · have haccept := hR.accept p q hpq
      rwa [h.accepts_state_iff hm hp, h.accepts_state_iff hm hq] at haccept
    · exact (dead_bisimulation hg).accept p q
        ⟨(h.dead_iff hm hg hp).2 hpdead, (h.dead_iff hm hg hq).2 hqdead⟩
  forth := by
    rintro p q c p' ⟨hp, hq, hpq⟩ hc hp'
    exact hR.step h hm hg hp hq hpq hc hp'
  back := by
    rintro p q c q' ⟨hp, hq, hpq⟩ hc hq'
    obtain ⟨p', hp', hq'lt, hp'lt, hmatched⟩ := hR.symm.step h hm hg hq hp hpq.symm hc hq'
    exact ⟨p', hp', hp'lt, hq'lt, hmatched.symm⟩

/-- Blocks that separate nothing more hold the states that match each other's moves. -/
theorem alike_of_together (hBs : Coarse (joined g a.stateCount) a.stateCount Bs)
    (hstable : Stable (joined g a.stateCount) Bs) (hpq : Together Bs p q) : a.Alike m p q := by
  have hbis := hBs.bisimulation hstable (joined_contained hg)
  have hedge := fun p x q => h.hasEdge_code_iff hm hg.toBounded (p := p) (q := q) (x := x)
  have hlt : ∀ p q, Together Bs p q → p < a.stateCount ∧ q < a.stateCount :=
    fun p q ⟨B, hB, hp, hq⟩ => ⟨hBs.within B hB p hp, hBs.within B hB q hq⟩
  have hproductive : ∀ p q, Together Bs p q → (a.IsProductive m p ↔ a.IsProductive m q) := by
    intro p q hpq
    rw [h.productive_iff hm hg (hlt p q hpq).1, h.productive_iff hm hg (hlt p q hpq).2]
    exact (hBs.sameFuture hstable hg hpq).productive_iff
  have hmatched : ∀ p q, Together Bs p q →
      a.Matched m (fun p q => Together Bs p q ∧ a.IsProductive m p) p q := by
    intro p q hpq
    by_cases hp : a.IsProductive m p
    · exact .inl ⟨hpq, hp⟩
    · exact .inr ⟨hp, fun hq => hp ((hproductive p q hpq).2 hq)⟩
  -- the edges that were added leave no productive state
  have hstep : ∀ p c p', p < a.stateCount → a.IsProductive m p →
      p' ∈ (joined g a.stateCount).step p c → p' ∈ g.step p c := by
    rintro p c p' hlt hp (hp' | ⟨hdead, -⟩)
    · exact hp'
    · exact absurd hp ((h.dead_iff hm hg hlt).1 hdead)
  refine ⟨fun p q => Together Bs p q ∧ a.IsProductive m p, ⟨?_, ?_, ?_⟩, hmatched p q hpq⟩
  · rintro p q ⟨hpq, -⟩
    rw [h.accepts_state_iff hm (hlt p q hpq).1, h.accepts_state_iff hm (hlt p q hpq).2]
    exact hBs.accept p q hpq
  · rintro p q x p' ⟨hpq, hp⟩ hp'
    rw [hedge] at hp'
    obtain ⟨q', hq', hpq'⟩ := hbis.forth p q _ p' hpq x.code_lt (.inl hp')
    exact ⟨q', (hedge q x q').2 (hstep q _ q' (hlt p q hpq).2 ((hproductive p q hpq).1 hp) hq'),
      hmatched p' q' hpq'⟩
  · rintro p q x q' ⟨hpq, hp⟩ hq'
    rw [hedge] at hq'
    obtain ⟨p', hp', hpq'⟩ := hbis.back p q _ q' hpq x.code_lt (.inl hq')
    exact ⟨p', (hedge p x p').2 (hstep p _ p' (hlt p q hpq).1 hp hp'), hmatched p' q' hpq'⟩

theorem together_iff_alike (hBs : Coarse (joined g a.stateCount) a.stateCount Bs)
    (hstable : Stable (joined g a.stateCount) Bs) (hp : p < a.stateCount)
    (hq : q < a.stateCount) : Together Bs p q ↔ a.Alike m p q := by
  constructor
  · exact alike_of_together h hm hg hBs hstable
  · rintro ⟨R, hR, hpq⟩
    exact hBs.bisimilar _ p q (hR.bisimulation h hm hg) ⟨hp, hq, hpq⟩ hp hq

end Shown

/-- Minimization keeps the language and merges the states that are alike, and no others. -/
theorem minimize_alike (hw : w.current.WellFormed) (ha : a.WellFormed w.current) :
    Yields w a.minimize fun b m => b.WellFormed m ∧
      (∀ u, b.Accepts m u ↔ a.Accepts w.current u) ∧
      ∃ Bs, Blocks a.stateCount Bs ∧ b.stateCount = Bs.length ∧
        ∀ p < a.stateCount, ∀ q < a.stateCount, Together Bs p q ↔ a.Alike w.current p q := by
  have hm := hw.canonical
  obtain ⟨g, h, hg⟩ := ha.shown
  rcases Nat.eq_zero_or_pos a.stateCount with hzero | hpos
  · unfold minimize
    rw [if_pos hzero]
    refine Runs.pure hw ⟨ha, fun _ => Iff.rfl, [], ?_, hzero, fun p hp => ?_⟩
    · exact ⟨by simp, by simp, fun p hp => by omega, .nil⟩
    · omega
  apply (minimize_merges hw ha h hg hpos).imp
  rintro b w1 - ⟨hb, haccepts, Bs, hBs, hstable, hcount, -⟩
  exact ⟨hb, haccepts, Bs, hBs.toBlocks, hcount,
    fun p hp q hq => together_iff_alike h hm hg hBs hstable hp hq⟩

theorem WellFormed.not_productive (ha : a.WellFormed m) (hm : m.Canonical)
    (hnone : ∀ u, ¬ a.Accepts m u) {u : Word} (hu : p ∈ a.reached m u) :
    ¬ a.IsProductive m p := by
  obtain ⟨g, h, hg⟩ := ha.shown
  obtain ⟨q, hstart, hrun⟩ := hu
  rintro ⟨v, r, hrun', hacc⟩
  rw [h.run_iff hm hg.toBounded] at hrun hrun'
  refine hnone (u ++ v) ⟨q, r, hstart, (h.run_iff hm hg.toBounded).2 ?_, hacc⟩
  rw [Word.codes_append, NFA.evalFrom_append]
  exact NFA.mem_evalFrom_iff_exists.2 ⟨p, hrun, hrun'⟩

/-- Minimization of an automaton that accepts nothing gives one that accepts nothing, with a state
for each class. There are two at most if all productive states are alike, and one at most if words
lead to all of them, as there are none then. -/
theorem minimize_of_acceptsNone (hw : w.current.WellFormed) (ha : a.WellFormed w.current)
    (hnone : ∀ u, ¬ a.Accepts w.current u) :
    ∃ b w', a.minimize w = .ok b w' ∧ w.Leads w' ∧ b.WellFormed w'.current ∧
      (∀ u, ¬ b.Accepts w'.current u) ∧
      (b.stateCount : ℕ∞) = (a.classes w.current).encard ∧
      ((∀ p < a.stateCount, ∀ q < a.stateCount, a.IsProductive w.current p →
        a.IsProductive w.current q → a.Alike w.current p q) → b.stateCount ≤ 2) ∧
      ((∀ p < a.stateCount, a.IsProductive w.current p → ∃ u, p ∈ a.reached w.current u) →
        b.stateCount ≤ 1) := by
  obtain ⟨b, w', hrun, hl, hb, haccepts, Bs, hBs, hcount, halike⟩ :=
    yields_iff.1 (minimize_alike hw ha)
  have hdead : ∀ p < a.stateCount, ∀ q < a.stateCount, ¬ a.IsProductive w.current p →
      ¬ a.IsProductive w.current q → Together Bs p q := fun p hp q hq hpdead hqdead =>
    (halike p hp q hq).2 (alike_of_not_productive hpdead hqdead)
  refine ⟨b, w', hrun, hl, hb, fun u hu => hnone u ((haccepts u).1 hu), ?_, fun hone => ?_,
    fun hall => ?_⟩
  · rw [hcount, ← hBs.encard_classes, classes]
    congr 1
    refine Set.image_congr fun p hp => Set.ext fun q => and_congr_right fun hq => ?_
    exact halike p hp q hq
  · rw [hcount]
    refine hBs.length_le_card (F := a.IsProductive w.current) fun p hp q hq heq => ?_
    by_cases hproductive : a.IsProductive w.current p
    · exact (halike p hp q hq).2 (hone p hp q hq hproductive (heq ▸ hproductive))
    · exact hdead p hp q hq hproductive (heq ▸ hproductive)
  · have hnot : ∀ p < a.stateCount, ¬ a.IsProductive w.current p := fun p hp hproductive => by
      obtain ⟨u, hu⟩ := hall p hp hproductive
      exact ha.not_productive hw.canonical hnone hu hproductive
    rw [hcount]
    exact hBs.length_le_card (F := fun _ => ()) fun p hp q hq _ =>
      hdead p hp q hq (hnot p hp) (hnot q hq)

/-- Two rejecting states that lead to each other and an accepting one that leads to itself. No word
leads to the accepting one, and it is the only productive one. -/
theorem minimize_of_acceptsNone_draw : ∃ m a w b w', Manager.new 0 1 1 = .ok m ∧
    draw 3 [0] [2] [(0, 1), (1, 0), (2, 2)] ⟨m, []⟩ = .ok a w ∧ (∀ u, ¬ a.Accepts w.current u) ∧
    a.minimize w = .ok b w' ∧ (∀ u, ¬ b.Accepts w'.current u) ∧ b.stateCount ≤ 2 := by
  obtain ⟨m, hm⟩ : ∃ m, Manager.new 0 1 1 = .ok m := ⟨_, rfl⟩
  obtain ⟨a, w, ha, hl, hcount, -, hshows, hcontained, hwell⟩ :=
    draw_wellFormed 3 [0] [2] [(0, 1), (1, 0), (2, 2)] hm (by decide) (by decide) (by decide)
      (by decide)
  have hm' := hl.after.canonical
  have honly : ∀ p, Productive (drawing [0] [2] [(0, 1), (1, 0), (2, 2)]) p → p = 2 := fun p hp =>
    hp.induct_drawing (P := fun p => p = 2) (by decide) (by decide)
  have hnone : ∀ u, ¬ a.Accepts w.current u := by
    intro u
    rw [hshows.accepts_iff hm' hcontained.toBounded]
    refine not_mem_accepts (fun p hp hproductive => ?_) u.lettered_codes
    obtain rfl : p = 0 := List.mem_singleton.1 hp
    exact absurd (honly 0 hproductive) (by decide)
  have hone : ∀ p < a.stateCount, ∀ q < a.stateCount, a.IsProductive w.current p →
      a.IsProductive w.current q → a.Alike w.current p q := by
    intro p hp q hq hproductive hproductive'
    rw [hshows.productive_iff hm' hcontained hp] at hproductive
    rw [hshows.productive_iff hm' hcontained hq] at hproductive'
    obtain rfl := honly p hproductive
    obtain rfl := honly q hproductive'
    exact .refl 2
  obtain ⟨b, w', hrun, -, -, haccepts, -, htwo, -⟩ := minimize_of_acceptsNone hl.after hwell hnone
  exact ⟨m, a, w, b, w', hm, ha, hnone, hrun, haccepts, htwo hone⟩

/-- An edge between two states that no word leads to makes both of them productive, and not
bisimilar, so nothing is merged. -/
theorem minimize_strayEdge : ∃ m a w w₁ b w₂, Manager.new 0 1 1 = .ok m ∧
    draw 3 [0] [2] [(1, 2)] ⟨m, []⟩ = .ok a w ∧ a.WellFormed w.current ∧
    a.acceptsNone w = .ok true w₁ ∧ a.minimize w₁ = .ok b w₂ ∧ b.stateCount = 3 := by
  obtain ⟨m, hm⟩ : ∃ m, Manager.new 0 1 1 = .ok m := ⟨_, rfl⟩
  obtain ⟨a, w, ha, hl, hcount, -, hshows, hcontained, hwell⟩ :=
    draw_wellFormed 3 [0] [2] [(1, 2)] hm (by decide) (by decide) (by decide) (by decide)
  have hzero : ∀ p, Productive (drawing [0] [2] [(1, 2)]) p → p ≠ 0 := fun p hp =>
    hp.induct_drawing (P := fun p => p ≠ 0) (by decide) (by decide)
  have hnone : ∀ cs, Lettered cs → cs ∉ (drawing [0] [2] [(1, 2)]).accepts := fun cs hcs =>
    not_mem_accepts (fun p hp hproductive => hzero p hproductive (List.mem_singleton.1 hp)) hcs
  obtain ⟨r, w₁, hnone', hl₁, hr⟩ := yields_iff.1 (acceptsNone_yields hl.after hshows hcontained)
  obtain rfl := hr.2 hnone
  obtain ⟨b, w₂, hrun, -, Bs, hBs, hstable, hlength, -⟩ := yields_iff.1
    (minimize_shows hl₁.after (hshows.later hl₁) hcontained (by omega))
  have hnil : ∀ p, [] ∈ (drawing [0] [2] [(1, 2)]).acceptsFrom {p} ↔ p = 2 := fun p => by
    rw [NFA.nil_mem_acceptsFrom]
    constructor
    · rintro ⟨q, rfl, hq⟩
      exact List.mem_singleton.1 hq
    · rintro rfl
      exact ⟨2, rfl, List.mem_singleton_self 2⟩
  have hletter : ∀ p, [0] ∈ (drawing [0] [2] [(1, 2)]).acceptsFrom {p} ↔ p = 1 := fun p => by
    rw [NFA.cons_mem_acceptsFrom, NFA.stepSet_singleton, NFA.nil_mem_acceptsFrom]
    constructor
    · rintro ⟨q, hq, -⟩
      exact congrArg Prod.fst (List.mem_singleton.1 (mem_drawing_step.1 hq))
    · rintro rfl
      exact ⟨2, mem_drawing_step.2 (by decide), List.mem_singleton_self 2⟩
  have hthree : Bs.length = a.stateCount := by
    refine hBs.length_eq fun p q hpq => ?_
    have hsame := hBs.sameFuture hstable hcontained hpq
    have htwo := hsame [] lettered_nil
    have hone := hsame [0] (by simp [letterCount_pos])
    rw [hnil, hnil] at htwo
    rw [hletter, hletter] at hone
    obtain ⟨B, hB, hp, hq⟩ := hpq
    have hplt := hBs.within B hB p hp
    have hqlt := hBs.within B hB q hq
    omega
  exact ⟨m, a, w, w₁, b, w₂, hm, ha, hwell, hnone', hrun, by rw [hlength, hthree, hcount]⟩

end SymbolicNfa

end SymbolicAutomata
