import SymbolicAutomata.Proofs.Bisimulations
import SymbolicAutomata.Proofs.Decisions
import Mathlib.Computability.MyhillNerode
/-!
# Residuals

The words accepted from a state of a deterministic automaton are the residual of its language by the
words that lead to the state. Accepting the same words is a bisimulation there, so the blocks of a
stable partition have different residuals. If words lead to all states, the automaton has as many
states as its language has residuals, and the language determines it up to the numbers of the
states.
-/
namespace SymbolicAutomata

open Manager Bdd Layout SymbolicNfa

variable {g g₁ g₂ g₃ : NFA Nat Nat} {n n₁ n₂ p p' q q' r i c : Nat} {cs ds : List Nat}
  {S T : Set Nat} {R : Nat → Nat → Prop} {Bs : List (Set Nat)}

def SameFuture (g₁ g₂ : NFA Nat Nat) (p q : Nat) : Prop :=
  ∀ cs, Lettered cs → (cs ∈ g₁.acceptsFrom {p} ↔ cs ∈ g₂.acceptsFrom {q})

theorem SameFuture.symm (h : SameFuture g₁ g₂ p q) : SameFuture g₂ g₁ q p :=
  fun cs hcs => (h cs hcs).symm

theorem SameFuture.trans (h : SameFuture g₁ g₂ p q) (h' : SameFuture g₂ g₃ q r) :
    SameFuture g₁ g₃ p r :=
  fun cs hcs => (h cs hcs).trans (h' cs hcs)

def future (g : NFA Nat Nat) (q : Nat) : Language Letter := {v | Word.codes v ∈ g.acceptsFrom {q}}

theorem future_eq_iff : future g₁ p = future g₂ q ↔ SameFuture g₁ g₂ p q := by
  constructor
  · intro heq cs hcs
    obtain ⟨u, rfl⟩ := hcs.exists_word
    exact Set.ext_iff.1 heq u
  · exact fun hsame => Set.ext fun u => hsame _ (Word.lettered_codes u)

theorem leftQuotient_of_run {L : Language Letter} {u : Word}
    (hL : ∀ u : Word, u ∈ L ↔ u.codes ∈ g.accepts) (hrun : g.evalFrom g.start u.codes = {q}) :
    L.leftQuotient u = future g q := by
  ext v
  change u ++ v ∈ L ↔ Word.codes v ∈ g.acceptsFrom {q}
  rw [hL, ← hrun, ← NFA.append_mem_acceptsFrom, Word.codes_append]
  rfl

theorem SameFuture.accept_iff (h : SameFuture g₁ g₂ p q) : p ∈ g₁.accept ↔ q ∈ g₂.accept := by
  simpa using h [] lettered_nil

theorem Bisimulation.sameFuture (hR : Bisimulation g R) (hpq : R p q) : SameFuture g g p q := by
  have hforth : ∀ {R : Nat → Nat → Prop}, Bisimulation g R → ∀ cs, Lettered cs → ∀ p q, R p q →
      cs ∈ g.acceptsFrom {p} → cs ∈ g.acceptsFrom {q} := by
    intro R hR cs
    induction cs with
    | nil =>
      intro _ p q hpq hp
      simpa using (hR.accept p q hpq).1 (by simpa using hp)
    | cons c cs ih =>
      intro hcs p q hpq
      obtain ⟨hc, hrest⟩ := lettered_cons.1 hcs
      simp only [NFA.mem_acceptsFrom, NFA.evalFrom_cons, NFA.stepSet_singleton]
      rintro ⟨r, hacc, hrun⟩
      obtain ⟨p', hp', hrun⟩ := NFA.mem_evalFrom_iff_exists.1 hrun
      obtain ⟨q', hq', hpq'⟩ := hR.forth p q c p' hpq hc hp'
      obtain ⟨s, hacc', hrun'⟩ := ih hrest p' q' hpq' ⟨r, hacc, hrun⟩
      exact ⟨s, hacc', NFA.mem_evalFrom_iff_exists.2 ⟨q', hq', hrun'⟩⟩
  exact fun cs hcs => ⟨hforth hR cs hcs p q hpq, hforth hR.symm cs hcs q p hpq⟩

theorem SameFuture.productive_iff (h : SameFuture g g p q) : Productive g p ↔ Productive g q :=
  exists_congr fun cs => and_congr_right (h cs)

theorem Deterministic.step_eq (h : Deterministic g n) (hp : p < n) (hc : c < letterCount)
    (hq : q ∈ g.step p c) : g.step p c = {q} :=
  Set.eq_singleton_iff_unique_mem.2 ⟨hq, fun _ hr => (h.successor p hp c hc).unique hr hq⟩

theorem SameFuture.step (h : SameFuture g₁ g₂ p q) (h₁ : Deterministic g₁ n₁)
    (h₂ : Deterministic g₂ n₂) (hp : p < n₁) (hq : q < n₂) (hc : c < letterCount)
    (hp' : p' ∈ g₁.step p c) (hq' : q' ∈ g₂.step q c) : SameFuture g₁ g₂ p' q' := by
  intro cs hcs
  have hcons := h (c :: cs) (lettered_cons.2 ⟨hc, hcs⟩)
  rwa [NFA.cons_mem_acceptsFrom, NFA.cons_mem_acceptsFrom, NFA.stepSet_singleton,
    NFA.stepSet_singleton, h₁.step_eq hp hc hp', h₂.step_eq hq hc hq'] at hcons

/-- Each state has one successor, so what is accepted from the successors is known. -/
theorem sameFuture_bisimulation (h : Deterministic g n) (hg : Bounded g n) :
    Bisimulation g fun p q => p < n ∧ q < n ∧ SameFuture g g p q where
  accept _ _ hpq := hpq.2.2.accept_iff
  forth p q c p' hpq hc hp' := by
    obtain ⟨hp, hq, hsame⟩ := hpq
    obtain ⟨q', hq', -⟩ := h.successor q hq c hc
    exact ⟨q', hq', hg.target p c p' hp', hg.target q c q' hq',
      hsame.step h h hp hq hc hp' hq'⟩
  back p q c q' hpq hc hq' := by
    obtain ⟨hp, hq, hsame⟩ := hpq
    obtain ⟨p', hp', -⟩ := h.successor p hp c hc
    exact ⟨p', hp', hg.target p c p' hp', hg.target q c q' hq',
      hsame.step h h hp hq hc hp' hq'⟩

/-- Words lead to all states of the deterministic automaton, and tell all of them apart. -/
structure Minimal (g : NFA Nat Nat) (n : Nat) : Prop where
  contained : Contained g n
  deterministic : Deterministic g n
  reachable : ∀ q < n, Reachable g q
  distinct : ∀ p < n, ∀ q < n, SameFuture g g p q → p = q

section Merging

theorem evalFrom_mono (hstep : ∀ p c, g₁.step p c ⊆ g₂.step p c) (hS : S ⊆ T) :
    g₁.evalFrom S cs ⊆ g₂.evalFrom T cs := by
  induction cs generalizing S T with
  | nil => exact hS
  | cons c cs ih =>
    apply ih
    intro q hq
    obtain ⟨p, hp, hq⟩ := NFA.mem_stepSet.1 hq
    exact NFA.mem_stepSet.2 ⟨p, hS hp, hstep p c hq⟩

theorem reachable_joined (h : Reachable g q) : Reachable (joined g n) q := by
  obtain ⟨cs, hcs, hq⟩ := h
  exact ⟨cs, hcs, evalFrom_mono (fun _ _ _ => Or.inl) subset_rfl hq⟩

theorem reachable_carry (h : Coarse g n Bs) (hg : Contained g n) (hq : Reachable g q)
    (hi : InBlock Bs q i) : Reachable (carry g (InBlock Bs)) i := by
  obtain ⟨cs, hcs, hrun⟩ := hq
  obtain ⟨p, hp, hrun⟩ := NFA.mem_evalFrom_iff_exists.1 hrun
  obtain ⟨k, hk⟩ := h.exists_block (hg.start p hp)
  obtain ⟨j, hj, hrun⟩ := eval_carry hk hrun fun u v r _ hr _ =>
    h.exists_block (hg.toBounded.eval (by simpa using hg.start p hp) u r hr)
  obtain rfl := h.unique hj hi
  exact ⟨cs, hcs, NFA.mem_evalFrom_iff_exists.2 ⟨k, ⟨p, hk, hp⟩, hrun⟩⟩

theorem Coarse.sameFuture (h : Coarse (joined g n) n Bs) (hs : Stable (joined g n) Bs)
    (hg : Contained g n) (hpq : Together Bs p q) : SameFuture g g p q := by
  intro cs hcs
  have hjoined := (h.bisimulation hs (joined_contained hg)).sameFuture hpq cs hcs
  exact (accepts_from_joined hcs).symm.trans (hjoined.trans (accepts_from_joined hcs))

/-- Merging bisimilar states merges all states from which the same words are accepted. -/
theorem carry_minimal (h : Coarse (joined g n) n Bs) (hs : Stable (joined g n) Bs)
    (hg : Contained g n) (hdet : Deterministic g n) (hall : ∀ q < n, Reachable g q) :
    Minimal (carry (joined g n) (InBlock Bs)) Bs.length where
  contained := merged_contained
  deterministic := carry_deterministic h hs hg hdet
  reachable i hi := by
    obtain ⟨q, hq⟩ := h.exists_state hi
    exact reachable_carry h (joined_contained hg) (reachable_joined (hall q (h.state_lt hq))) hq
  distinct p hp q hq hpq :=
    h.eq_of_bisimulation hs (joined_contained hg) (sameFuture_bisimulation
      (carry_deterministic h hs hg hdet) merged_contained.toBounded) ⟨hp, hq, hpq⟩ hp hq

end Merging

namespace Minimal

theorem exists_run (h : Minimal g n) (hq : q < n) :
    ∃ cs, Lettered cs ∧ g.evalFrom g.start cs = {q} := by
  obtain ⟨cs, hcs, hrun⟩ := h.reachable q hq
  obtain ⟨r, -, heq⟩ := h.deterministic.run h.contained.toBounded hcs
  rw [heq] at hrun
  obtain rfl : q = r := hrun
  exact ⟨cs, hcs, heq⟩

theorem unique (h : Minimal g₂ n₂) (hq : q < n₂) (hr : r < n₂) (hpq : SameFuture g₁ g₂ p q)
    (hpr : SameFuture g₁ g₂ p r) : q = r :=
  h.distinct q hq r hr (hpq.symm.trans hpr)

theorem encard_leftQuotient (h : Minimal g n) {L : Language Letter}
    (hL : ∀ u : Word, u ∈ L ↔ u.codes ∈ g.accepts) : (Set.range L.leftQuotient).encard = n := by
  have hrange : Set.range L.leftQuotient = future g '' Set.Iio n := by
    ext K
    constructor
    · rintro ⟨u, rfl⟩
      obtain ⟨q, hq, hrun⟩ := h.deterministic.run h.contained.toBounded (Word.lettered_codes u)
      exact ⟨q, hq, (leftQuotient_of_run hL hrun).symm⟩
    · rintro ⟨q, hq, rfl⟩
      obtain ⟨cs, hcs, hrun⟩ := h.exists_run hq
      obtain ⟨u, rfl⟩ := hcs.exists_word
      exact ⟨u, leftQuotient_of_run hL hrun⟩
  have hinj : Set.InjOn (future g) (Set.Iio n) := fun p hp q hq heq =>
    h.distinct p hp q hq (future_eq_iff.1 heq)
  rw [hrange, hinj.encard_image, ← Finset.coe_range, Set.encard_coe_eq_coe_finsetCard,
    Finset.card_range]

section Renaming

variable (h₁ : Minimal g₁ n₁) (h₂ : Minimal g₂ n₂)
  (hlang : ∀ cs, Lettered cs → (cs ∈ g₁.accepts ↔ cs ∈ g₂.accepts))
include h₁ h₂ hlang

omit h₁ h₂ in
theorem sameFuture_of_run (hcs : Lettered cs) (hp : g₁.evalFrom g₁.start cs = {p})
    (hq : g₂.evalFrom g₂.start cs = {q}) : SameFuture g₁ g₂ p q := by
  intro ds hds
  have hword := hlang (cs ++ ds) (lettered_append.2 ⟨hcs, hds⟩)
  change _ ∈ g₁.acceptsFrom g₁.start ↔ _ ∈ g₂.acceptsFrom g₂.start at hword
  rwa [NFA.append_mem_acceptsFrom, NFA.append_mem_acceptsFrom, hp, hq] at hword

theorem exists_sameFuture (hp : p < n₁) : ∃ q < n₂, SameFuture g₁ g₂ p q := by
  obtain ⟨cs, hcs, hrun⟩ := h₁.exists_run hp
  obtain ⟨q, hq, hrun'⟩ := h₂.deterministic.run h₂.contained.toBounded hcs
  exact ⟨q, hq, sameFuture_of_run hlang hcs hrun hrun'⟩

theorem start_of_sameFuture (hq : q < n₂) (hpq : SameFuture g₁ g₂ p q) (hp : p ∈ g₁.start) :
    q ∈ g₂.start := by
  obtain ⟨r, hr, -⟩ := h₂.deterministic.start
  have hp' : g₁.evalFrom g₁.start [] = {p} :=
    Set.eq_singleton_iff_unique_mem.2 ⟨hp, fun _ h => h₁.deterministic.start.unique h hp⟩
  have hr' : g₂.evalFrom g₂.start [] = {r} :=
    Set.eq_singleton_iff_unique_mem.2 ⟨hr, fun _ h => h₂.deterministic.start.unique h hr⟩
  have hpr := sameFuture_of_run hlang lettered_nil hp' hr'
  obtain rfl := h₂.unique hq (h₂.contained.start r hr) hpq hpr
  exact hr

omit hlang in
theorem step_of_sameFuture (hp : p < n₁) (hq : q < n₂) (hq'lt : q' < n₂) (hc : c < letterCount)
    (hpq : SameFuture g₁ g₂ p q) (hpq' : SameFuture g₁ g₂ p' q') (hstep : p' ∈ g₁.step p c) :
    q' ∈ g₂.step q c := by
  obtain ⟨r, hr, -⟩ := h₂.deterministic.successor q hq c hc
  have hpr := hpq.step h₁.deterministic h₂.deterministic hp hq hc hstep hr
  obtain rfl := h₂.unique hq'lt (h₂.contained.target q c r hr) hpq' hpr
  exact hr

/-- One renaming leads each state to the state with the same residual. -/
theorem exists_renaming : ∃ σ : Nat → Nat, Set.BijOn σ (Set.Iio n₁) (Set.Iio n₂) ∧
    ∀ p < n₁, SameFuture g₁ g₂ p (σ p) := by
  have hplace : ∀ p, ∃ q, p < n₁ → q < n₂ ∧ SameFuture g₁ g₂ p q := by
    intro p
    by_cases hp : p < n₁
    · obtain ⟨q, hq, hpq⟩ := exists_sameFuture h₁ h₂ hlang hp
      exact ⟨q, fun _ => ⟨hq, hpq⟩⟩
    · exact ⟨0, fun h => absurd h hp⟩
  choose σ hσ using hplace
  refine ⟨σ, ⟨fun p hp => (hσ p hp).1, ?_, ?_⟩, fun p hp => (hσ p hp).2⟩
  · intro p hp q hq heq
    have hqp := (hσ q hq).2
    rw [← heq] at hqp
    exact h₁.distinct p hp q hq ((hσ p hp).2.trans hqp.symm)
  · intro q hq
    obtain ⟨p, hp, hqp⟩ := exists_sameFuture h₂ h₁ (fun cs hcs => (hlang cs hcs).symm) hq
    exact ⟨p, hp, h₂.unique (hσ p hp).1 hq (hσ p hp).2 hqp.symm⟩

end Renaming

end Minimal

end SymbolicAutomata
