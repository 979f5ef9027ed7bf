import SymbolicAutomata.Proofs.Alignments
import SymbolicAutomata.Proofs.Conversions
import SymbolicAutomata.Proofs.Histories
import SymbolicAutomata.Proofs.RationalOperations
import SymbolicAutomata.Proofs.Relabellings
/-!
# Automata made of well-formed automata

An intermediate automaton may use numbers that are no states, and have accepting states and edges
there. What is returned is well-formed again: its states are `0, …, n - 1` and its edges join them.
No operation trusts the flag of an operand for that.
-/
namespace SymbolicAutomata

open Manager Bdd Layout

variable {w w' : Workspace} {m : Manager} {g : NFA Nat Nat} {n : Nat} {f : Connective}

namespace SymbolicNfa

variable {a b : SymbolicNfa} {s t : ValueSet} {P Q : Nat → Prop}

theorem Shows.formed (h : b.Shows m g) (hg : Contained g n) (hn : b.stateCount = n) :
    b.Formed m := ⟨g, h, hn ▸ hg⟩

/-- A part of an automaton, with its states numbered densely, is well-formed. -/
theorem formed_of_renumber {vs : List Nat} (hn : b.stateCount = vs.length)
    (h : b.Shows m (renumber g vs)) : b.Formed m := h.formed (renumber_contained g vs) hn

theorem Formed.later (h : a.Formed w.current) (hl : w.Leads w') : a.Formed w'.current := by
  obtain ⟨g, h, hg⟩ := h
  exact ⟨g, h.later hl, hg⟩

theorem Formed.flagged (h : a.Formed m) (d : Determinism) :
    ({ a with determinism := d } : SymbolicNfa).Formed m := by
  obtain ⟨g, h, hg⟩ := h
  exact ⟨g, h.flagged d, hg⟩

theorem WellFormed.formed (h : a.WellFormed m) : a.Formed m := h.shown

theorem ofCount_formed (hw : w.current.WellFormed) (hn : n < 2 ^ 32) :
    Yields w (ofCount n) fun b m => b.Formed m :=
  (ofCount_yields hw hn).imp fun _ _ _ hb => hb.2.2.formed (bare_contained n) hb.1

theorem universal_formed (hw : w.current.WellFormed) :
    Yields w universal fun b m => b.Formed m :=
  (universal_wellFormed hw).imp fun _ _ _ hb => hb.formed

theorem addState_fails {accepting starting : Bool} (hw : w.current.WellFormed)
    (hn : ¬ a.stateCount + 1 < 2 ^ 32) :
    Keeps w (a.addState accepting starting) fun _ _ => False :=
  Runs.lift_error hw (if_neg hn) trivial

section Operand

variable (hw : w.current.WellFormed) (ha : a.Formed w.current)

include hw ha

theorem addState_formed {accepting starting : Bool} :
    Keeps w (a.addState accepting starting) fun r m =>
      r.2.stateCount = a.stateCount + 1 ∧ r.2.Formed m := by
  obtain ⟨g, h, hg⟩ := ha
  by_cases hn : a.stateCount + 1 < 2 ^ 32
  · apply (addState_yields hw h hg hn).keeps.imp
    rintro r w1 - ⟨-, hcount, -, hr⟩
    exact ⟨hcount, hr.formed (hg.enlarge (Nat.le_succ _)) hcount⟩
  · exact (addState_fails hw hn).imp fun _ _ _ hfalse => hfalse.elim

theorem increase_formed {accepting starting : Bool} (hn : n < 2 ^ 32) :
    Yields w (a.increase n accepting starting) fun b m => b.Formed m := by
  obtain ⟨g, h, hg⟩ := ha
  by_cases hlt : a.stateCount < n
  · apply (increase_yields hw h hg hlt hn).imp
    rintro b w1 - ⟨hcount, -, hb⟩
    exact hb.formed (hg.enlarge (Nat.le_of_lt hlt)) hcount
  · unfold increase
    rw [if_pos (Nat.le_of_not_lt hlt)]
    exact Runs.pure hw ⟨g, h, hg⟩

theorem filter_formed (hs : s.Shows w.current P) :
    Keeps w (a.filter s) fun b m => b.Formed m := by
  obtain ⟨g, h, hg⟩ := ha
  have hk := h.width_le
  have hlen : a.states.domain.len = a.width := by rw [h.states.1]; rfl
  have hbase : a.states.domain.base = 1 := by rw [h.states.1]; rfl
  apply Runs.bind (h.states.2.inter_keeps hs hw fun _ => by omega)
  rintro u w1 hl1 ⟨hud, hu⟩
  have h1 := h.later hl1
  apply Runs.lift_bind h1.stateDomain
  have hubase : u.domain.base = 1 := by rw [hud]; exact hbase
  have hsafe : u.domain.Safe (sourceBlock a.width) := by
    refine ⟨fun _ => ?_, fun hlt => ?_⟩
    · change u.domain.base + a.width ≤ 2 ^ 31
      omega
    · change u.domain.len < a.width at hlt
      change 1 + u.domain.len ≤ 2 ^ 31
      omega
  apply Runs.bind (hu.withDomain_keeps hl1.after hsafe)
  rintro t w2 hl2 ⟨htd, ht⟩
  have hn := a.count_le_two_pow_width
  have hkept : t.Shows w2.current fun v =>
      v < a.stateCount ∧ v < 2 ^ u.domain.len ∧ v < 2 ^ s.domain.len ∧ P v := by
    refine ht.congr fun v _ => ?_
    rw [hlen]
    constructor
    · rintro ⟨hv, ⟨-, hlt⟩, hP⟩
      exact ⟨hlt, hv, hP⟩
    · rintro ⟨hlt, hv, hP⟩
      exact ⟨hv, ⟨Nat.lt_of_lt_of_le hlt hn, hlt⟩, hP⟩
  apply (induced_yields hl2.after (h1.later hl2) ⟨htd, hkept⟩).keeps.imp
  rintro b w3 - ⟨vs, -, -, hcount, -, hb⟩
  exact formed_of_renumber hcount hb

theorem filterReachable_formed : Keeps w a.filterReachable fun b m => b.Formed m := by
  obtain ⟨g, h, hg⟩ := ha
  apply Runs.bind (h.reachable_yields hw hg.bounded).keeps
  intro s w1 hl1 hs
  exact filter_formed hl1.after ⟨g, h.later hl1, hg⟩ hs.2

theorem filterProductive_formed : Keeps w a.filterProductive fun b m => b.Formed m := by
  obtain ⟨g, h, hg⟩ := ha
  apply Runs.bind (h.productive_yields hw hg.bounded).keeps
  intro s w1 hl1 hs
  exact filter_formed hl1.after ⟨g, h.later hl1, hg⟩ hs.2

theorem filterLive_formed : Keeps w a.filterLive fun b m => b.Formed m := by
  obtain ⟨g, h, hg⟩ := ha
  apply (filterLive_shows hw h hg.toBounded).keeps.imp
  rintro b w1 - ⟨-, vs, -, -, hcount, hb⟩
  exact formed_of_renumber hcount hb

theorem star_formed : Keeps w a.star fun b m => b.Formed m := by
  obtain ⟨g, h, hg⟩ := ha
  by_cases hn : a.stateCount + 1 < 2 ^ 32
  · apply (star_shows hw h hg hn).keeps.imp
    rintro b w1 - ⟨-, vs, -, -, hcount, hb⟩
    exact formed_of_renumber hcount hb
  · exact Runs.bind (addState_fails hw hn) fun _ _ _ hfalse => hfalse.elim

theorem reverse_formed : Yields w a.reverse fun b m => b.Formed m := by
  obtain ⟨g, h, hg⟩ := ha
  apply (reverse_yields hw h).imp
  rintro b w1 - ⟨hcount, -, hb⟩
  exact hb.formed hg.reverse hcount

theorem project_formed {bits : Domain} : Keeps w (a.project bits) fun b m => b.Formed m := by
  obtain ⟨g, h, hg⟩ := ha
  apply (project_runs hw h).keeps.imp
  rintro b w1 - ⟨hcount, -, d, -, hb⟩
  exact hb.formed (hg.relabelled _) hcount

theorem rename_formed {names : Renaming} : Keeps w (a.rename names) fun b m => b.Formed m := by
  obtain ⟨g, h, hg⟩ := ha
  apply (rename_runs hw h).keeps.imp
  rintro b w1 - ⟨hcount, -, r, -, hb⟩
  exact hb.formed (hg.relabelled _) hcount

theorem minimize_formed : Yields w a.minimize fun b m => b.Formed m := by
  obtain ⟨g, h, hg⟩ := ha
  rcases Nat.eq_zero_or_pos a.stateCount with hzero | hpos
  · unfold minimize
    rw [if_pos hzero]
    exact Runs.pure hw ⟨g, h, hg⟩
  · apply (minimize_shows hw h hg hpos).imp
    rintro b w1 - ⟨Bs, -, -, hcount, -, hb⟩
    exact hb.formed merged_contained hcount

theorem determinize_formed : Keeps w a.determinize fun b m => b.Formed m := by
  obtain ⟨g, h, hg⟩ := ha
  by_cases hflag : a.determinism = .complete
  · unfold determinize
    rw [if_pos hflag]
    exact Runs.pure hw ⟨g, h, hg⟩
  · apply (determinize_runs hw h hg hflag).keeps.imp
    rintro b w1 - (⟨-, hzero, -, hb⟩ | ⟨-, Ss, hSs, -, hcount, -, hb⟩)
    · exact hb.formed (bare_contained 0) hzero
    · exact hb.formed hSs.contained hcount

theorem withSink_formed : Keeps w a.withSink fun b m => 0 < b.stateCount ∧ b.Formed m := by
  obtain ⟨g, h, hg⟩ := ha
  by_cases hn : a.stateCount + 1 < 2 ^ 32
  · apply (withSink_yields hw h hg hn).keeps.imp
    rintro b w1 - ⟨hcount, -, hb⟩
    exact ⟨by omega, hb.formed (sunk_contained hg) hcount⟩
  · exact Runs.bind (addState_fails hw hn) fun _ _ _ hfalse => hfalse.elim

theorem totalize_formed : Yields w a.totalize fun b m => 0 < b.stateCount ∧ b.Formed m := by
  apply (totalize_yields hw).imp
  rintro b w1 hl1 ⟨hpos, ⟨-, rfl⟩ | ⟨-, hone, hb⟩⟩
  · exact ⟨hpos, ha.later hl1⟩
  · exact ⟨hpos, hb.formed trap_contained hone⟩

theorem operand_formed : Keeps w (a.operand f) fun b m => 0 < b.stateCount ∧ b.Formed m := by
  unfold operand
  split_ifs
  · exact withSink_formed hw ha
  · apply Runs.bind (determinize_formed hw ha)
    intro b w1 hl1 hb
    exact (totalize_formed hl1.after hb).keeps

theorem classify_formed : Yields w a.classify fun b m => b.Formed m := by
  cases hflag : a.determinism with
  | unknown =>
    obtain ⟨g, h, hg⟩ := ha
    apply (h.classify_yields hw hg.toBounded (honest_of_unknown hflag)).imp
    rintro _ w1 hl1 ⟨d, rfl, -⟩
    exact Formed.flagged ⟨g, h.later hl1, hg⟩ d
  | complete =>
    unfold classify
    rw [hflag]
    exact Runs.pure hw ha
  | other =>
    unfold classify
    rw [hflag]
    exact Runs.pure hw ha

end Operand

section Operands

variable (hw : w.current.WellFormed) (ha : a.Formed w.current) (hb : b.Formed w.current)

include hw ha hb

theorem pairs_formed (hpos : 0 < b.stateCount) :
    Keeps w (a.pairs b f) fun c m => c.Formed m := by
  obtain ⟨g₁, h₁, hg₁⟩ := ha
  obtain ⟨g₂, h₂, hg₂⟩ := hb
  apply (pairs_yieldsIff hw h₁ h₂ hg₂ hpos).mono fun _ => trivial
  rintro c w1 - ⟨-, -, vs, -, -, hlen, hc⟩
  exact ⟨_, hc, hlen ▸ renumber_contained _ vs⟩

theorem combine_formed : Keeps w (a.combine b f) fun c m => c.Formed m := by
  rw [combine_eq]
  apply Runs.check_keeps hw
  intro _
  apply Runs.bind (operand_formed hw ha)
  rintro a' w1 hl1 ⟨-, ha'⟩
  apply Runs.bind (operand_formed hl1.after (hb.later hl1))
  rintro b' w2 hl2 ⟨hpos, hb'⟩
  exact pairs_formed hl2.after (ha'.later hl2) hb' hpos

theorem concat_formed : Keeps w (a.concat b) fun c m => c.Formed m := by
  by_cases hzero : a.stateCount = 0 ∨ b.stateCount = 0
  · unfold concat
    rw [if_pos hzero]
    exact (ofCount_formed hw (by decide)).keeps
  obtain ⟨g₁, h₁, hg₁⟩ := ha
  obtain ⟨g₂, h₂, hg₂⟩ := hb
  by_cases hbits : max a.width b.width + 1 ≤ 32
  · by_cases hcount : 2 ^ max a.width b.width + b.stateCount < 2 ^ 32
    · apply (concat_shows hw h₁ h₂ hg₁ hg₂ (by omega) (by omega) rfl hbits hcount).keeps.imp
      rintro c w1 - ⟨-, vs, -, -, hn, hc⟩
      exact formed_of_renumber hn hc
    · unfold concat
      rw [if_neg hzero]
      simp only [Nat.add_sub_cancel]
      rw [if_neg (by change ¬ 32 < max a.width b.width + 1; omega)]
      apply Runs.bind (colored_keeps hw h₁.toOver.belongs)
      intro r1 w1 hl1 _
      have hb1 := (h₂.later hl1).toOver.belongs
      apply Runs.bind (Runs.within hb1.home (colored_keeps hl1.after hb1))
      intro r2 w2 hl2 _
      rw [if_pos (by change 2 ^ 32 ≤ 2 ^ max a.width b.width + b.stateCount; omega)]
      exact Runs.throw_keeps hl2.after
  · unfold concat
    rw [if_neg hzero]
    simp only []
    rw [if_pos (by change 32 < max a.width b.width + 1; omega)]
    exact Runs.throw_keeps hw

end Operands

theorem negate_formed (hw : w.current.WellFormed) (ha : a.Formed w.current) :
    Keeps w a.negate fun b m => b.Formed m := by
  apply Runs.bind (classify_formed hw ha).keeps
  intro b w1 hl1 hb
  split_ifs
  · obtain ⟨g, h, hg⟩ := hb
    apply Runs.bind (ValueSet.sdiff_yields h.states.2 h.accepting.2
      (h.states.1.trans h.accepting.1.symm) hl1.after).keeps
    rintro s w2 hl2 ⟨hsd, hs⟩
    have h2 := h.later hl2
    let others : NFA Nat Nat :=
      { g with accept := {p | p < b.stateCount ∧ p ∉ g.accept} }
    refine Runs.pure hl2.after ⟨others, ⟨⟨h2.home, h2.states, h2.starting, ?_, h2.edges⟩, h2.few⟩,
      ⟨hg.start, hg.source, hg.target⟩, fun p hp => hp.1⟩
    exact ⟨hsd.trans h.states.1, hs⟩
  · apply Runs.bind (universal_formed hl1.after).keeps
    intro u w2 hl2 hu
    exact combine_formed hl2.after hu (hb.later hl2)

end SymbolicNfa

section Arguments

theorem Domain.safe_of_ends {d e : Domain} (hd : d.base + d.len ≤ 2 ^ 31)
    (he : e.base + e.len ≤ 2 ^ 31) : d.Safe e := ⟨fun _ => by omega, fun _ => by omega⟩

def ValueSet.Fair (s : ValueSet) (m : Manager) : Prop :=
  (∃ P, s.Shows m P) ∧ s.domain.base + s.domain.len ≤ 2 ^ 31

theorem ValueSet.Fair.later {s : ValueSet} (h : s.Fair w.current) (hl : w.Leads w') :
    s.Fair w'.current := by
  obtain ⟨⟨P, hP⟩, hend⟩ := h
  exact ⟨⟨P, hP.later hl⟩, hend⟩

/-- A set of numbers below `n`, over variables that a literal can name. -/
def ValueSet.Among (s : ValueSet) (m : Manager) (n : Nat) : Prop :=
  (∃ P, s.Shows m P ∧ ∀ v < 2 ^ s.domain.len, P v → v < n) ∧
    s.domain.base + s.domain.len ≤ 2 ^ 31

/-- Edges between numbers below `n`. The staging blocks of a move fit above the domains. -/
structure Relation.Among (r : Relation) (m : Manager) (n : Nat) : Prop where
  domains : ∃ d e, r.domains = [d, alphabet, e] ∧ d.len ≤ 64 ∧ e.len ≤ 64
  ends : EndBy (2 ^ 30) r.domains
  shown : ∃ g, r.Shows m (Edges g) ∧ Bounded g n

/-- The automaton that is encoded, or seen from the other side, is well-formed. -/
def Automaton.Formed : Automaton → Manager → Prop
  | symbolic a, m => a.Formed m
  | matrix a, m => a.WellFormed m
  | relational a, m => a.Formed m
  | reversed a, m => a.Formed m

end Arguments

namespace Automaton

theorem Answers.keeps {a : Automaton} (h : a.Answers False w g n) : a.Answers True w g n where
  count := h.count.keeps
  states := h.states.keeps
  ends dir := (h.ends dir).keeps
  edges := h.edges.keeps

/-- A reversed view answers everything but the question for its edges. -/
theorem Answers.reversed {a : Automaton} (h : a.Answers True w g n) (hw : w.current.WellFormed) :
    (reversed a).Answers True w g.reverse n where
  count := h.count
  states := h.states
  ends dir := by
    rw [endsOf_reverse]
    exact h.ends dir.flip
  edges := Runs.throw hw trivial

theorem Formed.answers {a : Automaton} (h : a.Formed w.current) : ∃ g n, Contained g n ∧
    n < 2 ^ 32 ∧ ∀ w', w.Leads w' → a.Answers True w' g n := by
  induction a with
  | symbolic a =>
    obtain ⟨g, hg, hn⟩ := h
    exact ⟨g, _, hn, hg.few, fun w' hl => (answers_symbolic (hg.later hl) hl.after).keeps⟩
  | matrix a =>
    obtain ⟨g, hg, hn⟩ := h
    exact ⟨g, _, hn, hg.few, fun w' hl => (answers_matrix (hg.later hl) hn hl.after).keeps⟩
  | relational a =>
    obtain ⟨g, hg, hn⟩ := h
    exact ⟨g, _, hn, hg.few, fun w' hl => (answers_relational (hg.later hl) hl.after).keeps⟩
  | reversed a ih =>
    obtain ⟨g, n, hg, hn, ha⟩ := ih h
    exact ⟨g.reverse, n, hg.reverse, hn, fun w' hl => (ha w' hl).reversed hl.after⟩

end Automaton

namespace SymbolicNfa

variable {a b : SymbolicNfa} {s t : ValueSet}

theorem ofAutomaton_formed {a : Automaton} (hw : w.current.WellFormed) (ha : a.Formed w.current) :
    Keeps w (ofAutomaton a) fun b m => b.Formed m := by
  obtain ⟨g, n, hg, hn, hanswers⟩ := ha.answers
  apply (ofAutomaton_runs hw hg hn hanswers).imp
  rintro b w1 - ⟨hcount, -, hb⟩
  exact hb.formed hg hcount

theorem among_states_keeps (hw : w.current.WellFormed) (h : a.Shows w.current g)
    (hs : s.Fair w.current) :
    Keeps w (do (← s.inter a.states).withDomain (sourceBlock a.width)) fun r m =>
      r.domain = sourceBlock a.width ∧ ∃ P, r.Shows m P ∧ ∀ v, P v → v < a.stateCount := by
  obtain ⟨⟨P, hP⟩, hend⟩ := hs
  have hk := h.width_le
  have hlen : a.states.domain.len = a.width := by rw [h.states.1]; rfl
  apply Runs.bind (hP.inter_keeps h.states.2 hw fun _ => by omega)
  rintro u w1 hl1 ⟨hud, hu⟩
  have hsafe : u.domain.Safe (sourceBlock a.width) := by
    rw [hud, hlen]
    refine ⟨fun hlt => ?_, fun hlt => ?_⟩
    · change a.width < max s.domain.len a.width at hlt
      change s.domain.base + a.width ≤ 2 ^ 31
      omega
    · change max s.domain.len a.width < a.width at hlt
      omega
  apply (hu.withDomain_keeps hl1.after hsafe).imp
  rintro r w2 - ⟨hrd, hr⟩
  exact ⟨hrd, _, hr, fun v hv => hv.2.2.2⟩

theorem lt_of_checkState {q : Nat} (h : a.checkState q = .ok ()) : q < a.stateCount := by
  by_contra hq
  simp [checkState, hq] at h

theorem addTransitions_yields {r : Relation} {g' : NFA Nat Nat} {d e : Domain}
    (hw : w.current.WellFormed) (h : a.Shows w.current g) (hdom : r.domains = [d, alphabet, e])
    (hr : r.Shows w.current (Edges g')) (hd : d.len ≤ a.width + 64) (he : e.len ≤ a.width + 64)
    (hends : EndBy (2 ^ 30) r.domains)
    (hsource : ∀ p c q, q ∈ g'.step p c → p < 2 ^ d.len ∧ p < 2 ^ a.width)
    (htarget : ∀ p c q, q ∈ g'.step p c → q < 2 ^ e.len ∧ q < 2 ^ a.width) :
    Yields w (a.addTransitions r) fun b m => b.stateCount = a.stateCount ∧
      b.starting = a.starting ∧ b.accepting = a.accepting ∧
      b.Shows m (join g g' g.start g.accept) := by
  have hk := h.width_le
  have harity : r.arity = 3 := by simp [Relation.arity, hdom]
  unfold addTransitions
  rw [if_neg (not_not_intro harity)]
  apply Runs.lift_bind (transitions_eq hk)
  apply Runs.bind (Runs.within hr.home (moveTriples_yields hw hdom hr hd he hk hk (by decide) hends
    (edgeBlocks_apart hk) ((edgeBlocks_ends hk).mono (by decide)) hsource htarget))
  intro moved w1 hl1 hmoved
  have h1 := h.later hl1
  apply Runs.bind (union_edges_yields (S := g.start) (T := g.accept) hl1.after h1.edges hmoved)
  intro edges w2 hl2 hedges
  have h2 := h1.later hl2
  exact Runs.pure hl2.after ⟨rfl, rfl, rfl,
    ⟨⟨h2.home, h2.states, h2.starting, h2.accepting, hedges⟩, h2.few⟩⟩

section Arguments

variable (hw : w.current.WellFormed) (ha : a.Formed w.current)

include hw ha

theorem withStartingAccepting_formed (hs : s.Fair w.current) (ht : t.Fair w.current) :
    Keeps w (a.withStartingAccepting s t) fun b m => b.Formed m := by
  obtain ⟨g, h, hg⟩ := ha
  have hlift : (liftM a.stateDomain : BddM Domain) = pure (sourceBlock a.width) := by
    rw [h.stateDomain]
    rfl
  suffices hrest : Keeps w ((do
      (← s.inter a.states).withDomain (sourceBlock a.width)) >>= fun starting => (do
      (← t.inter a.states).withDomain (sourceBlock a.width)) >>= fun accepting =>
      pure { a with starting := starting, accepting := accepting, determinism := .unknown })
      fun b m => b.Formed m by
    simpa only [withStartingAccepting, hlift, pure_bind, bind_assoc] using hrest
  apply Runs.bind (among_states_keeps hw h hs)
  rintro starting w1 hl1 ⟨hsd, P, hP, hPn⟩
  have h1 := h.later hl1
  apply Runs.bind (among_states_keeps hl1.after h1 (ht.later hl1))
  rintro accepting w2 hl2 ⟨htd, Q, hQ, hQn⟩
  have h2 := h1.later hl2
  refine Runs.pure hl2.after ⟨{ g with start := {p | P p}, accept := {p | Q p} },
    ⟨⟨h2.home, h2.states, ⟨hsd, hP.later hl2⟩, ⟨htd, hQ⟩, h2.edges⟩, h2.few⟩,
    ⟨hPn, hg.source, hg.target⟩, hQn⟩

theorem addEdgeSets_formed {on : SymbolSet} {L : Nat → Prop} (hs : s.Among w.current a.stateCount)
    (hon : on.Shows w.current L) (ht : t.Among w.current a.stateCount) :
    Keeps w (a.addEdgeSets s on t) fun b m => b.stateCount = a.stateCount ∧ b.Formed m := by
  obtain ⟨g, h, hg⟩ := ha
  obtain ⟨⟨P, hP, hPn⟩, hsend⟩ := hs
  obtain ⟨⟨Q, hQ, hQn⟩, htend⟩ := ht
  have hk := h.width_le
  apply (addEdgeSets_runs h
    (Runs.within hP.home (hP.withDomain_keeps hw (Domain.safe_of_ends hsend (source_end hk))))
    (fun w1 hl1 => Runs.within (hQ.later hl1).home ((hQ.later hl1).withDomain_keeps hl1.after
      (Domain.safe_of_ends htend (dest_end hk)))) hon.denotes).imp
  rintro b w1 - ⟨hcount, -, hb⟩
  exact ⟨hcount, hb.formed (hg.connect (fun p hp => hPn p hp.1 hp.2) fun q hq =>
    hQn q hq.1 hq.2) hcount⟩

theorem addTransitions_formed {r : Relation} (hr : r.Among w.current a.stateCount) :
    Keeps w (a.addTransitions r) fun b m => b.stateCount = a.stateCount ∧ b.Formed m := by
  obtain ⟨g, h, hg⟩ := ha
  obtain ⟨⟨d, e, hdom, hd, he⟩, hends, g', hr, hg'⟩ := hr
  have hn := a.count_le_two_pow_width
  let g₂ : NFA Nat Nat :=
    { g' with step := fun p c => {q | q ∈ g'.step p c ∧ p < 2 ^ d.len ∧ q < 2 ^ e.len} }
  have hr₂ : r.Shows w.current (Edges g₂) := by
    refine hr.congr fun ts hts => ?_
    rw [hdom] at hts
    constructor
    · rintro ⟨p, c, q, rfl, hq⟩
      obtain ⟨hp, hts⟩ := List.forall₂_cons.1 hts
      obtain ⟨hq', -⟩ := List.forall₂_cons.1 (List.forall₂_cons.1 hts).2
      exact ⟨p, c, q, rfl, hq, hp, hq'⟩
    · rintro ⟨p, c, q, rfl, hq, -, -⟩
      exact ⟨p, c, q, rfl, hq⟩
  apply (addTransitions_yields hw h hdom hr₂ (by omega) (by omega) hends
    (fun p c q hq => ⟨hq.2.1, Nat.lt_of_lt_of_le (hg'.source p c q hq.1) hn⟩)
    fun p c q hq => ⟨hq.2.2, Nat.lt_of_lt_of_le (hg'.target p c q hq.1) hn⟩).keeps.imp
  rintro b w1 - ⟨hcount, -, -, hb⟩
  have hg₂ : Bounded g₂ a.stateCount :=
    ⟨hg'.start, fun p c q hq => hg'.source p c q hq.1, fun p c q hq => hg'.target p c q hq.1⟩
  exact ⟨hcount, hb.formed ⟨join_bounded hg.toBounded hg₂ hg.start, hg.accept⟩ hcount⟩

theorem addEdge_formed {on : SymbolSet} {L : Nat → Prop} {p q : Nat}
    (hon : on.Shows w.current L) :
    Keeps w (a.addEdge p on q) fun b m => b.stateCount = a.stateCount ∧ b.Formed m := by
  obtain ⟨g, h, hg⟩ := ha
  by_cases hpq : p < a.stateCount ∧ q < a.stateCount
  · apply (addEdge_yields hw h hon.denotes hpq.1 hpq.2).keeps.imp
    rintro b w1 - ⟨hcount, -, hb⟩
    exact ⟨hcount, hb.formed (hg.connect (fun _ h => h ▸ hpq.1) fun _ h => h ▸ hpq.2) hcount⟩
  · apply Runs.lift_keeps hw
    intro _ hp
    apply Runs.lift_keeps hw
    intro _ hq
    exact absurd ⟨lt_of_checkState hp, lt_of_checkState hq⟩ hpq

end Arguments

end SymbolicNfa

namespace Construction

variable {c : Construction} {b : SymbolicNfa}

/-- The arguments are what they say they are. State counts are 32-bit words, sets and relations
hold numbers over variables that a literal can name, and edges are added between states only. -/
def Fair (m : Manager) : Construction → Prop
  | ofCount n | increase _ n _ _ => n < 2 ^ 32
  | ofSymbols on | addEdge _ _ on _ => ∃ L, on.Shows m L
  | ofAutomaton a => a.Formed m
  | addEdgeSets a s on t => s.Among m a.stateCount ∧ (∃ L, on.Shows m L) ∧ t.Among m a.stateCount
  | addTransitions a r => r.Among m a.stateCount
  | withStartingAccepting _ s t => s.Fair m ∧ t.Fair m
  | filter _ s => ∃ P, s.Shows m P
  | _ => True

/-- Every operation keeps automata well-formed, whatever their sizes. -/
theorem formed_keeps (hw : w.current.WellFormed) (hoperands : ∀ a ∈ c.operands, a.Formed w.current)
    (hfair : c.Fair w.current) : Keeps w c.run fun b m => b.Formed m := by
  cases c with
  | ofCount n => exact (SymbolicNfa.ofCount_formed hw hfair).keeps
  | universal => exact (SymbolicNfa.universal_formed hw).keeps
  | epsilon =>
    apply Runs.bind (SymbolicNfa.ofCount_formed hw (by decide)).keeps
    intro a w1 hl1 ha
    apply Runs.bind (SymbolicNfa.addState_formed hl1.after ha)
    intro r w2 hl2 hr
    exact Runs.pure hl2.after hr.2
  | ofSymbols on =>
    obtain ⟨L, hon⟩ := hfair
    apply (SymbolicNfa.ofSymbols_yields hw hon.denotes).keeps.imp
    rintro b w1 - ⟨hcount, -, hb⟩
    exact hb.formed (SymbolicNfa.oneLetter_contained L) hcount
  | ofAutomaton a => exact SymbolicNfa.ofAutomaton_formed hw hfair
  | addState a accepting starting =>
    apply Runs.bind (SymbolicNfa.addState_formed hw (hoperands a (.head _)))
    intro r w1 hl1 hr
    exact Runs.pure hl1.after hr.2
  | increase a n accepting starting =>
    exact (SymbolicNfa.increase_formed hw (hoperands a (.head _)) hfair).keeps
  | addEdge a p on q =>
    obtain ⟨L, hon⟩ := hfair
    exact (SymbolicNfa.addEdge_formed hw (hoperands a (.head _)) hon).imp fun _ _ _ hb => hb.2
  | addEdgeSets a s on t =>
    obtain ⟨hs, ⟨L, hon⟩, ht⟩ := hfair
    exact (SymbolicNfa.addEdgeSets_formed hw (hoperands a (.head _)) hs hon ht).imp
      fun _ _ _ hb => hb.2
  | addTransitions a r =>
    exact (SymbolicNfa.addTransitions_formed hw (hoperands a (.head _)) hfair).imp
      fun _ _ _ hb => hb.2
  | withStartingAccepting a s t =>
    exact SymbolicNfa.withStartingAccepting_formed hw (hoperands a (.head _)) hfair.1 hfair.2
  | project a bits => exact SymbolicNfa.project_formed hw (hoperands a (.head _))
  | rename a names => exact SymbolicNfa.rename_formed hw (hoperands a (.head _))
  | filter a s =>
    obtain ⟨P, hs⟩ := hfair
    exact SymbolicNfa.filter_formed hw (hoperands a (.head _)) hs
  | filterReachable a => exact SymbolicNfa.filterReachable_formed hw (hoperands a (.head _))
  | filterProductive a => exact SymbolicNfa.filterProductive_formed hw (hoperands a (.head _))
  | filterLive a => exact SymbolicNfa.filterLive_formed hw (hoperands a (.head _))
  | star a => exact SymbolicNfa.star_formed hw (hoperands a (.head _))
  | concat a b =>
    exact SymbolicNfa.concat_formed hw (hoperands a (.head _)) (hoperands b (.tail _ (.head _)))
  | reverse a => exact (SymbolicNfa.reverse_formed hw (hoperands a (.head _))).keeps
  | negate a => exact SymbolicNfa.negate_formed hw (hoperands a (.head _))
  | combine a b f =>
    exact SymbolicNfa.combine_formed hw (hoperands a (.head _)) (hoperands b (.tail _ (.head _)))
  | minimize a => exact (SymbolicNfa.minimize_formed hw (hoperands a (.head _))).keeps
  | determinize a => exact SymbolicNfa.determinize_formed hw (hoperands a (.head _))
  | classify a => exact (SymbolicNfa.classify_formed hw (hoperands a (.head _))).keeps

/-- What an operation returns for well-formed automata is a well-formed automaton. -/
theorem formed_of_returns (hw : w.current.WellFormed)
    (hoperands : ∀ a ∈ c.operands, a.Formed w.current) (hfair : c.Fair w.current)
    (hrun : c.run w = .ok b w') : b.Formed w'.current :=
  ((formed_keeps hw hoperands hfair).of_ok hrun).2

theorem formed_of_returns_star : ∃ m a w b w', Manager.new 0 1 1 = .ok m ∧
    SymbolicNfa.ofSymbols (.universal 0) ⟨m, []⟩ = .ok a w ∧ (star a).run w = .ok b w' ∧
    b.Formed w'.current := by
  obtain ⟨m, hm⟩ : ∃ m, Manager.new 0 1 1 = .ok m := ⟨_, rfl⟩
  obtain ⟨a, w, ha, hl, hcount, hshows, hcontained, hwell⟩ := SymbolicNfa.ofSymbols_wellFormed hm
  obtain ⟨b, w', hb, -⟩ := yields_iff.1
    (SymbolicNfa.star_shows hl.after hshows hcontained (by omega))
  have hformed : ∀ x ∈ (star a).operands, x.Formed w.current := by
    intro x hx
    obtain rfl := List.mem_singleton.1 hx
    exact hwell.formed
  exact ⟨m, a, w, b, w', hm, ha, hb, formed_of_returns hl.after hformed trivial hb⟩

end Construction

namespace SymbolicNfa

variable {a : SymbolicNfa}

theorem Formed.size_starting (h : a.Formed m) (hm : m.WellFormed) :
    ∃ vs, a.starting.toList m = .ok vs ∧ a.starting.size m = .ok vs.length := by
  obtain ⟨g, hg, -⟩ := h
  obtain ⟨vs, hvs, hsize, -⟩ := size_yields (w := ⟨m, []⟩) hm hg.starting hg.width_le
  exact ⟨vs, hvs, hsize⟩

def farSet (id : Nat) : ValueSet := ⟨id, ⟨2147483658, 5, by decide⟩, .one⟩

/-- The set of low variables is needed: what is moved from such variables depends on others than
those of its new domain, so it is listed and not counted. -/
theorem not_formed_of_farSet : ∃ m a w b w', Manager.new 0 1 1 = .ok m ∧
    ofCount 3 ⟨m, []⟩ = .ok a w ∧ a.Formed w.current ∧
    (farSet m.id).Shows w.current (fun _ => True) ∧
    a.withStartingAccepting (farSet m.id) (farSet m.id) w = .ok b w' ∧
    b.starting.toList w'.current = .ok [0, 1, 2] ∧ b.starting.size w'.current = .ok 0 ∧
    ¬ b.Formed w'.current := by
  have hcheck : ∃ m, Manager.new 0 1 1 = .ok m ∧ ∃ a w, ofCount 3 ⟨m, []⟩ = .ok a w ∧
      ∃ b w', a.withStartingAccepting (farSet m.id) (farSet m.id) w = .ok b w' ∧
        b.starting.toList w'.current = .ok [0, 1, 2] ∧
        b.starting.size w'.current = .ok 0 := by decide +kernel
  obtain ⟨m, hm, a, w, ha, b, w', hb, hlist, hsize⟩ := hcheck
  obtain ⟨hl, -, -, hshows⟩ :=
    (ofCount_yields (wellFormed_new hm) (by decide : 3 < 2 ^ 32)).of_ok ha
  have hfar : (farSet m.id).Shows w.current fun _ => True :=
    ⟨hl.grows.id.symm, universal_denotes hl.after.canonical m.id⟩
  have hbelongs : (farSet m.id).Belongs w.current := ⟨hfar.home, hfar.denotes.has⟩
  have hkeeps := withStartingAccepting_keeps hl.after hshows.toOver.belongs hbelongs hbelongs
  refine ⟨m, a, w, b, w', hm, ha, ⟨bare, hshows, bare_contained _⟩, hfar, hb, hlist, hsize, ?_⟩
  intro hformed
  obtain ⟨vs, hvs, hvs'⟩ := hformed.size_starting (hkeeps.of_ok hb).1.after
  rw [hlist] at hvs
  rw [hsize] at hvs'
  cases hvs
  cases hvs'

end SymbolicNfa

end SymbolicAutomata
