import SymbolicAutomata.Language
import SymbolicAutomata.Proofs.Compositions
import SymbolicAutomata.Proofs.Staging
import Mathlib.Computability.NFA
/-!
# Symbolic automata as automata

A symbolic automaton shows a nondeterministic automaton whose letters are the numbers that the
alphabet block can carry. Its words and runs are those of the automaton it shows.
-/
namespace SymbolicAutomata

open Manager Bdd

namespace Layout

variable {k : Nat}

def sourceBlock (k : Nat) : Domain := ⟨sourceBase, k, Nat.one_ne_zero⟩

def destBlock (k : Nat) : Domain := ⟨destBase, k, by decide⟩

/-- The positions of an edge between state numbers of `k` bits. -/
def edgeBlocks (k : Nat) : List Domain := [sourceBlock k, alphabet, destBlock k]

theorem states_eq (hk : k ≤ 32) : states k = .ok (sourceBlock k) := if_pos hk

theorem dests_eq (hk : k ≤ 32) : dests k = .ok (destBlock k) := by
  rw [dests, states_eq hk]
  rfl

theorem transitions_eq (hk : k ≤ 32) : transitions k = .ok (edgeBlocks k) := by
  rw [transitions, states_eq hk, dests_eq hk]
  rfl

theorem source_apart_dest {j : Nat} (hk : k ≤ 32) : (sourceBlock k).Apart (destBlock j) :=
  Domain.apart_of_le (by
    change 1 + k ≤ 65
    omega)

theorem source_apart_alphabet (hk : k ≤ 32) : (sourceBlock k).Apart alphabet :=
  Domain.apart_of_le (by
    change 1 + k ≤ 97
    omega)

theorem dest_apart_alphabet (hk : k ≤ 32) : (destBlock k).Apart alphabet :=
  Domain.apart_of_le (by
    change 65 + k ≤ 97
    omega)

theorem edgeBlocks_apart (hk : k ≤ 32) : (edgeBlocks k).Pairwise Domain.Apart := by
  simp only [edgeBlocks, List.pairwise_cons, List.mem_cons, List.not_mem_nil, or_false,
    forall_eq_or_imp, forall_eq, IsEmpty.forall_iff, implies_true, List.Pairwise.nil, and_true]
  exact ⟨⟨source_apart_alphabet hk, source_apart_dest hk⟩, (dest_apart_alphabet hk).symm⟩

/-- All blocks that hold edges or power-states start below this variable. -/
def edgeEnd : Nat := Nat.pow 2 17

theorem alphabet_end : alphabet.base + alphabet.len ≤ edgeEnd := by decide

theorem edgeBlocks_ends (hk : k ≤ 32) : EndBy edgeEnd (edgeBlocks k) := by
  have hend : (97 : Nat) ≤ edgeEnd := by decide
  intro d hd
  simp only [edgeBlocks, List.mem_cons, List.not_mem_nil, or_false] at hd
  rcases hd with rfl | rfl | rfl
  · change 1 + k ≤ _
    omega
  · exact alphabet_end
  · change 65 + k ≤ _
    omega

theorem edgeEnd_le : edgeEnd ≤ 2 ^ 31 - 64 := by decide

/-- State numbers can be moved between blocks that are wide enough. -/
theorem fits_of_small {d e : Domain} {P : Nat → Prop} (hd : d.len ≤ 32) (he : e.len ≤ 32)
    (hdb : d.base ≤ edgeEnd) (heb : e.base ≤ edgeEnd)
    (hP : ∀ v, P v → v < 2 ^ d.len ∧ v < 2 ^ e.len) : d.Fits e P := by
  have hend := edgeEnd_le
  exact ⟨by omega, by omega, by omega, by omega, hP⟩

theorem sourceBlock_base_le : (sourceBlock k).base ≤ edgeEnd := by change 1 ≤ _; decide

theorem destBlock_base_le : (destBlock k).base ≤ edgeEnd := by change 65 ≤ _; decide

end Layout

open Layout

/-- The number that the alphabet block carries for a letter. -/
def Letter.code (x : Letter) : Nat := alphabet.read fun v => x (v - alphabetBase)

def letterCount : Nat := 2 ^ alphabet.len

theorem letterCount_pos : 0 < letterCount := Nat.two_pow_pos _

theorem Letter.code_lt (x : Letter) : x.code < letterCount := alphabet.read_lt _

theorem Letter.exists_code {c : Nat} (hc : c < letterCount) : ∃ x : Letter, x.code = c := by
  refine ⟨c.testBit, (Domain.read_eq_iff (d := alphabet) hc).2 fun i _ => ?_⟩
  change c.testBit (alphabetBase + i - alphabetBase) = _
  rw [Nat.add_sub_cancel_left]

def Word.codes (u : Word) : List Nat := u.map Letter.code

theorem reads_edgeAssignment {k p q : Nat} {x : Letter} (hk : k ≤ 32) (hp : p < 2 ^ k)
    (hq : q < 2 ^ k) :
    Domain.reads (edgeBlocks k) (edgeAssignment p x q) = [p, x.code, q] := by
  have hsource : (sourceBlock k).read (edgeAssignment p x q) = p := by
    refine (Domain.read_eq_iff (d := sourceBlock k) hp).2 fun i hi => ?_
    change i < k at hi
    change edgeAssignment p x q (1 + i) = p.testBit i
    have h1 : ¬ 97 ≤ 1 + i := by omega
    have h2 : ¬ 65 ≤ 1 + i := by omega
    have h3 : ¬ 33 ≤ 1 + i := by omega
    change (if 97 ≤ 1 + i then _ else if 65 ≤ 1 + i then _ else if 33 ≤ 1 + i then false else
      p.testBit (1 + i - 1)) = _
    rw [if_neg h1, if_neg h2, if_neg h3, Nat.add_sub_cancel_left]
  have hdest : (destBlock k).read (edgeAssignment p x q) = q := by
    refine (Domain.read_eq_iff (d := destBlock k) hq).2 fun i hi => ?_
    change i < k at hi
    have h1 : ¬ 97 ≤ 65 + i := by omega
    have h2 : 65 ≤ 65 + i := by omega
    change (if 97 ≤ 65 + i then _ else if 65 ≤ 65 + i then q.testBit (65 + i - 65) else _) = _
    rw [if_neg h1, if_pos h2, Nat.add_sub_cancel_left]
  have halphabet : alphabet.read (edgeAssignment p x q) = x.code :=
    Domain.read_congr fun v hv _ => if_pos hv
  simp only [Domain.reads, edgeBlocks, List.map_cons, List.map_nil, hsource, hdest, halphabet]

theorem forall₂_triple {d e : Domain} {ts : List Nat} :
    List.Forall₂ (fun v d => v < 2 ^ d.len) ts [d, alphabet, e] ↔
      ∃ p c q, ts = [p, c, q] ∧ p < 2 ^ d.len ∧ c < letterCount ∧ q < 2 ^ e.len := by
  constructor
  · intro h
    obtain ⟨p, rest, hp, hrest, rfl⟩ := List.forall₂_cons_right_iff.1 h
    obtain ⟨c, rest', hc, hrest', rfl⟩ := List.forall₂_cons_right_iff.1 hrest
    obtain ⟨q, rest'', hq, hnil, rfl⟩ := List.forall₂_cons_right_iff.1 hrest'
    obtain rfl := List.forall₂_nil_right_iff.1 hnil
    exact ⟨p, c, q, rfl, hp, hc, hq⟩
  · rintro ⟨p, c, q, rfl, hp, hc, hq⟩
    exact .cons hp (.cons hc (.cons hq .nil))

theorem forall₂_edgeBlocks {k : Nat} {ts : List Nat} :
    List.Forall₂ (fun v d => v < 2 ^ d.len) ts (edgeBlocks k) ↔
      ∃ p c q, ts = [p, c, q] ∧ p < 2 ^ k ∧ c < letterCount ∧ q < 2 ^ k :=
  forall₂_triple

def Edges (g : NFA Nat Nat) (ts : List Nat) : Prop := ∃ p c q, ts = [p, c, q] ∧ q ∈ g.step p c

@[simp]
theorem edges_iff {g : NFA Nat Nat} {p c q : Nat} : Edges g [p, c, q] ↔ q ∈ g.step p c := by
  constructor
  · rintro ⟨_, _, _, heq, h⟩
    cases heq
    exact h
  · exact fun h => ⟨p, c, q, rfl, h⟩

/-- Walks stay among the numbers below `n`. -/
structure Bounded (g : NFA Nat Nat) (n : Nat) : Prop where
  start : ∀ p ∈ g.start, p < n
  source : ∀ p c q, q ∈ g.step p c → p < n
  target : ∀ p c q, q ∈ g.step p c → q < n

/-- All states are numbers below `n`. -/
structure Contained (g : NFA Nat Nat) (n : Nat) : Prop extends Bounded g n where
  accept : ∀ p ∈ g.accept, p < n

theorem Bounded.mono {g : NFA Nat Nat} {n k : Nat} (h : Bounded g n) (hnk : n ≤ k) :
    Bounded g k where
  start p hp := Nat.lt_of_lt_of_le (h.start p hp) hnk
  source p c q hq := Nat.lt_of_lt_of_le (h.source p c q hq) hnk
  target p c q hq := Nat.lt_of_lt_of_le (h.target p c q hq) hnk

theorem Contained.mono {g : NFA Nat Nat} {n k : Nat} (h : Contained g n) (hnk : n ≤ k) :
    Contained g k :=
  ⟨h.toBounded.mono hnk, fun p hp => Nat.lt_of_lt_of_le (h.accept p hp) hnk⟩

/-- The bits of the state numbers have room for all states. -/
theorem Contained.bounded {g : NFA Nat Nat} {n : Nat} (h : Contained g n) :
    Bounded g (2 ^ bitsNeeded n) :=
  h.toBounded.mono (le_two_pow_bitsNeeded n)

theorem Bounded.eval {g : NFA Nat Nat} {n : Nat} (h : Bounded g n) {S : Set Nat}
    (hS : ∀ p ∈ S, p < n) (cs : List Nat) : ∀ q ∈ g.evalFrom S cs, q < n := by
  induction cs generalizing S with
  | nil => exact hS
  | cons c cs ih =>
    refine ih fun q hq => ?_
    obtain ⟨p, -, hp⟩ := NFA.mem_stepSet.1 hq
    exact h.target p c q hp

/-- One starting state, and one successor of each state on each letter. -/
structure Deterministic (g : NFA Nat Nat) (n : Nat) : Prop where
  start : ∃! p, p ∈ g.start
  successor : ∀ p < n, ∀ c < letterCount, ∃! q, q ∈ g.step p c

namespace SymbolicNfa

/-- The sets and the edges of the symbolic automaton are those of an automaton, over state numbers
of `k` bits. -/
structure Over (a : SymbolicNfa) (m : Manager) (k : Nat) (g : NFA Nat Nat) : Prop where
  home : a.manager = m.id
  states : a.states.domain = sourceBlock k ∧ a.states.Shows m (· < a.stateCount)
  starting : a.starting.domain = sourceBlock k ∧ a.starting.Shows m (· ∈ g.start)
  accepting : a.accepting.domain = sourceBlock k ∧ a.accepting.Shows m (· ∈ g.accept)
  edges : a.edges.domains = edgeBlocks k ∧ a.edges.Shows m (Edges g)

/-- The state numbers have as many bits as the state count needs. -/
structure Shows (a : SymbolicNfa) (m : Manager) (g : NFA Nat Nat) : Prop
    extends Over a m a.width g where
  few : a.stateCount < 2 ^ 32

variable {w w' : Workspace} {a : SymbolicNfa} {m : Manager} {g : NFA Nat Nat} {k p q : Nat}
  {x : Letter} {u : Word}

theorem Over.later (h : a.Over w.current k g) (hl : w.Leads w') : a.Over w'.current k g where
  home := h.home.trans hl.grows.id.symm
  states := ⟨h.states.1, h.states.2.later hl⟩
  starting := ⟨h.starting.1, h.starting.2.later hl⟩
  accepting := ⟨h.accepting.1, h.accepting.2.later hl⟩
  edges := ⟨h.edges.1, h.edges.2.later hl⟩

theorem Shows.later (h : a.Shows w.current g) (hl : w.Leads w') : a.Shows w'.current g :=
  ⟨h.toOver.later hl, h.few⟩

/-- Nothing but the flag itself depends on the flag. -/
theorem Shows.flagged (h : a.Shows m g) (f : Determinism) :
    ({ a with determinism := f } : SymbolicNfa).Shows m g :=
  ⟨⟨h.home, h.states, h.starting, h.accepting, h.edges⟩, h.few⟩

theorem Shows.unique {b : SymbolicNfa} (h : a.Shows m g) (h' : b.Shows m g)
    (hcount : a.stateCount = b.stateCount) (hflag : a.determinism = b.determinism)
    (hm : m.Canonical) : a = b := by
  have hwidth : a.width = b.width := congrArg bitsNeeded hcount
  have hblock : sourceBlock a.width = sourceBlock b.width := by rw [hwidth]
  have hstates : a.states = b.states := by
    apply h.states.2.unique (hcount ▸ h'.states.2) _ hm
    rw [h.states.1, h'.states.1, hblock]
  have hstarting : a.starting = b.starting := by
    apply h.starting.2.unique h'.starting.2 _ hm
    rw [h.starting.1, h'.starting.1, hblock]
  have haccepting : a.accepting = b.accepting := by
    apply h.accepting.2.unique h'.accepting.2 _ hm
    rw [h.accepting.1, h'.accepting.1, hblock]
  have hedges : a.edges = b.edges := by
    apply h.edges.2.unique h'.edges.2 _ hm
    rw [h.edges.1, h'.edges.1, hwidth]
  have hmanager : a.manager = b.manager := h.home.trans h'.home.symm
  cases a
  cases b
  simp_all

theorem Shows.width_le (h : a.Shows m g) : a.width ≤ 32 :=
  bitsNeeded_le_iff.2 (Nat.le_of_lt h.few)

theorem count_le_two_pow_width (a : SymbolicNfa) : a.stateCount ≤ 2 ^ a.width :=
  le_two_pow_bitsNeeded _

theorem Shows.hasEdge_iff (h : a.Shows m g) (hm : m.Canonical) :
    a.HasEdge m p x q ↔ p < a.stateCount ∧ q < a.stateCount ∧ q ∈ g.step p x.code := by
  have hn := a.count_le_two_pow_width
  refine and_congr_right fun hp => and_congr_right fun hq => ?_
  rw [← hm.eval_eq_iff h.edges.2.denotes.has, h.edges.2.denotes.holds, h.edges.1,
    reads_edgeAssignment h.width_le (by omega) (by omega), edges_iff]

theorem Shows.hasEdge_code_iff (h : a.Shows m g) (hm : m.Canonical)
    (hb : Bounded g a.stateCount) : a.HasEdge m p x q ↔ q ∈ g.step p x.code := by
  rw [h.hasEdge_iff hm]
  exact ⟨fun hr => hr.2.2, fun hr => ⟨hb.source _ _ _ hr, hb.target _ _ _ hr, hr⟩⟩

theorem contains_sourceBlock_iff {s : ValueSet} {k v : Nat} {P : Nat → Prop}
    (h : s.domain = sourceBlock k ∧ s.Shows m P) (hm : m.Canonical) (hk : k ≤ 32) :
    s.contains v m = .ok true ↔ v < 2 ^ k ∧ P v := by
  obtain ⟨hd, hs⟩ := h
  have hlen : s.domain.len = k := by rw [hd]; rfl
  have hbase : s.domain.base = 1 := by rw [hd]; rfl
  rw [hs.contains_iff hm (by omega) (by omega), hlen]

theorem contains_sourceBlock_spec {s : ValueSet} {k v : Nat} {P : Nat → Prop}
    (h : s.domain = sourceBlock k ∧ s.Shows m P) (hm : m.Canonical) (hk : k ≤ 32)
    (hv : v < 2 ^ k) : ∃ r, s.contains v m = .ok r ∧ (r = true ↔ P v) := by
  obtain ⟨hd, hs⟩ := h
  have hlen : s.domain.len = k := by rw [hd]; rfl
  have hbase : s.domain.base = 1 := by rw [hd]; rfl
  exact hs.contains_of_lt hm (by omega) (by omega) (by rwa [hlen])

theorem Shows.starts_iff (h : a.Shows m g) (hm : m.Canonical) (hb : Bounded g a.stateCount) :
    a.starting.contains p m = .ok true ↔ p ∈ g.start := by
  rw [contains_sourceBlock_iff h.starting hm h.width_le]
  exact and_iff_right_of_imp fun hp => Nat.lt_of_lt_of_le (hb.start p hp) a.count_le_two_pow_width

theorem Shows.accepts_state_iff (h : a.Shows m g) (hm : m.Canonical) (hq : q < a.stateCount) :
    a.accepting.contains q m = .ok true ↔ q ∈ g.accept := by
  rw [contains_sourceBlock_iff h.accepting hm h.width_le]
  exact and_iff_right (Nat.lt_of_lt_of_le hq a.count_le_two_pow_width)

theorem Shows.run_iff (h : a.Shows m g) (hm : m.Canonical) (hb : Bounded g a.stateCount) :
    a.Run m p u q ↔ q ∈ g.evalFrom {p} u.codes := by
  induction u generalizing p with
  | nil =>
    rw [run_nil_iff]
    exact eq_comm
  | cons x u ih =>
    rw [run_cons_iff]
    change _ ↔ q ∈ g.evalFrom {p} (x.code :: Word.codes u)
    rw [NFA.evalFrom_cons, NFA.stepSet_singleton, NFA.mem_evalFrom_iff_exists]
    refine exists_congr fun r => ?_
    rw [h.hasEdge_code_iff hm hb, ih]

/-- A word is accepted if the automaton shown accepts the numbers of its letters. -/
theorem Shows.accepts_iff (h : a.Shows m g) (hm : m.Canonical) (hb : Bounded g a.stateCount) :
    a.Accepts m u ↔ u.codes ∈ g.accepts := by
  change _ ↔ ∃ q ∈ g.accept, q ∈ g.evalFrom g.start u.codes
  constructor
  · rintro ⟨p, q, hp, hrun, hq⟩
    rw [h.starts_iff hm hb] at hp
    rw [h.run_iff hm hb] at hrun
    have hlt : q < a.stateCount := hb.eval (by simpa using hb.start p hp) _ q hrun
    rw [h.accepts_state_iff hm hlt] at hq
    exact ⟨q, hq, NFA.mem_evalFrom_iff_exists.2 ⟨p, hp, hrun⟩⟩
  · rintro ⟨q, hq, hrun⟩
    obtain ⟨p, hp, hrun⟩ := NFA.mem_evalFrom_iff_exists.1 hrun
    have hlt : q < a.stateCount := hb.eval (by simpa using hb.start p hp) _ q hrun
    exact ⟨p, q, (h.starts_iff hm hb).2 hp, (h.run_iff hm hb).2 hrun,
      (h.accepts_state_iff hm hlt).2 hq⟩

/-- Exactly one starting state, and for every state and every letter exactly one successor. -/
structure IsDeterministic (a : SymbolicNfa) (m : Manager) : Prop where
  start : ∃! p, a.starting.contains p m = .ok true
  successor : ∀ p < a.stateCount, ∀ x : Letter, ∃! q, a.HasEdge m p x q

/-- Determinism is a matter of starting states and edges. -/
theorem isDeterministic_congr {b : SymbolicNfa} (hstarting : b.starting = a.starting)
    (hcount : b.stateCount = a.stateCount) (hedges : b.edges = a.edges) :
    b.IsDeterministic m ↔ a.IsDeterministic m := by
  have hedge : ∀ p x q, b.HasEdge m p x q ↔ a.HasEdge m p x q := by
    intro p x q
    rw [HasEdge, HasEdge, hcount, hedges]
  constructor
  · rintro ⟨hstart, hsucc⟩
    exact ⟨hstarting ▸ hstart, by simpa only [hcount, hedge] using hsucc⟩
  · rintro ⟨hstart, hsucc⟩
    exact ⟨hstarting.symm ▸ hstart, by simpa only [hcount, hedge] using hsucc⟩

theorem Shows.isDeterministic_iff (h : a.Shows m g) (hm : m.Canonical)
    (hb : Bounded g a.stateCount) : a.IsDeterministic m ↔ Deterministic g a.stateCount := by
  have hedge : ∀ p x q, a.HasEdge m p x q ↔ q ∈ g.step p x.code := fun p x q =>
    h.hasEdge_code_iff hm hb
  constructor
  · rintro ⟨hstart, hsucc⟩
    simp only [h.starts_iff hm hb] at hstart
    refine ⟨hstart, fun p hp c hc => ?_⟩
    obtain ⟨x, rfl⟩ := Letter.exists_code hc
    simpa only [hedge] using hsucc p hp x
  · rintro ⟨hstart, hsucc⟩
    refine ⟨by simpa only [h.starts_iff hm hb] using hstart, fun p hp x => ?_⟩
    simpa only [hedge] using hsucc p hp x.code x.code_lt

/-- What the flag says of determinism is so. -/
def Honest (a : SymbolicNfa) (m : Manager) : Prop :=
  match a.determinism with
  | .unknown => True
  | .complete => a.IsDeterministic m
  | .other => ¬ a.IsDeterministic m

theorem honest_of_unknown (h : a.determinism = .unknown) : a.Honest m := by
  unfold Honest
  rw [h]
  trivial

theorem Honest.of_complete (h : a.Honest m) (hflag : a.determinism = .complete) :
    a.IsDeterministic m := by
  unfold Honest at h
  rwa [hflag] at h

theorem Honest.of_other (h : a.Honest m) (hflag : a.determinism = .other) :
    ¬ a.IsDeterministic m := by
  unfold Honest at h
  rwa [hflag] at h

/-- A flag that says something says whether the automaton is deterministic. -/
theorem Honest.complete_iff (h : a.Honest m) (hknown : a.determinism ≠ .unknown) :
    a.determinism = .complete ↔ a.IsDeterministic m := by
  cases hflag : a.determinism with
  | unknown => exact absurd hflag hknown
  | complete => exact iff_of_true rfl (h.of_complete hflag)
  | other => exact iff_of_false nofun (h.of_other hflag)

theorem Honest.of_iff {b : SymbolicNfa} {m' : Manager} (h : a.Honest m)
    (hflag : b.determinism = a.determinism)
    (hdet : b.IsDeterministic m' ↔ a.IsDeterministic m) : b.Honest m' := by
  unfold Honest at h ⊢
  rw [hflag]
  cases hf : a.determinism with
  | unknown => trivial
  | complete =>
    rw [hf] at h
    exact hdet.2 h
  | other =>
    rw [hf] at h
    exact fun hb => h (hdet.1 hb)

/-- The states are `0, …, n - 1`, the starting and the accepting states are among them, every edge
joins two of them, and the flag says the truth. -/
structure WellFormed (a : SymbolicNfa) (m : Manager) : Prop where
  shown : ∃ g, a.Shows m g ∧ Contained g a.stateCount
  honest : a.Honest m

theorem Shows.isDeterministic_later (h : a.Shows w.current g) (hb : Bounded g a.stateCount)
    (hl : w.Leads w') : a.IsDeterministic w'.current ↔ a.IsDeterministic w.current := by
  rw [h.isDeterministic_iff hl.before.canonical hb,
    (h.later hl).isDeterministic_iff hl.after.canonical hb]

theorem Shows.honest_later (h : a.Shows w.current g) (hb : Bounded g a.stateCount)
    (hl : w.Leads w') (hhonest : a.Honest w.current) : a.Honest w'.current :=
  hhonest.of_iff rfl (h.isDeterministic_later hb hl)

theorem WellFormed.later (h : a.WellFormed w.current) (hl : w.Leads w') :
    a.WellFormed w'.current := by
  obtain ⟨g, hg, hb⟩ := h.shown
  exact ⟨⟨g, hg.later hl, hb⟩, hg.honest_later hb.toBounded hl h.honest⟩

end SymbolicNfa

end SymbolicAutomata
