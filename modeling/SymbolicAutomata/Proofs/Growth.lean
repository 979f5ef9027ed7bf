import SymbolicAutomata.Proofs.Automata
import SymbolicAutomata.Product
/-!
# Adding states and edges

Old state numbers keep their meaning when the domains grow, so an addition acts on the automaton
shown.
-/
namespace SymbolicAutomata

open Manager Bdd Layout

def bare : NFA Nat Nat := ⟨fun _ _ => ∅, ∅, ∅⟩

def enlarge (g : NFA Nat Nat) (lo hi : Nat) (accepting starting : Bool) : NFA Nat Nat where
  step := g.step
  start := {p | p ∈ g.start ∨ starting = true ∧ lo ≤ p ∧ p < hi}
  accept := {p | p ∈ g.accept ∨ accepting = true ∧ lo ≤ p ∧ p < hi}

/-- Edges added from the states of `P` on the letters of `L` to the states of `Q`. -/
def connect (g : NFA Nat Nat) (P L Q : Nat → Prop) : NFA Nat Nat where
  step p c := {q | q ∈ g.step p c ∨ P p ∧ L c ∧ Q q}
  start := g.start
  accept := g.accept

variable {g : NFA Nat Nat} {n k lo hi p c q : Nat} {P L Q : Nat → Prop}

theorem bare_contained (n : Nat) : Contained bare n :=
  ⟨⟨fun _ h => h.elim, fun _ _ _ h => h.elim, fun _ _ _ h => h.elim⟩, fun _ h => h.elim⟩

theorem Contained.enlarge {accepting starting : Bool} (h : Contained g lo) (hle : lo ≤ hi) :
    Contained (enlarge g lo hi accepting starting) hi where
  start p hp := by
    rcases hp with hp | ⟨-, -, hp⟩
    · exact Nat.lt_of_lt_of_le (h.start p hp) hle
    · exact hp
  source p c q hq := Nat.lt_of_lt_of_le (h.source p c q hq) hle
  target p c q hq := Nat.lt_of_lt_of_le (h.target p c q hq) hle
  accept p hp := by
    rcases hp with hp | ⟨-, -, hp⟩
    · exact Nat.lt_of_lt_of_le (h.accept p hp) hle
    · exact hp

theorem Contained.connect (h : Contained g n) (hP : ∀ p, P p → p < n) (hQ : ∀ q, Q q → q < n) :
    Contained (connect g P L Q) n where
  start := h.start
  source p c q hq := by
    rcases hq with hq | ⟨hp, -, -⟩
    · exact h.source p c q hq
    · exact hP p hp
  target p c q hq := by
    rcases hq with hq | ⟨-, -, hq⟩
    · exact h.target p c q hq
    · exact hQ q hq
  accept := h.accept

/-- Edges added between the listed pairs of states, on every letter. -/
def linked (g : NFA Nat Nat) (es : List (Nat × Nat)) : NFA Nat Nat :=
  { g with step := fun p c => {q | q ∈ g.step p c ∨ (p, q) ∈ es} }

/-- The automaton with the listed starting states, accepting states and edges. -/
def drawing (ss ts : List Nat) (es : List (Nat × Nat)) : NFA Nat Nat :=
  linked { bare with start := {p | p ∈ ss}, accept := {q | q ∈ ts} } es

@[simp]
theorem mem_drawing_step {ss ts : List Nat} {es : List (Nat × Nat)} :
    q ∈ (drawing ss ts es).step p c ↔ (p, q) ∈ es :=
  or_iff_right fun h => h.elim

theorem linked_nil (g : NFA Nat Nat) : linked g [] = g := by simp [linked]

theorem linked_cons (g : NFA Nat Nat) (e : Nat × Nat) (es : List (Nat × Nat)) :
    linked (connect g (· = e.1) (fun _ => True) (· = e.2)) es = linked g (e :: es) := by
  simp only [linked, connect, NFA.mk.injEq, and_true]
  funext p c
  ext q
  simp [or_assoc, Prod.ext_iff]

theorem drawing_contained {ss ts : List Nat} {es : List (Nat × Nat)} (hss : ∀ p ∈ ss, p < n)
    (hts : ∀ q ∈ ts, q < n) (hes : ∀ e ∈ es, e.1 < n ∧ e.2 < n) :
    Contained (drawing ss ts es) n where
  start := hss
  source p _ q hq := (hes (p, q) (mem_drawing_step.1 hq)).1
  target p _ q hq := (hes (p, q) (mem_drawing_step.1 hq)).2
  accept := hts

theorem drawing_deterministic {s : Nat} {f : Nat → Nat} {ts : List Nat} {es : List (Nat × Nat)}
    (hall : ∀ p < n, (p, f p) ∈ es) (honly : ∀ e ∈ es, e.2 = f e.1) :
    Deterministic (drawing [s] ts es) n := by
  refine ⟨⟨s, List.mem_singleton_self s, fun p hp => List.mem_singleton.1 hp⟩, fun p hp c _ => ?_⟩
  refine ⟨f p, mem_drawing_step.2 (hall p hp), fun q hq => ?_⟩
  exact honly (p, q) (mem_drawing_step.1 hq)

namespace ValueSet

theorem ofList_yields {w : Workspace} {d : Domain} {vs : List Nat} (hw : w.current.WellFormed)
    (hlen : d.len ≤ 64) (hend : d.base + d.len ≤ 2 ^ 31) (hvs : ∀ v ∈ vs, v < 2 ^ d.len) :
    Yields w (ofList d vs) fun r m => r.domain = d ∧ r.Shows m (· ∈ vs) := by
  refine .bind (disjMap_yields (P := fun v t => d.read t = v) hw fun v hv w1 hl1 =>
    value_yields hl1.after hlen hend (hvs v hv)) fun f w1 hl1 hf => ?_
  exact ofFn_yields hl1.after (hf.congr fun t => by simp)

end ValueSet

namespace SymbolicNfa

variable {w : Workspace} {a : SymbolicNfa}

theorem source_end (hk : k ≤ 32) : (sourceBlock k).base + (sourceBlock k).len ≤ 2 ^ 31 := by
  change 1 + k ≤ 2 ^ 31
  omega

theorem dest_end (hk : k ≤ 32) : (destBlock k).base + (destBlock k).len ≤ 2 ^ 31 := by
  change 65 + k ≤ 2 ^ 31
  omega

theorem sourceBlock_stop (hk : k ≤ 32) :
    (sourceBlock k).stop = .ok (sourceBase + k) :=
  Domain.stop_of_le (by change 1 + k < 2 ^ 32; omega)

theorem destBlock_stop (hk : k ≤ 32) : (destBlock k).stop = .ok (destBase + k) :=
  Domain.stop_of_le (by change 65 + k < 2 ^ 32; omega)

theorem ofCount_yields (hw : w.current.WellFormed) (hn : n < 2 ^ 32) :
    Yields w (ofCount n) fun b m =>
      b.stateCount = n ∧ b.determinism = .unknown ∧ b.Shows m bare := by
  have hk : bitsNeeded n ≤ 32 := bitsNeeded_le_iff.2 (Nat.le_of_lt hn)
  refine .lift_bind (states_eq hk) ?_
  refine .bind (ValueSet.firstStates_yields hw (by change bitsNeeded n ≤ 64; omega)
    (source_end hk) (by omega)) fun s w1 hl1 hs => ?_
  refine .bind (ValueSet.empty_yields hl1.after) fun e w2 hl2 he => ?_
  refine .lift_bind (transitions_eq hk) ?_
  refine .bind (Relation.ofFn_yields (R := Edges bare) hl2.after (edgeBlocks_apart hk)
    ((edgeBlocks_ends hk).mono (by have := edgeEnd_le; omega))
    ((Denotes.zero hl2.after.canonical).congr fun t => ?_)) fun r w3 hl3 hr => ?_
  · constructor
    · exact False.elim
    · rintro ⟨_, _, _, -, h⟩
      exact h
  · refine .ask_bind rfl (Runs.pure hl3.after ⟨rfl, rfl, ⟨⟨rfl, ?_, ?_, ?_, hr⟩, hn⟩⟩)
    · exact ⟨hs.1, hs.2.later (hl2.trans hl3)⟩
    · exact ⟨he.1, he.2.later hl3⟩
    · exact ⟨he.1, he.2.later hl3⟩

/-- Triples of a relation with symbols in the middle, moved to domains that are wide enough for
its states. -/
theorem moveTriples_yields {r : Relation} {top : Nat} {d d' e e' : Domain}
    (hw : w.current.WellFormed) (hdom : r.domains = [d', alphabet, e'])
    (hr : r.Shows w.current (Edges g)) (hd' : d'.len ≤ d.len + 64) (he' : e'.len ≤ e.len + 64)
    (hd : d.len ≤ 32) (he : e.len ≤ 32) (htop : 1 ≤ top ∧ top ≤ 2 ^ 30)
    (hrends : EndBy top r.domains) (hapart : [d, alphabet, e].Pairwise Domain.Apart) (hends : EndBy top [d, alphabet, e])
    (hsource : ∀ p c q, q ∈ g.step p c → p < 2 ^ d'.len ∧ p < 2 ^ d.len)
    (htarget : ∀ p c q, q ∈ g.step p c → q < 2 ^ e'.len ∧ q < 2 ^ e.len) :
    Yields w (r.withDomains [d, alphabet, e]) fun u m =>
      u.domains = [d, alphabet, e] ∧ u.Shows m (Edges g) := by
  refine Relation.withDomains_yields (n := top) hw hr (by rw [hdom]; rfl) hapart htop.1 hrends
    hends ?_ fun i f f' hf hf' hne => ?_
  · have hmoves := Relation.sum_moves_le r.domains [d, alphabet, e]
    have hsum : ([d, alphabet, e].map Domain.len).sum = d.len + (Nat.pow 2 16 + (e.len + 0)) := rfl
    have hpow : Nat.pow 2 16 = 65536 := rfl
    omega
  · rw [hdom] at hf
    match i with
    | 0 =>
      cases hf
      cases hf'
      refine ⟨by omega, by omega, ?_⟩
      rintro _ v hv ⟨p, c, q, rfl, hq⟩
      obtain rfl : p = v := Option.some.inj hv
      exact hsource p c q hq
    | 1 =>
      cases hf
      cases hf'
      exact absurd rfl hne
    | 2 =>
      cases hf
      cases hf'
      refine ⟨by omega, by omega, ?_⟩
      rintro _ v hv ⟨p, c, q, rfl, hq⟩
      obtain rfl : q = v := Option.some.inj hv
      exact htarget p c q hq
    | i + 3 => exact absurd hf (by simp)

theorem moveEdges_yields {r : Relation} {j : Nat} {d e : Domain} (hw : w.current.WellFormed)
    (h : r.domains = edgeBlocks j ∧ r.Shows w.current (Edges g)) (hj : j ≤ 32) (hd : d.len ≤ 32)
    (he : e.len ≤ 32) (hapart : [d, alphabet, e].Pairwise Domain.Apart)
    (hends : EndBy edgeEnd [d, alphabet, e]) (hg : Bounded g (2 ^ j))
    (hsource : ∀ p c q, q ∈ g.step p c → p < 2 ^ d.len)
    (htarget : ∀ p c q, q ∈ g.step p c → q < 2 ^ e.len) :
    Yields w (r.withDomains [d, alphabet, e]) fun u m =>
      u.domains = [d, alphabet, e] ∧ u.Shows m (Edges g) := by
  refine moveTriples_yields hw h.1 h.2 (by change j ≤ _; omega) (by change j ≤ _; omega) hd he
    (by decide) ?_ hapart hends (fun p c q hq => ⟨hg.source p c q hq, hsource p c q hq⟩)
    fun p c q hq => ⟨hg.target p c q hq, htarget p c q hq⟩
  rw [h.1]
  exact edgeBlocks_ends hj

theorem resize_yields {j : Nat} (hw : w.current.WellFormed) (h : a.Over w.current j g)
    (hjk : j ≤ k) (hk : k ≤ 32) (hn : a.stateCount ≤ 2 ^ j) (hg : Contained g a.stateCount) :
    Yields w (a.resize k) fun b m =>
      b.stateCount = a.stateCount ∧ b.determinism = .unknown ∧ b.Over m k g := by
  have hpow : 2 ^ j ≤ 2 ^ k := Nat.pow_le_pow_right (by decide) hjk
  have hfit : ∀ {P : Nat → Prop}, (∀ v, P v → v < a.stateCount) →
      (sourceBlock j).Fits (sourceBlock k) P := by
    intro P hP
    refine fits_of_small (by change j ≤ 32; omega) hk sourceBlock_base_le sourceBlock_base_le
      fun v hv => ?_
    have := hP v hv
    change v < 2 ^ j ∧ v < 2 ^ k
    omega
  have hmove : ∀ {s : ValueSet} {P : Nat → Prop} {w1 : Workspace}, w1.current.WellFormed →
      s.domain = sourceBlock j ∧ s.Shows w1.current P → (∀ v, P v → v < a.stateCount) →
      Yields w1 (s.withDomain (sourceBlock k)) fun r m =>
        r.domain = sourceBlock k ∧ r.Shows m P := by
    intro s P w1 hw1 hs hP
    refine hs.2.withDomain hw1 ?_
    rw [hs.1]
    exact hfit hP
  refine .lift_bind (states_eq hk) ?_
  refine .bind (hmove hw h.states fun _ hv => hv) fun s1 w1 hl1 hs1 => ?_
  have h1 := h.later hl1
  refine .bind (hmove hl1.after h1.starting hg.start) fun s2 w2 hl2 hs2 => ?_
  have h2 := h1.later hl2
  refine .bind (hmove hl2.after h2.accepting hg.accept) fun s3 w3 hl3 hs3 => ?_
  have h3 := h2.later hl3
  refine .lift_bind (transitions_eq hk) ?_
  have hgk := hg.mono (hn.trans hpow)
  refine .bind (moveEdges_yields hl3.after h3.edges (by omega) hk hk (edgeBlocks_apart hk)
    (edgeBlocks_ends hk) (hg.toBounded.mono hn) hgk.source hgk.target) fun r w4 hl4 hr => ?_
  refine Runs.pure hl4.after ⟨rfl, rfl, ⟨?_, ?_, ?_, ?_, hr⟩⟩
  · exact (h3.later hl4).home
  · exact ⟨hs1.1, hs1.2.later (hl2.trans (hl3.trans hl4))⟩
  · exact ⟨hs2.1, hs2.2.later (hl3.trans hl4)⟩
  · exact ⟨hs3.1, hs3.2.later hl4⟩

theorem include_yields {s t : ValueSet} {b : Bool} (hw : w.current.WellFormed)
    (hs : s.domain = sourceBlock k ∧ s.Shows w.current P)
    (ht : t.domain = sourceBlock k ∧ t.Shows w.current Q) :
    Yields w (if b then s.union t else pure s) fun r m =>
      r.domain = sourceBlock k ∧ r.Shows m fun v => P v ∨ b = true ∧ Q v := by
  cases b with
  | true =>
    refine (ValueSet.union_yields hs.2 ht.2 (hs.1.trans ht.1.symm) hw).imp fun r w1 _ hr => ?_
    exact ⟨hr.1.trans hs.1, hr.2.congr fun v _ => by simp⟩
  | false => exact Runs.pure hw ⟨hs.1, hs.2.congr fun v _ => by simp⟩

theorem increase_yields {accepting starting : Bool} (hw : w.current.WellFormed)
    (h : a.Shows w.current g) (hg : Contained g a.stateCount) (hlt : a.stateCount < n)
    (hn : n < 2 ^ 32) :
    Yields w (a.increase n accepting starting) fun b m => b.stateCount = n ∧
      b.determinism = .unknown ∧ b.Shows m (enlarge g a.stateCount n accepting starting) := by
  have hk : bitsNeeded n ≤ 32 := bitsNeeded_le_iff.2 (Nat.le_of_lt hn)
  have hle : n ≤ 2 ^ bitsNeeded n := le_two_pow_bitsNeeded n
  have hwidth : a.width ≤ bitsNeeded n := bitsNeeded_le_iff.2 (by
    change a.stateCount ≤ 2 ^ bitsNeeded n
    omega)
  unfold increase
  rw [if_neg (by omega)]
  refine .branch
    (Q := fun (b : SymbolicNfa) m => b.stateCount = a.stateCount ∧ b.Over m (bitsNeeded n) g) ?_
    fun b w1 hl1 hb => ?_
  · split_ifs with hgrow
    · exact (resize_yields hw h.toOver hwidth hk a.count_le_two_pow_width hg).imp
        fun b w1 _ hb => ⟨hb.1, hb.2.2⟩
    · obtain heq : a.width = bitsNeeded n := by omega
      rw [← heq]
      exact Runs.pure hw ⟨rfl, h.toOver⟩
  · obtain ⟨hcount, hb⟩ := hb
    refine .lift_bind (states_eq hk) ?_
    have hrange : n - 1 < 2 ^ 64 := by omega
    refine .bind (ValueSet.ofRange_yields hl1.after (by change bitsNeeded n ≤ 64; omega)
      (source_end hk) (by omega) hrange) fun added w2 hl2 hadded => ?_
    have hnew : added.domain = sourceBlock (bitsNeeded n) ∧
        added.Shows w2.current fun v => a.stateCount ≤ v ∧ v < n := by
      refine ⟨hadded.1, hadded.2.congr fun v _ => ?_⟩
      rw [hcount]
      omega
    have hb2 := hb.later hl2
    refine .bind (ValueSet.union_yields hb2.states.2 hnew.2 (hb2.states.1.trans hnew.1.symm)
      hl2.after) fun s1 w3 hl3 hs1 => ?_
    have hb3 := hb2.later hl3
    refine .branch (include_yields hl3.after hb3.accepting ⟨hnew.1, hnew.2.later hl3⟩)
      fun s2 w4 hl4 hs2 => ?_
    have hb4 := hb3.later hl4
    refine .branch (include_yields hl4.after hb4.starting ⟨hnew.1, hnew.2.later (hl3.trans hl4)⟩)
      fun s3 w5 hl5 hs3 => ?_
    have hb5 := hb4.later hl5
    refine Runs.pure hl5.after ⟨rfl, rfl, ⟨⟨hb5.home, ?_, hs3, ?_, hb5.edges⟩, hn⟩⟩
    · refine ⟨hs1.1.trans hb2.states.1, (hs1.2.later (hl4.trans hl5)).congr fun v _ => ?_⟩
      change v < b.stateCount ∨ _ ↔ v < n
      omega
    · exact ⟨hs2.1, hs2.2.later hl5⟩

theorem addState_yields {accepting starting : Bool} (hw : w.current.WellFormed)
    (h : a.Shows w.current g) (hg : Contained g a.stateCount) (hn : a.stateCount + 1 < 2 ^ 32) :
    Yields w (a.addState accepting starting) fun r m => r.1 = a.stateCount ∧
      r.2.stateCount = a.stateCount + 1 ∧ r.2.determinism = .unknown ∧
      r.2.Shows m (enlarge g a.stateCount (a.stateCount + 1) accepting starting) := by
  have hfits : fits 32 (a.stateCount + 1) = .ok (a.stateCount + 1) := fits_eq_ok_iff.2 ⟨hn, rfl⟩
  refine .lift_bind hfits (.bind (increase_yields hw h hg (Nat.lt_succ_self _) hn)
    fun b w1 hl1 hb => ?_)
  exact Runs.pure hl1.after ⟨rfl, hb⟩

theorem Shows.stateDomain (h : a.Shows w.current g) :
    a.stateDomain = .ok (sourceBlock a.width) := states_eq h.width_le

theorem Shows.destDomain (h : a.Shows w.current g) :
    a.destDomain = .ok (destBlock a.width) := dests_eq h.width_le

/-- Edges between what two sets hold once they have been moved to the sources and destinations. -/
theorem addEdgeSets_runs {p : Prop} {s t : ValueSet} {on : SymbolSet} (h : a.Shows w.current g)
    (hs : Runs p w (s.moved (sourceBlock a.width)) fun r m =>
      r.domain = sourceBlock a.width ∧ r.Shows m P)
    (ht : ∀ w', w.Leads w' → Runs p w' (t.moved (destBlock a.width)) fun r m =>
      r.domain = destBlock a.width ∧ r.Shows m Q)
    (hon : w.current.Denotes on.fn fun x => L (alphabet.read x)) :
    Runs p w (a.addEdgeSets s on t) fun b m => b.stateCount = a.stateCount ∧
      b.determinism = .unknown ∧ b.Shows m (connect g P L Q) := by
  refine .lift_bind h.stateDomain (.bind hs fun s1 w1 hl1 hs1 => ?_)
  refine .lift_bind h.destDomain (.bind (ht w1 hl1) fun t1 w2 hl2 ht1 => ?_)
  have hl := hl1.trans hl2
  have hsource := hl2.denotes hs1.2.denotes
  have hdest := ht1.2.denotes
  rw [hs1.1] at hsource
  rw [ht1.1] at hdest
  let parts : List (Ref × (Assignment → Prop)) :=
    [(s1.fn, fun x => P ((sourceBlock a.width).read x)),
    (on.fn, fun x => L (alphabet.read x)), (t1.fn, fun x => Q ((destBlock a.width).read x))]
  have hparts : ∀ p ∈ parts, w2.current.Denotes p.1 p.2 := by
    intro p hp
    simp only [parts, List.mem_cons, List.not_mem_nil, or_false] at hp
    rcases hp with rfl | rfl | rfl
    · exact hsource
    · exact hl.denotes hon
    · exact hdest
  refine .bind (.weaken (conjAll_yields hl2.after hparts)) fun added w3 hl3 hadded => ?_
  have h3 := h.later (hl.trans hl3)
  refine .bind (.weaken (disj_yields hl3.after h3.edges.2.denotes hadded)) fun f w4 hl4 hf => ?_
  have h4 := h3.later hl4
  refine .bind (.weaken (Relation.ofFn_yields (R := Edges (connect g P L Q)) hl4.after
    h4.edges.2.apart h4.edges.2.ends (hf.congr fun x => ?_))) fun r w5 hl5 hr => ?_
  · rw [h.edges.1]
    change Edges g [_, _, _] ∨ _ ↔ Edges (connect g P L Q) [_, _, _]
    simp only [edges_iff, parts, List.mem_cons, List.not_mem_nil, or_false, forall_eq_or_imp,
      forall_eq]
    rfl
  · have h5 := h4.later hl5
    exact Runs.pure hl5.after ⟨rfl, rfl, ⟨⟨h5.home, h5.states, h5.starting, h5.accepting,
      ⟨hr.1.trans h5.edges.1, hr.2⟩⟩, h5.few⟩⟩

theorem addEdgeSets_yields {s t : ValueSet} {on : SymbolSet} (hw : w.current.WellFormed)
    (h : a.Shows w.current g) (hs : s.Shows w.current P) (ht : t.Shows w.current Q)
    (hon : w.current.Denotes on.fn fun x => L (alphabet.read x))
    (hsfit : s.domain.Fits (sourceBlock a.width) P)
    (htfit : t.domain.Fits (destBlock a.width) Q) :
    Yields w (a.addEdgeSets s on t) fun b m => b.stateCount = a.stateCount ∧
      b.determinism = .unknown ∧ b.Shows m (connect g P L Q) :=
  addEdgeSets_runs h (hs.moved hw hsfit) (fun _ hl => (ht.later hl).moved hl.after htfit) hon

theorem blocks_fit {d e : Domain} (hk : a.width ≤ 32) (hd : d = sourceBlock a.width)
    (he : e = sourceBlock a.width ∨ e = destBlock a.width) (hP : ∀ p, P p → p < a.stateCount) :
    d.Fits e P := by
  have hn := a.count_le_two_pow_width
  have hlen : e.len = a.width ∧ e.base ≤ edgeEnd := by
    rcases he with rfl | rfl
    · exact ⟨rfl, sourceBlock_base_le⟩
    · exact ⟨rfl, destBlock_base_le⟩
  subst hd
  refine fits_of_small hk (by omega) sourceBlock_base_le hlen.2 fun v hv => ?_
  have := hP v hv
  rw [hlen.1]
  change v < 2 ^ a.width ∧ v < 2 ^ a.width
  omega

theorem connect_yields {s t : ValueSet} {on : SymbolSet} (hw : w.current.WellFormed)
    (h : a.Shows w.current g)
    (hs : s.domain = sourceBlock a.width ∧ s.Shows w.current P)
    (ht : t.domain = sourceBlock a.width ∧ t.Shows w.current Q)
    (hon : w.current.Denotes on.fn fun x => L (alphabet.read x))
    (hP : ∀ p, P p → p < a.stateCount) (hQ : ∀ q, Q q → q < a.stateCount) :
    Yields w (a.addEdgeSets s on t) fun b m => b.stateCount = a.stateCount ∧
      b.determinism = .unknown ∧ b.Shows m (connect g P L Q) :=
  addEdgeSets_yields hw h hs.2 ht.2 hon (blocks_fit h.width_le hs.1 (.inl rfl) hP)
    (blocks_fit h.width_le ht.1 (.inr rfl) hQ)

theorem addEdge_yields {on : SymbolSet} (hw : w.current.WellFormed) (h : a.Shows w.current g)
    (hon : w.current.Denotes on.fn fun x => L (alphabet.read x)) (hp : p < a.stateCount)
    (hq : q < a.stateCount) :
    Yields w (a.addEdge p on q) fun b m => b.stateCount = a.stateCount ∧
      b.determinism = .unknown ∧ b.Shows m (connect g (· = p) L (· = q)) := by
  have hn := a.count_le_two_pow_width
  have hk := h.width_le
  refine .lift_bind (if_pos hp) (.lift_bind (if_pos hq) (.lift_bind h.stateDomain ?_))
  have hlen : (sourceBlock a.width).len ≤ 64 := by
    change a.width ≤ 64
    omega
  refine .bind (ValueSet.singleton_yields hw hlen (source_end hk) (v := p)
    (Nat.lt_of_lt_of_le hp hn)) fun s w1 hl1 hs => ?_
  refine .bind (ValueSet.singleton_yields hl1.after hlen (source_end hk) (v := q)
    (Nat.lt_of_lt_of_le hq hn)) fun t w2 hl2 ht => ?_
  have hl := hl1.trans hl2
  exact connect_yields hl2.after (h.later hl) ⟨hs.1, hs.2.later hl2⟩ ht (hl.denotes hon)
    (fun _ h => h ▸ hp) fun _ h => h ▸ hq

theorem universal_denotes {m : Manager} (hm : m.Canonical) (id : Nat) :
    m.Denotes (SymbolSet.universal id).fn fun _ => True := .one hm

/-- A rejecting state that also starts and is reached from every state on every letter. -/
def sunk (g : NFA Nat Nat) (n : Nat) : NFA Nat Nat :=
  connect (enlarge g n (n + 1) false true) (· < n + 1) (fun _ => True) (· = n)

theorem withSink_yields (hw : w.current.WellFormed) (h : a.Shows w.current g)
    (hg : Contained g a.stateCount) (hn : a.stateCount + 1 < 2 ^ 32) :
    Yields w a.withSink fun b m => b.stateCount = a.stateCount + 1 ∧
      b.determinism = .unknown ∧ b.Shows m (sunk g a.stateCount) := by
  refine .bind (addState_yields hw h hg hn) fun r w1 hl1 hr => ?_
  obtain ⟨q, b⟩ := r
  obtain ⟨rfl, hcount, -, hb⟩ := hr
  simp only at hcount hb
  have hbn := b.count_le_two_pow_width
  have hlen : b.states.domain.len = b.width := by rw [hb.states.1]; rfl
  have hbase : b.states.domain.base = 1 := by rw [hb.states.1]; rfl
  have hk := hb.width_le
  refine .bind (ValueSet.ofList_yields hl1.after (by omega) (by omega) fun v hv => ?_)
    fun sink w2 hl2 hsink => ?_
  · obtain rfl := List.mem_singleton.1 hv
    rw [hlen]
    omega
  · have hb2 := hb.later hl2
    refine (connect_yields (L := fun _ => True) hl2.after hb2 hb2.states
      ⟨hsink.1.trans hb.states.1, hsink.2⟩ (universal_denotes hl2.after.canonical _)
      (fun _ hp => hp) fun q hq => ?_).imp fun c w3 _ hc => ?_
    · obtain rfl := List.mem_singleton.1 hq
      omega
    · obtain ⟨hcount', hflag, hc⟩ := hc
      refine ⟨hcount'.trans hcount, hflag, ?_⟩
      simpa only [sunk, hcount, List.mem_singleton] using hc

theorem firstState_runs {β : Type} {p : Prop} {accepting : Bool}
    {next : Nat × SymbolicNfa → BddM β} {S : β → Manager → Prop} (hw : w.current.WellFormed)
    (hnext : ∀ b w', w.Leads w' → b.stateCount = 1 →
      b.Shows w'.current (enlarge bare 0 1 accepting true) → Runs p w' (next (0, b)) S) :
    Runs p w (do next (← (← empty).addState accepting true)) S := by
  refine .bind (.weaken (ofCount_yields hw (by decide : 0 < 2 ^ 32))) fun a w1 hl1 ha => ?_
  obtain ⟨hzero, -, ha⟩ := ha
  refine .bind (.weaken (addState_yields hl1.after ha (bare_contained _) (by omega)))
    fun r w2 hl2 hr => ?_
  obtain ⟨q, b⟩ := r
  obtain ⟨rfl, hcount, -, hb⟩ := hr
  simp only [hzero] at hcount hb ⊢
  exact hnext b w2 (hl1.trans hl2) hcount hb

def trap : NFA Nat Nat :=
  connect (enlarge bare 0 1 false true) (· = 0) (fun _ => True) (· = 0)

theorem trap_yields (hw : w.current.WellFormed) :
    Yields w (do
      let (q, b) ← (← empty).addState false true
      return { ← b.addEdge q (.universal b.manager) q with determinism := .complete }) fun b m =>
      b.stateCount = 1 ∧ b.determinism = .complete ∧ b.Shows m trap := by
  refine firstState_runs hw fun b w1 hl1 hcount hb => ?_
  refine .bind (addEdge_yields (L := fun _ => True) hl1.after hb
    (universal_denotes hl1.after.canonical _) (by omega) (by omega)) fun c w2 hl2 hc => ?_
  exact Runs.pure hl2.after ⟨hc.1.trans hcount, rfl, hc.2.2.flagged _⟩

theorem totalize_yields (hw : w.current.WellFormed) :
    Yields w a.totalize fun b m => 0 < b.stateCount ∧
      (0 < a.stateCount ∧ b = a ∨ a.stateCount = 0 ∧ b.stateCount = 1 ∧ b.Shows m trap) := by
  unfold totalize
  split_ifs with hpos
  · exact Runs.pure hw ⟨hpos, .inl ⟨hpos, rfl⟩⟩
  · refine (trap_yields hw).imp fun b w1 _ hb => ?_
    obtain ⟨hcount, -, hb⟩ := hb
    exact ⟨by omega, .inr ⟨by omega, hcount, hb⟩⟩

def everything : NFA Nat Nat :=
  connect (enlarge bare 0 1 true true) (· = 0) (fun _ => True) (· = 0)

theorem everything_contained : Contained everything 1 :=
  ((bare_contained 0).enlarge (by decide)).connect (fun _ h => h ▸ by decide) fun _ h =>
    h ▸ by decide

theorem universal_yields (hw : w.current.WellFormed) :
    Yields w universal fun b m =>
      b.stateCount = 1 ∧ b.determinism = .unknown ∧ b.Shows m everything := by
  refine firstState_runs hw fun b w1 hl1 hcount hb => ?_
  refine (addEdge_yields (L := fun _ => True) hl1.after hb
    (universal_denotes hl1.after.canonical _) (by omega) (by omega)).imp fun c w2 _ hc => ?_
  exact ⟨hc.1.trans hcount, hc.2⟩

def oneLetter (L : Nat → Prop) : NFA Nat Nat :=
  connect (enlarge (enlarge bare 0 1 false true) 1 2 true false) (· = 0) L (· = 1)

theorem oneLetter_contained (L : Nat → Prop) : Contained (oneLetter L) 2 :=
  (((bare_contained 0).enlarge (by decide)).enlarge (by decide)).connect
    (fun _ h => h ▸ by decide) fun _ h => h ▸ by decide

theorem mem_oneLetter_step : q ∈ (oneLetter L).step p c ↔ p = 0 ∧ L c ∧ q = 1 :=
  or_iff_right fun hfalse => hfalse

theorem oneLetter_start : (oneLetter L).start = {0} := by
  ext p
  simp [oneLetter, connect, enlarge, bare]

theorem mem_oneLetter_accept : p ∈ (oneLetter L).accept ↔ p = 1 := by
  simp [oneLetter, connect, enlarge, bare]
  omega

theorem oneLetter_accepts_iff {cs : List Nat} :
    cs ∈ (oneLetter L).accepts ↔ ∃ c, cs = [c] ∧ L c := by
  change (∃ q ∈ (oneLetter L).accept, q ∈ (oneLetter L).evalFrom (oneLetter L).start cs) ↔ _
  simp only [oneLetter_start, mem_oneLetter_accept, exists_eq_left]
  constructor
  · intro hrun
    cases cs with
    | nil => exact absurd hrun (by simp)
    | cons c cs =>
      rw [NFA.evalFrom_cons, NFA.stepSet_singleton, NFA.mem_evalFrom_iff_exists] at hrun
      obtain ⟨p, hp, hrun⟩ := hrun
      obtain ⟨-, hc, rfl⟩ := mem_oneLetter_step.1 hp
      cases cs with
      | nil => exact ⟨c, rfl, hc⟩
      | cons d ds =>
        rw [NFA.evalFrom_cons, NFA.stepSet_singleton, NFA.mem_evalFrom_iff_exists] at hrun
        obtain ⟨r, hr, -⟩ := hrun
        exact absurd (mem_oneLetter_step.1 hr).1 (by decide)
  · rintro ⟨c, rfl, hc⟩
    rw [NFA.evalFrom_singleton, NFA.stepSet_singleton]
    exact mem_oneLetter_step.2 ⟨rfl, hc, rfl⟩

theorem oneLetter_accepts (hc : L c) : [c] ∈ (oneLetter L).accepts :=
  oneLetter_accepts_iff.2 ⟨c, rfl, hc⟩

theorem not_oneLetter_accepts_nil : [] ∉ (oneLetter L).accepts := by
  simp [oneLetter_accepts_iff]

theorem ofSymbols_yields {on : SymbolSet} (hw : w.current.WellFormed)
    (hon : w.current.Denotes on.fn fun x => L (alphabet.read x)) :
    Yields w (ofSymbols on) fun b m =>
      b.stateCount = 2 ∧ b.determinism = .unknown ∧ b.Shows m (oneLetter L) := by
  refine firstState_runs hw fun b w1 hl1 hone hb => ?_
  have hbc : Contained (enlarge bare 0 1 false true) b.stateCount := by
    rw [hone]
    exact (bare_contained 0).enlarge (by decide)
  refine .bind (addState_yields hl1.after hb hbc (by omega)) fun r w2 hl2 hr => ?_
  obtain ⟨q, c⟩ := r
  obtain ⟨rfl, htwo, -, hc⟩ := hr
  simp only [hone] at htwo hc
  refine (addEdge_yields hl2.after hc ((hl1.trans hl2).denotes hon) (by omega) (by omega)).imp
    fun d w3 _ hd => ⟨hd.1.trans htwo, hd.2.1, ?_⟩
  simpa only [oneLetter, hone] using hd.2.2

theorem ofSymbols_wellFormed {m : Manager} {id i j : Nat} (hm : Manager.new id i j = .ok m) :
    ∃ a w, ofSymbols (.universal id) ⟨m, []⟩ = .ok a w ∧ Workspace.Leads ⟨m, []⟩ w ∧
      a.stateCount = 2 ∧ a.Shows w.current (oneLetter fun _ => True) ∧
      Contained (oneLetter fun _ => True) a.stateCount ∧ a.WellFormed w.current := by
  have hw := Manager.wellFormed_new hm
  obtain ⟨a, w, ha, hl, hcount, hflag, hshows⟩ := yields_iff.1
    (ofSymbols_yields (L := fun _ => True) (w := ⟨m, []⟩) hw (universal_denotes hw.canonical id))
  have hcontained : Contained (oneLetter fun _ => True) a.stateCount := by
    rw [hcount]
    exact oneLetter_contained _
  exact ⟨a, w, ha, hl, hcount, hshows, hcontained, ⟨⟨_, hshows, hcontained⟩,
    honest_of_unknown hflag⟩⟩

def link (a : SymbolicNfa) (es : List (Nat × Nat)) : BddM SymbolicNfa :=
  es.foldlM (fun b e => b.addEdge e.1 (.universal b.manager) e.2) a

def draw (n : Nat) (ss ts : List Nat) (es : List (Nat × Nat)) : BddM SymbolicNfa := do
  let a ← ofCount n
  let starting ← a.stateSet ss
  let accepting ← a.stateSet ts
  { a with starting := starting, accepting := accepting }.link es

theorem link_yields {es : List (Nat × Nat)} (hw : w.current.WellFormed) (h : a.Shows w.current g)
    (hflag : a.determinism = .unknown) (hes : ∀ e ∈ es, e.1 < a.stateCount ∧ e.2 < a.stateCount) :
    Yields w (a.link es) fun b m => b.stateCount = a.stateCount ∧ b.determinism = .unknown ∧
      b.Shows m (linked g es) := by
  unfold link
  induction es generalizing w a g with
  | nil =>
    rw [linked_nil]
    exact Runs.pure hw ⟨rfl, hflag, h⟩
  | cons e es ih =>
    rw [List.foldlM_cons]
    obtain ⟨hp, hq⟩ := hes e (by simp)
    have hall := universal_denotes hw.canonical a.manager
    apply Runs.bind (addEdge_yields (L := fun _ => True) hw h hall hp hq)
    rintro b w1 hl1 ⟨hcount, hflag', hb⟩
    rw [← linked_cons, ← hcount]
    exact ih hl1.after hb hflag' fun e' he' => hcount ▸ hes e' (by simp [he'])

theorem draw_yields (n : Nat) (ss ts : List Nat) (es : List (Nat × Nat)) (hw : w.current.WellFormed)
    (hn : n < 2 ^ 32) (hss : ∀ p ∈ ss, p < n) (hts : ∀ q ∈ ts, q < n)
    (hes : ∀ e ∈ es, e.1 < n ∧ e.2 < n) :
    Yields w (draw n ss ts es) fun a m => a.stateCount = n ∧ a.determinism = .unknown ∧
      a.Shows m (drawing ss ts es) := by
  apply Runs.bind (ofCount_yields hw hn)
  rintro a w1 hl1 ⟨rfl, hflag, ha⟩
  have hk : bitsNeeded a.stateCount ≤ 32 := ha.width_le
  have hroom := le_two_pow_bitsNeeded a.stateCount
  have hset : ∀ (w' : Workspace) vs, w1.Leads w' → (∀ v ∈ vs, v < a.stateCount) →
      Yields w' (a.stateSet vs) fun s m => s.domain = sourceBlock a.width ∧ s.Shows m (· ∈ vs) := by
    intro w' vs hl hvs
    unfold stateSet
    rw [ha.states.1]
    have hwidth : a.width ≤ 64 := hk.trans (by decide)
    exact ValueSet.ofList_yields hl.after hwidth (source_end hk) fun v hv => Nat.lt_of_lt_of_le (hvs v hv) hroom
  apply Runs.bind (hset w1 ss (.refl hl1.after) hss)
  intro s w2 hl2 hs
  apply Runs.bind (hset w2 ts hl2 hts)
  intro t w3 hl3 ht
  have ha3 := ha.later (hl2.trans hl3)
  exact link_yields hl3.after (g := { bare with start := {p | p ∈ ss}, accept := {q | q ∈ ts} })
    ⟨⟨ha3.home, ha3.states, ⟨hs.1, hs.2.later hl3⟩, ht, ha3.edges⟩, ha3.few⟩ hflag hes

theorem draw_wellFormed {m : Manager} {id i j : Nat} (n : Nat) (ss ts : List Nat)
    (es : List (Nat × Nat)) (hm : Manager.new id i j = .ok m) (hn : n < 2 ^ 32)
    (hss : ∀ p ∈ ss, p < n) (hts : ∀ q ∈ ts, q < n) (hes : ∀ e ∈ es, e.1 < n ∧ e.2 < n) :
    ∃ a w, draw n ss ts es ⟨m, []⟩ = .ok a w ∧ Workspace.Leads ⟨m, []⟩ w ∧ a.stateCount = n ∧
      a.determinism = .unknown ∧ a.Shows w.current (drawing ss ts es) ∧
      Contained (drawing ss ts es) a.stateCount ∧ a.WellFormed w.current := by
  have hw := Manager.wellFormed_new hm
  obtain ⟨a, w, ha, hl, hcount, hflag, hshows⟩ :=
    yields_iff.1 (draw_yields (w := ⟨m, []⟩) n ss ts es hw hn hss hts hes)
  have hcontained : Contained (drawing ss ts es) a.stateCount :=
    hcount ▸ drawing_contained hss hts hes
  exact ⟨a, w, ha, hl, hcount, hflag, hshows, hcontained, ⟨⟨_, hshows, hcontained⟩,
    honest_of_unknown hflag⟩⟩

end SymbolicNfa

end SymbolicAutomata
