import SymbolicAutomata.Decision
import SymbolicAutomata.Proofs.Minimizations
/-!
# The test of determinism

One starting state is found by counting. That every state has a successor on every letter is a
quantified edge function; that none has two is a comparison of the destinations of two copies of the
edges, the second of them above all other blocks.
-/
namespace SymbolicAutomata

open Manager Bdd Layout

variable {w w' : Workspace} {m : Manager} {g : NFA Nat Nat} {k n : Nat} {a : SymbolicNfa}

theorem scratch_apart (hk : k ≤ 32) :
    (edgeBlocks k ++ [scratch k]).Pairwise Domain.Apart := by
  have hbelow : ∀ d ∈ edgeBlocks k, d.base + d.len ≤ scratchBase := by
    intro d hd
    simp only [edgeBlocks, List.mem_cons, List.not_mem_nil, or_false] at hd
    rcases hd with rfl | rfl | rfl
    · change 1 + k ≤ 97 + 65536
      omega
    · exact Nat.le_refl _
    · change 65 + k ≤ 97 + 65536
      omega
  rw [List.pairwise_append]
  refine ⟨edgeBlocks_apart hk, List.pairwise_singleton _ _, fun d hd e he => ?_⟩
  obtain rfl := List.mem_singleton.1 he
  exact Domain.apart_of_le (hbelow d hd)

theorem exists_reads_scratch {p c q r : Nat} (hk : k ≤ 32) (hp : p < 2 ^ k)
    (hc : c < letterCount) (hq : q < 2 ^ k) (hr : r < 2 ^ k) :
    ∃ t, (sourceBlock k).read t = p ∧ alphabet.read t = c ∧ (destBlock k).read t = q ∧
      (scratch k).read t = r := by
  have hts : List.Forall₂ (fun v d => v < 2 ^ d.len) [p, c, q, r]
      (edgeBlocks k ++ [scratch k]) := .cons hp (.cons hc (.cons hq (.cons hr .nil)))
  obtain ⟨t, ht⟩ := Domain.exists_reads (scratch_apart hk) hts
  simp only [Domain.reads, edgeBlocks, List.cons_append, List.nil_append, List.map_cons,
    List.map_nil, List.cons.injEq, and_true] at ht
  exact ⟨t, ht.1, ht.2.1, ht.2.2.1, ht.2.2.2⟩

theorem Domain.read_eq_read_iff {d e : Domain} {s t : Assignment} (hlen : d.len = e.len) :
    d.read s = e.read t ↔ ∀ i < d.len, s (d.base + i) = t (e.base + i) := by
  constructor
  · intro heq i hi
    have hbit := congrArg (Nat.testBit · i) heq
    simpa [Domain.testBit_read, hi, hlen ▸ hi] using hbit
  · intro hall
    apply Nat.eq_of_testBit_eq
    intro i
    rw [Domain.testBit_read, Domain.testBit_read, ← hlen]
    by_cases hi : i < d.len
    · rw [hall i hi]
    · simp [hi]

namespace SymbolicNfa

theorem alphabet_stop : alphabet.stop = .ok scratchBase := rfl

theorem scratch_stop (hk : k ≤ 32) : (scratch k).stop = .ok (scratchBase + k) :=
  Domain.stop_of_le (by change 97 + 65536 + k < 2 ^ 32; omega)

def Total (g : NFA Nat Nat) (n : Nat) : Prop :=
  ∀ p < n, ∀ c < letterCount, ∃ q, q ∈ g.step p c

def Functional (g : NFA Nat Nat) : Prop :=
  ∀ p, ∀ c < letterCount, ∀ q r, q ∈ g.step p c → r ∈ g.step p c → q = r

theorem Shows.isTotal_yields (h : a.Shows w.current g) (hw : w.current.WellFormed)
    (hg : Bounded g a.stateCount) :
    Yields w a.isTotal fun b _ => b = true ↔ Total g a.stateCount := by
  have hk := h.width_le
  have hn := a.count_le_two_pow_width
  have halphabet : a.edges.domain 1 = .ok alphabet := Relation.domain_eq (by rw [h.edges.1]; rfl)
  have hfree : ∀ q, (destBlock a.width).Free fun t =>
      q ∈ g.step ((sourceBlock a.width).read t) (alphabet.read t) := by
    intro q s t hst
    change q ∈ g.step ((sourceBlock a.width).read s) (alphabet.read s) ↔ _
    rw [(source_apart_dest hk).read_eq hst, (dest_apart_alphabet hk).symm.read_eq hst]
  apply Runs.lift_bind h.destDomain
  apply Runs.lift_bind halphabet
  apply Runs.bind (exist_yields (destBlock_stop hk) hw h.edges.2.denotes)
  intro f w1 hl1 hf
  apply Runs.bind (univ_yields alphabet_stop hl1.after hf)
  intro total w2 hl2 htotal
  apply (implies_yields hl2.after ((h.states.2.later (hl1.trans hl2)).denotes) htotal).imp
  intro b w3 _ hb
  rw [hb, h.states.1, h.edges.1]
  have hsome : ∀ t, (∃ u, AgreeOff (destBlock a.width) t u ∧
      Edges g (Domain.reads (edgeBlocks a.width) u)) ↔
      ∃ q, q ∈ g.step ((sourceBlock a.width).read t) (alphabet.read t) := by
    intro t
    change (∃ u, AgreeOff (destBlock a.width) t u ∧ Edges g [_, _, _]) ↔ _
    simp only [edges_iff]
    rw [Domain.exists_agreeOff (d := destBlock a.width) hfree]
    constructor
    · rintro ⟨q, -, hq⟩
      exact ⟨q, hq⟩
    · rintro ⟨q, hq⟩
      exact ⟨q, Nat.lt_of_lt_of_le (hg.target _ _ _ hq) hn, hq⟩
  simp only [hsome]
  constructor
  · intro hall p hp c hc
    obtain ⟨t, hsource, hletter, -⟩ := exists_reads_scratch (q := 0) (r := 0) hk
      (Nat.lt_of_lt_of_le hp hn) hc (Nat.two_pow_pos _) (Nat.two_pow_pos _)
    have := hall t (by rwa [hsource]) t (.refl _ _)
    rwa [hsource, hletter] at this
  · intro hall s hs t hst
    rw [← (source_apart_alphabet hk).read_eq hst]
    exact hall _ hs _ (alphabet.read_lt t)

theorem mem_zip_range' {i j : Nat} {e : Nat × Nat} :
    e ∈ (List.range' i k).zip (List.range' j k) ↔ ∃ l < k, e = (i + l, j + l) := by
  obtain ⟨v, v'⟩ := e
  rw [List.mem_iff_getElem?]
  constructor
  · rintro ⟨l, hl⟩
    obtain ⟨hv, hv'⟩ := List.getElem?_zip_eq_some.1 hl
    obtain ⟨hlt, rfl⟩ := List.getElem?_eq_some_iff.1 hv
    obtain ⟨-, rfl⟩ := List.getElem?_eq_some_iff.1 hv'
    rw [List.length_range'] at hlt
    exact ⟨l, hlt, by simp [List.getElem_range']⟩
  · rintro ⟨l, hl, heq⟩
    obtain ⟨rfl, rfl⟩ := Prod.mk.inj heq
    refine ⟨l, List.getElem?_zip_eq_some.2 ⟨?_, ?_⟩⟩
    · simp [List.getElem?_range' hl]
    · simp [List.getElem?_range' hl]

/-- The bits of the two destinations, one pair for each place. -/
theorem sameDest_yields (hw : w.current.WellFormed) :
    Yields w (conjMap (fun (v, v') => do
      let x ← literal v
      equiv x (← literal v')) ((List.range' destBase k).zip (List.range' scratchBase k)))
      fun r m => m.Denotes r fun t => (destBlock k).read t = (scratch k).read t := by
  have hpair : ∀ e ∈ (List.range' destBase k).zip (List.range' scratchBase k), ∀ w',
      w.Leads w' → Yields w' (do
        let x ← literal e.1
        equiv x (← literal e.2)) fun r m => m.Denotes r fun t => t e.1 = t e.2 := by
    intro e he w' hl
    obtain ⟨i, hi, rfl⟩ := mem_zip_range'.1 he
    apply Runs.bind (literal_yields hl.after (by change 0 < 65 + i; omega))
    intro x w1 hl1 hx
    apply Runs.bind (literal_yields hl1.after (by change 0 < 97 + 65536 + i; omega))
    intro y w2 hl2 hy
    apply (equiv_yields hl2.after (hl2.denotes hx) hy).imp
    exact fun r w3 _ hr => hr.congr fun t => Bool.eq_iff_iff.symm
  apply (conjMap_yields (P := fun e t => t e.1 = t e.2) hw hpair).imp
  intro r w1 _ hr
  refine hr.congr fun t => ?_
  rw [Domain.read_eq_read_iff (d := destBlock k) (e := scratch k) rfl]
  constructor
  · exact fun hall i hi => hall _ (mem_zip_range'.2 ⟨i, hi, rfl⟩)
  · intro hall e he
    obtain ⟨i, hi, rfl⟩ := mem_zip_range'.1 he
    exact hall i hi

theorem Shows.isFunctional_yields (h : a.Shows w.current g) (hw : w.current.WellFormed)
    (hg : Bounded g a.stateCount) :
    Yields w a.isFunctional fun b _ => b = true ↔ Functional g := by
  have hk := h.width_le
  have hn := a.count_le_two_pow_width
  have halphabet : a.edges.domain 1 = .ok alphabet := Relation.domain_eq (by rw [h.edges.1]; rfl)
  have hcopy : (destBlock a.width).at? scratchBase = .ok (scratch a.width) := rfl
  obtain ⟨names, hnames, hjoins⟩ :=
    Domain.renamingTo_spec (destBlock_stop hk) (scratch_stop hk)
  apply Runs.lift_bind h.destDomain
  apply Runs.lift_bind halphabet
  apply Runs.lift_bind alphabet_stop
  apply Runs.lift_bind hcopy
  apply Runs.lift_bind hnames
  apply Runs.bind (rename_yields (fun v hv => hjoins.pos hv) hw h.edges.2.denotes)
  intro second w1 hl1 hsecond
  apply Runs.lift_bind (Domain.vars_eq (destBlock_stop hk))
  apply Runs.lift_bind (Domain.vars_eq (scratch_stop hk))
  apply Runs.bind (sameDest_yields (k := a.width) hl1.after)
  intro same w2 hl2 hsame
  apply Runs.bind (conj_yields hl2.after ((hl1.trans hl2).denotes h.edges.2.denotes)
    (hl2.denotes hsecond))
  intro both w3 hl3 hboth
  apply Runs.bind (diff_yields hl3.after hboth (hl3.denotes hsame))
  intro r w4 hl4 hr
  refine Runs.pure hl4.after ?_
  rw [decide_eq_true_iff, hr.eq_zero_iff hl4.after.canonical, h.edges.1]
  have hread : ∀ t, Domain.reads (edgeBlocks a.width) (names.pull t) =
      [(sourceBlock a.width).read t, alphabet.read t, (scratch a.width).read t] := by
    intro t
    have hoff := hjoins.agreeOff t
    have hdest := hjoins.read t
    simp only [Domain.reads, edgeBlocks, List.map_cons, List.map_nil]
    rw [← (source_apart_dest hk).read_eq hoff, ← (dest_apart_alphabet hk).symm.read_eq hoff]
    congr 3
    simpa [Domain.withLen, destBlock, scratch] using hdest
  have hedge : ∀ t, Domain.reads (edgeBlocks a.width) t =
      [(sourceBlock a.width).read t, alphabet.read t, (destBlock a.width).read t] := fun _ => rfl
  simp only [hread, hedge, edges_iff]
  constructor
  · intro hnone p c hc q r hq hr
    obtain ⟨t, hsource, hletter, hdest, hscratch⟩ := exists_reads_scratch hk
      (Nat.lt_of_lt_of_le (hg.source _ _ _ hq) hn) hc
      (Nat.lt_of_lt_of_le (hg.target _ _ _ hq) hn) (Nat.lt_of_lt_of_le (hg.target _ _ _ hr) hn)
    have hnot := hnone t
    rw [hsource, hletter, hdest, hscratch] at hnot
    by_contra hne
    exact hnot ⟨⟨hq, hr⟩, hne⟩
  · rintro hall t ⟨⟨hq, hr⟩, hne⟩
    exact hne (hall _ _ (alphabet.read_lt t) _ _ hq hr)

theorem deterministic_iff (hg : Bounded g n) :
    Deterministic g n ↔ (∃! p, p ∈ g.start) ∧ Total g n ∧ Functional g := by
  constructor
  · intro h
    refine ⟨h.start, fun p hp c hc => (h.successor p hp c hc).exists, ?_⟩
    exact fun p c hc q r hq hr => (h.successor p (hg.source _ _ _ hq) c hc).unique hq hr
  · rintro ⟨hstart, htotal, hfunctional⟩
    refine ⟨hstart, fun p hp c hc => ?_⟩
    obtain ⟨q, hq⟩ := htotal p hp c hc
    exact ⟨q, hq, fun r hr => hfunctional p c hc r q hr hq⟩

/-- One item is listed if there is exactly one, provided that none is listed twice. -/
theorem length_eq_one_iff {vs : List Nat} {P : Nat → Prop} (hnodup : vs.Nodup)
    (hvs : ∀ v, v ∈ vs ↔ P v) : vs.length = 1 ↔ ∃! v, P v := by
  simp only [← hvs]
  constructor
  · intro hlen
    obtain ⟨v, rfl⟩ := List.length_eq_one_iff.1 hlen
    exact ⟨v, by simp, fun u hu => List.mem_singleton.1 hu⟩
  · rintro ⟨v, hv, hunique⟩
    have hsub : vs ⊆ [v] := fun u hu => List.mem_singleton.2 (hunique u hu)
    have hle := (hnodup.subperm hsub).length_le
    have hpos := List.length_pos_of_mem hv
    simp only [List.length_singleton] at hle
    omega

theorem Shows.testDeterminism_yields (h : a.Shows w.current g) (hw : w.current.WellFormed)
    (hg : Bounded g a.stateCount) :
    Yields w a.testDeterminism fun b _ => b = true ↔ Deterministic g a.stateCount := by
  obtain ⟨vs, -, hsize, hsorted, hvs⟩ := size_yields hw h.starting h.width_le
  have hn := a.count_le_two_pow_width
  have hmem : ∀ v, v ∈ vs ↔ v ∈ g.start := fun v => by
    rw [hvs]
    exact and_iff_right_of_imp fun hv => Nat.lt_of_lt_of_le (hg.start v hv) hn
  have hone := length_eq_one_iff (hsorted.imp fun h => Nat.ne_of_lt h) hmem
  rw [deterministic_iff hg, ← hone]
  apply Runs.ask_bind hsize
  by_cases hlen : vs.length = 1
  · rw [if_neg (not_not_intro hlen)]
    simp only [hlen, true_and]
    apply Runs.bind (h.isTotal_yields hw hg)
    intro total w1 hl1 htotal
    rw [← htotal]
    cases total with
    | false => exact Runs.pure hl1.after (by simp)
    | true =>
      simp only [true_and]
      exact (h.later hl1).isFunctional_yields hl1.after hg
  · rw [if_pos hlen]
    exact Runs.pure hw (by simp [hlen])

/-- The flag is filled in where it says nothing. -/
theorem Shows.classify_yields (h : a.Shows w.current g) (hw : w.current.WellFormed)
    (hg : Bounded g a.stateCount) (hhonest : a.Honest w.current) :
    Yields w a.classify fun b m => ∃ f, b = { a with determinism := f } ∧ f ≠ .unknown ∧
      b.Honest m := by
  unfold classify
  cases hflag : a.determinism with
  | unknown =>
    apply Runs.bind (h.testDeterminism_yields hw hg)
    intro b w1 hl1 hb
    have hdet : ∀ f, ({ a with determinism := f } : SymbolicNfa).IsDeterministic w1.current ↔
        b = true := fun f =>
      (((h.later hl1).flagged f).isDeterministic_iff hl1.after.canonical hg).trans hb.symm
    refine Runs.pure hl1.after ⟨_, rfl, ?_, ?_⟩
    · cases b <;> simp
    · cases b with
      | true => exact (hdet _).2 rfl
      | false => exact fun hyes => Bool.false_ne_true ((hdet _).1 hyes)
  | complete => exact Runs.pure hw ⟨.complete, by rw [← hflag], by simp, hhonest⟩
  | other => exact Runs.pure hw ⟨.other, by rw [← hflag], by simp, hhonest⟩

theorem WellFormed.isCompleteDeterministic_yields (ha : a.WellFormed w.current)
    (hw : w.current.WellFormed) :
    Yields w a.isCompleteDeterministic fun r _ => r = true ↔ a.IsDeterministic w.current := by
  obtain ⟨g, h, hg⟩ := ha.shown
  apply Runs.bind (h.classify_yields hw hg.toBounded ha.honest)
  rintro _ w1 hl1 ⟨f, rfl, hf, hhonest⟩
  refine Runs.pure hl1.after ?_
  have hsame : ({ a with determinism := f } : SymbolicNfa).IsDeterministic w1.current ↔
      a.IsDeterministic w1.current := isDeterministic_congr rfl rfl rfl
  rw [decide_eq_true_iff, ← h.isDeterministic_later hg.toBounded hl1, ← hsame]
  exact hhonest.complete_iff hf

end SymbolicNfa

end SymbolicAutomata
