import SymbolicAutomata.Automaton
import SymbolicAutomata.Proofs.Closures
/-!
# Automata in any encoding

A symbolic automaton and one with a matrix of labels answer the same questions about the automaton
they show. A reversed view answers them about the reverse.
-/
namespace SymbolicAutomata

open Manager Bdd Layout

variable {w w' : Workspace} {m : Manager} {g : NFA Nat Nat} {n k p q : Nat} {P L : Nat → Prop}
  {dir : Direction} {on : SymbolSet}

namespace SymbolSet

variable {on' : SymbolSet} {F G : Assignment → Prop}

/-- The function of the set, on whatever variables, holds under the assignments in `F`. -/
structure Denotes (on : SymbolSet) (m : Manager) (F : Assignment → Prop) : Prop where
  home : on.manager = m.id
  denotes : m.Denotes on.fn F

theorem Denotes.later (h : on.Denotes w.current F) (hl : w.Leads w') : on.Denotes w'.current F :=
  ⟨h.home.trans hl.grows.id.symm, hl.denotes h.denotes⟩

theorem Denotes.isEmpty_iff (h : on.Denotes m F) (hm : m.Canonical) :
    on.isEmpty = true ↔ ∀ t, ¬ F t := by
  rw [isEmpty, decide_eq_true_iff, h.denotes.eq_zero_iff hm]

theorem Denotes.unique (h : on.Denotes m F) (h' : on'.Denotes m G) (hm : m.Canonical)
    (hFG : ∀ t, F t ↔ G t) : on = on' := by
  obtain ⟨id, f⟩ := on
  obtain ⟨id', f'⟩ := on'
  obtain rfl : id = id' := h.home.trans h'.home.symm
  obtain rfl : f = f' := (h.denotes.eq_iff hm h'.denotes).2 hFG
  rfl

theorem withFn_denotes {x : BddM Ref} (h : on.Denotes w.current F)
    (hx : Yields w x fun f m => m.Denotes f G) :
    Yields w (do return on.withFn (← x)) fun r m => r.Denotes m G := by
  apply Runs.bind hx
  intro f w1 hl1 hf
  exact Runs.pure hl1.after ⟨(h.later hl1).home, hf⟩

section Operations

variable (h : on.Denotes w.current F) (h' : on'.Denotes w.current G) (hw : w.current.WellFormed)

include h h' hw

theorem union_denotes : Yields w (on.union on') fun r m => r.Denotes m fun t => F t ∨ G t :=
  withFn_denotes h (disj_yields hw h.denotes h'.denotes)

theorem inter_denotes : Yields w (on.inter on') fun r m => r.Denotes m fun t => F t ∧ G t :=
  withFn_denotes h (conj_yields hw h.denotes h'.denotes)

theorem sdiff_denotes : Yields w (on.sdiff on') fun r m => r.Denotes m fun t => F t ∧ ¬ G t :=
  withFn_denotes h (diff_yields hw h.denotes h'.denotes)

end Operations

/-- The function of the set holds where the alphabet carries the number of a letter of `L`. -/
structure Shows (on : SymbolSet) (m : Manager) (L : Nat → Prop) : Prop where
  home : on.manager = m.id
  denotes : m.Denotes on.fn fun t => L (alphabet.read t)

theorem Shows.toDenotes (h : on.Shows m L) : on.Denotes m fun t => L (alphabet.read t) :=
  ⟨h.home, h.denotes⟩

theorem Shows.later (h : on.Shows w.current L) (hl : w.Leads w') : on.Shows w'.current L :=
  ⟨h.home.trans hl.grows.id.symm, hl.denotes h.denotes⟩

theorem Shows.congr {L' : Nat → Prop} (h : on.Shows m L) (hL : ∀ c < letterCount, L c ↔ L' c) :
    on.Shows m L' :=
  ⟨h.home, h.denotes.congr fun t => hL _ (alphabet.read_lt t)⟩

theorem Shows.isEmpty_iff (h : on.Shows m L) (hm : m.Canonical) :
    on.isEmpty = true ↔ ∀ c < letterCount, ¬ L c := by
  rw [h.toDenotes.isEmpty_iff hm]
  exact ValueSet.forall_read_iff (d := alphabet) (P := fun c => ¬ L c)

theorem Shows.has_iff (h : on.Shows m L) (hm : m.Canonical) {x : Letter} :
    on.Has m x ↔ L x.code := by
  have hread : (alphabet.read fun v => decide (alphabetBase ≤ v) && x (v - alphabetBase)) =
      x.code := Domain.read_congr fun v hv _ => by
    have hle : alphabetBase ≤ v := hv
    simp [hle]
  rw [Has, ← hm.eval_eq_iff h.denotes.has, h.denotes.holds, hread]

theorem Shows.has_later {x : Letter} (h : on.Shows w.current L) (hl : w.Leads w') :
    on.Has w'.current x ↔ on.Has w.current x := by
  rw [h.has_iff hl.before.canonical, (h.later hl).has_iff hl.after.canonical]

theorem Shows.unique (h : on.Shows m L) (h' : on'.Shows m L) (hm : m.Canonical) : on = on' :=
  h.toDenotes.unique h'.toDenotes hm fun _ => Iff.rfl

section Letters

variable {M : Nat → Prop} (h : on.Shows w.current L) (h' : on'.Shows w.current M)
  (hw : w.current.WellFormed)

include h h' hw

theorem union_yields : Yields w (on.union on') fun r m => r.Shows m fun c => L c ∨ M c :=
  (union_denotes h.toDenotes h'.toDenotes hw).imp fun _ _ _ hr => ⟨hr.home, hr.denotes⟩

theorem inter_yields : Yields w (on.inter on') fun r m => r.Shows m fun c => L c ∧ M c :=
  (inter_denotes h.toDenotes h'.toDenotes hw).imp fun _ _ _ hr => ⟨hr.home, hr.denotes⟩

theorem sdiff_yields : Yields w (on.sdiff on') fun r m => r.Shows m fun c => L c ∧ ¬ M c :=
  (sdiff_denotes h.toDenotes h'.toDenotes hw).imp fun _ _ _ hr => ⟨hr.home, hr.denotes⟩

end Letters

end SymbolSet

theorem Relation.symbolsOn_yields {r : Relation} {R : List Nat → Prop} {pos : Nat}
    (hw : w.current.WellFormed) (h : r.Shows w.current R)
    (hd : r.domains[pos]? = some alphabet) :
    Yields w (r.symbolsOn pos) fun on m => on.Shows m fun c =>
      ∃ ts, List.Forall₂ (fun v d => v < 2 ^ d.len) ts r.domains ∧ ts[pos]? = some c ∧ R ts := by
  apply Runs.lift_bind (checkSymbols_eq hd)
  apply Runs.bind (projectOthers_yields hw h hd)
  intro f w1 hl1 hf
  exact Runs.pure hl1.after ⟨h.home.trans hl1.grows.id.symm, hf⟩

theorem Relation.labels_yieldsIff {r : Relation} {s t : ValueSet} {Q : Nat → Prop} {C D : Prop}
    (hw : w.current.WellFormed) (h : r.domains = edgeBlocks k ∧ r.Shows w.current (Edges g))
    (hg : Bounded g (2 ^ k)) (hs : s.Lands w k C P) (ht : t.Lands w k D Q) :
    YieldsIff (C ∧ D) w (r.labels s t) fun on m =>
      on.Shows m fun c => ∃ p q, P p ∧ Q q ∧ q ∈ g.step p c := by
  obtain ⟨hdom, hr⟩ := h
  have hsource : YieldsIff C w (r.restrict 0 s) fun u m => u.domains = r.domains ∧
      u.Shows m fun ts => Edges g ts ∧ ∀ v, ts[0]? = some v → P v :=
    restrict_runs hr (by rw [hdom]; rfl) (hs (sourceBlock k) rfl sourceBlock_base_le w (.refl hw))
  apply hsource.bind
  rintro r1 w1 hl1 ⟨hdom1, hr1⟩
  rw [hdom] at hdom1
  have hdest : YieldsIff D w1 (r1.restrict 2 t) fun u m => u.domains = r1.domains ∧
      u.Shows m fun ts => (Edges g ts ∧ ∀ v, ts[0]? = some v → P v) ∧
        ∀ v, ts[2]? = some v → Q v :=
    restrict_runs hr1 (by rw [hdom1]; rfl) (ht (destBlock k) rfl destBlock_base_le w1 hl1)
  apply hdest.bind_yields
  rintro r2 w2 hl2 ⟨hdom2, hr2⟩
  rw [hdom1] at hdom2
  apply (symbolsOn_yields hl2.after hr2 (by rw [hdom2]; rfl)).imp
  intro on w3 _ hon
  refine hon.congr fun c hc => ?_
  rw [hdom2]
  constructor
  · rintro ⟨_, -, hpos, ⟨⟨p, c', q, rfl, hstep⟩, hP⟩, hQ⟩
    obtain rfl : c' = c := Option.some.inj hpos
    exact ⟨p, q, hP p rfl, hQ q rfl, hstep⟩
  · rintro ⟨p, q, hP, hQ, hstep⟩
    refine ⟨[p, c, q], forall₂_edgeBlocks.2 ⟨p, c, q, rfl, hg.source p c q hstep, hc,
      hg.target p c q hstep⟩, rfl, ⟨⟨p, c, q, rfl, hstep⟩, fun v hv => ?_⟩, fun v hv => ?_⟩
    · obtain rfl : p = v := Option.some.inj hv
      exact hP
    · obtain rfl : q = v := Option.some.inj hv
      exact hQ

theorem Contained.reverse (h : Contained g n) : Contained g.reverse n where
  start := h.accept
  source p c q hq := h.target q c p hq
  target p c q hq := h.source q c p hq
  accept := h.start

theorem Contained.of_reverse (h : Contained g.reverse n) : Contained g n := by
  have := h.reverse
  rwa [NFA.reverse_reverse] at this

/-- What a step leads to can be moved to the block of the states. -/
theorem fits_goalBlock (hk : k ≤ 32) (hg : Bounded g (2 ^ k)) :
    (goalBlock dir k).Fits (sourceBlock k) fun q => ∃ p, P p ∧ Hop g L dir p q := by
  have hgoal : (goalBlock dir k).len = k ∧ (goalBlock dir k).base ≤ edgeEnd := by
    cases dir with
    | forward => exact ⟨rfl, destBlock_base_le⟩
    | backward => exact ⟨rfl, sourceBlock_base_le⟩
  apply fits_of_small (by omega) hk hgoal.2 sourceBlock_base_le
  rintro q ⟨p, -, hop⟩
  rw [hgoal.1]
  exact ⟨hg.hop_target hop, hg.hop_target hop⟩

theorem hop_reverse : Hop g.reverse L dir p q ↔ Hop g L dir.flip p q := by
  cases dir <;> exact Iff.rfl

def endsOf (g : NFA Nat Nat) : Direction → Set Nat
  | .forward => g.start
  | .backward => g.accept

theorem endsOf_reverse : endsOf g.reverse dir = endsOf g dir.flip := by cases dir <;> rfl

namespace SymbolicNfa

variable {a : SymbolicNfa}

theorem lookup_stateFixing {b len v : Nat} :
    (stateFixing (List.range' b len) q).lookup v =
      if b ≤ v ∧ v < b + len then some (q.testBit (v - b)) else none := by
  split_ifs with hv
  · have hsome : ((stateFixing (List.range' b len) q).lookup v).isSome := by
      rw [List.lookup_isSome_iff]
      refine ⟨(v, q.testBit (v - b)), ?_, by simp⟩
      rw [stateFixing, List.mem_map]
      refine ⟨(v, v - b), ?_, rfl⟩
      rw [List.mem_zipIdx_iff_getElem?, List.getElem?_range' (by omega)]
      simp
      omega
    obtain ⟨x, hx⟩ := Option.isSome_iff_exists.1 hsome
    obtain ⟨l₁, l₂, hl, -⟩ := List.lookup_eq_some_iff.1 hx
    have hmem : (v, x) ∈ stateFixing (List.range' b len) q := by rw [hl]; simp
    obtain ⟨⟨u, i⟩, hi, heq⟩ := List.mem_map.1 hmem
    obtain ⟨hlt, hu⟩ := List.getElem?_eq_some_iff.1 (List.mem_zipIdx_iff_getElem?.1 hi)
    rw [List.getElem_range'] at hu
    obtain ⟨rfl, rfl⟩ := Prod.mk.inj heq
    rw [hx]
    congr 2
    omega
  · rw [List.lookup_eq_none_iff]
    intro e he
    obtain ⟨⟨u, i⟩, hi, rfl⟩ := List.mem_map.1 he
    obtain ⟨hlt, hu⟩ := List.getElem?_eq_some_iff.1 (List.mem_zipIdx_iff_getElem?.1 hi)
    rw [List.getElem_range'] at hu
    rw [List.length_range'] at hlt
    simp only at hu ⊢
    rw [bne_iff_ne]
    omega

theorem reads_override {t : Assignment} (hk : k ≤ 32) (hp : p < 2 ^ k) (hq : q < 2 ^ k) :
    Domain.reads (edgeBlocks k) (Fixing.override (stateFixing (List.range' sourceBase k) p ++
      stateFixing (List.range' destBase k) q) t) = [p, alphabet.read t, q] := by
  have hlookup : ∀ v, Fixing.override (stateFixing (List.range' sourceBase k) p ++
      stateFixing (List.range' destBase k) q) t v =
      if 1 ≤ v ∧ v < 1 + k then p.testBit (v - 1)
      else if 65 ≤ v ∧ v < 65 + k then q.testBit (v - 65) else t v := by
    intro v
    rw [Fixing.override, List.lookup_append, lookup_stateFixing, lookup_stateFixing]
    change ((if 1 ≤ v ∧ v < 1 + k then _ else none).or
      (if 65 ≤ v ∧ v < 65 + k then _ else none)).getD (t v) = _
    split_ifs <;> rfl
  have hsource : (sourceBlock k).read (Fixing.override (stateFixing (List.range' sourceBase k) p ++
      stateFixing (List.range' destBase k) q) t) = p := by
    rw [Domain.read_eq_iff (d := sourceBlock k) hp]
    intro i hi
    change i < k at hi
    change Fixing.override _ t (1 + i) = _
    rw [hlookup, if_pos (by omega), Nat.add_sub_cancel_left]
  have hdest : (destBlock k).read (Fixing.override (stateFixing (List.range' sourceBase k) p ++
      stateFixing (List.range' destBase k) q) t) = q := by
    rw [Domain.read_eq_iff (d := destBlock k) hq]
    intro i hi
    change i < k at hi
    change Fixing.override _ t (65 + i) = _
    rw [hlookup, if_neg (by omega), if_pos (by omega), Nat.add_sub_cancel_left]
  have halphabet : alphabet.read (Fixing.override (stateFixing (List.range' sourceBase k) p ++
      stateFixing (List.range' destBase k) q) t) = alphabet.read t := by
    apply Domain.read_congr
    intro v hv _
    change 97 ≤ v at hv
    rw [hlookup, if_neg (by omega), if_neg (by omega)]
  simp only [Domain.reads, edgeBlocks, List.map_cons, List.map_nil, hsource, hdest, halphabet]

theorem Shows.edge_yields (h : a.Shows w.current g) (hw : w.current.WellFormed)
    (hp : p < a.stateCount) (hq : q < a.stateCount) :
    Yields w (a.edge p q) fun on m => on.Shows m (q ∈ g.step p ·) := by
  have hn := a.count_le_two_pow_width
  have hk := h.width_le
  have hsources : (sourceBlock a.width).vars = .ok (List.range' sourceBase a.width) :=
    Domain.vars_eq (Domain.stop_of_le (by change 1 + a.width < _; omega))
  have hdests : (destBlock a.width).vars = .ok (List.range' destBase a.width) :=
    Domain.vars_eq (Domain.stop_of_le (by change 65 + a.width < _; omega))
  apply Runs.lift_bind (if_pos hp)
  apply Runs.lift_bind (if_pos hq)
  apply Runs.lift_bind h.stateDomain
  apply Runs.lift_bind hsources
  apply Runs.lift_bind h.destDomain
  apply Runs.lift_bind hdests
  apply Runs.bind (restrict_yields hw h.edges.2.denotes)
  intro f w1 hl1 hf
  refine Runs.pure hl1.after ⟨h.home.trans hl1.grows.id.symm, hf.congr fun t => ?_⟩
  rw [h.edges.1, reads_override hk (by omega) (by omega), edges_iff]

theorem Shows.edge_yieldsIff (h : a.Shows w.current g) (hw : w.current.WellFormed) :
    YieldsIff (p < a.stateCount ∧ q < a.stateCount) w (a.edge p q) fun on m =>
      on.Shows m (q ∈ g.step p ·) := by
  by_cases hp : p < a.stateCount
  · by_cases hq : q < a.stateCount
    · exact (h.edge_yields hw hp hq).yieldsIff ⟨hp, hq⟩
    · exact Runs.lift_bind (if_pos hp) (Runs.lift_error hw (if_neg hq) fun hpq => hq hpq.2)
  · exact Runs.lift_error hw (if_neg hp) fun hpq => hp hpq.1

theorem Shows.stateSet_yields {qs : List Nat} (h : a.Shows w.current g) (hw : w.current.WellFormed)
    (hqs : ∀ q ∈ qs, q < a.stateCount) :
    Yields w (a.stateSet qs) fun s m => s.domain = sourceBlock a.width ∧ s.Shows m (· ∈ qs) := by
  have hk := h.width_le
  unfold stateSet
  rw [h.states.1]
  apply ValueSet.ofList_yields hw
  · change a.width ≤ 64
    omega
  · exact source_end hk
  · exact fun v hv => Nat.lt_of_lt_of_le (hqs v hv) a.count_le_two_pow_width

theorem Shows.labels_states_yields (h : a.Shows w.current g) (hw : w.current.WellFormed)
    (hg : Bounded g (2 ^ a.width)) (hp : p < a.stateCount) (hq : q < a.stateCount) :
    Yields w (do a.edges.labels (← a.stateSet [p]) (← a.stateSet [q])) fun on m =>
      on.Shows m (q ∈ g.step p ·) := by
  have hn := a.count_le_two_pow_width
  have hsingle : ∀ {i : Nat} {s : ValueSet} {m : Manager}, i < a.stateCount →
      s.domain = sourceBlock a.width ∧ s.Shows m (· ∈ [i]) → s.Movable m a.width (· ∈ [i]) :=
    fun hi hs => ValueSet.movable_of_lt h.width_le hs fun v hv => by
      obtain rfl := List.mem_singleton.1 hv
      omega
  apply Runs.bind (h.stateSet_yields hw (by simpa using hp))
  intro s w1 hl1 hs
  apply Runs.bind ((h.later hl1).stateSet_yields hl1.after (by simpa using hq))
  intro t w2 hl2 ht
  have hs2 := hsingle hp ⟨hs.1, hs.2.later hl2⟩
  apply ((Relation.labels_yieldsIff hl2.after (h.later (hl1.trans hl2)).edges hg hs2.lands
    (hsingle hq ht).lands).yields ⟨trivial, trivial⟩).imp
  intro on w3 _ hon
  refine hon.congr fun c _ => ?_
  simp only [List.mem_singleton, exists_and_left, exists_eq_left]

theorem Shows.size_states (h : a.Shows m g) (hm : m.Canonical) :
    a.states.size m = .ok a.stateCount := by
  have hn := a.count_le_two_pow_width
  have hfew := h.few
  have hall : (Finset.range (2 ^ a.states.domain.len)).filter (· < a.stateCount) =
      Finset.range a.stateCount := by
    rw [h.states.1]
    ext v
    simp only [Finset.mem_filter, Finset.mem_range]
    exact and_iff_right_of_imp fun hv => Nat.lt_of_lt_of_le hv hn
  rw [ValueSet.size_eq (P := (· < a.stateCount)) hm h.states.2.denotes, hall, Finset.card_range,
    Nat.min_eq_left (by omega)]

end SymbolicNfa

theorem Layout.states_bitsNeeded (hn : n < 2 ^ 32) :
    Layout.states (bitsNeeded n) = .ok (sourceBlock (bitsNeeded n)) :=
  states_eq (bitsNeeded_le_iff.2 (Nat.le_of_lt hn))

namespace MatrixNfa

/-- The labels and the lists of states are those of an automaton. -/
structure Shows (a : MatrixNfa) (m : Manager) (g : NFA Nat Nat) : Prop where
  home : a.manager = m.id
  few : a.stateCount < 2 ^ 32
  labels : ∀ p < a.stateCount, ∀ q < a.stateCount, ∃ on, a.edge p q = .ok on ∧
    on.Shows m (q ∈ g.step p ·)
  starting : ∀ q, q ∈ a.starting ↔ q ∈ g.start
  accepting : ∀ q, q ∈ a.accepting ↔ q ∈ g.accept

variable {a : MatrixNfa} {s : ValueSet}

theorem Shows.later (h : a.Shows w.current g) (hl : w.Leads w') : a.Shows w'.current g where
  home := h.home.trans hl.grows.id.symm
  few := h.few
  labels p hp q hq := by
    obtain ⟨on, hedge, hon⟩ := h.labels p hp q hq
    exact ⟨on, hedge, hon.later hl⟩
  starting := h.starting
  accepting := h.accepting

theorem Shows.width_le (h : a.Shows m g) : bitsNeeded a.stateCount ≤ 32 :=
  bitsNeeded_le_iff.2 (Nat.le_of_lt h.few)

theorem Shows.states_yields (h : a.Shows w.current g) (hw : w.current.WellFormed) :
    Yields w a.states fun s m => s.domain = sourceBlock (bitsNeeded a.stateCount) ∧
      s.Shows m (· < a.stateCount) := by
  have hk := h.width_le
  apply Runs.lift_bind (states_bitsNeeded h.few)
  apply ValueSet.firstStates_yields hw
  · change bitsNeeded a.stateCount ≤ 64
    omega
  · exact SymbolicNfa.source_end hk
  · have := h.few
    omega

theorem Shows.stateSet_yields {qs : List Nat} (h : a.Shows w.current g) (hw : w.current.WellFormed)
    (hqs : ∀ q ∈ qs, q < a.stateCount) :
    Yields w (a.stateSet qs) fun s m => s.domain = sourceBlock (bitsNeeded a.stateCount) ∧
      s.Shows m (· ∈ qs) := by
  have hk := h.width_le
  have hn := le_two_pow_bitsNeeded a.stateCount
  apply Runs.bind (h.states_yields hw)
  intro s w1 hl1 hs
  rw [hs.1]
  apply ValueSet.ofList_yields hl1.after
  · change bitsNeeded a.stateCount ≤ 64
    omega
  · exact SymbolicNfa.source_end hk
  · exact fun v hv => Nat.lt_of_lt_of_le (hqs v hv) hn

theorem Shows.edge_yields (h : a.Shows w.current g) (hw : w.current.WellFormed)
    (hp : p < a.stateCount) (hq : q < a.stateCount) :
    Yields w (liftM (a.edge p q) : BddM SymbolSet) fun on m => on.Shows m (q ∈ g.step p ·) := by
  obtain ⟨on, hedge, hon⟩ := h.labels p hp q hq
  rw [hedge]
  exact Runs.pure hw hon

/-- Each label adds the letters of its edge. -/
theorem Shows.addLabel_yields {f : Ref} {F : Assignment → Prop} (h : a.Shows w.current g)
    (hw : w.current.WellFormed) (hp : p < a.stateCount) (hq : q < a.stateCount)
    (hf : w.current.Denotes f F) :
    Yields w (do
      let on ← a.edge p q
      if on.isEmpty then return f
      let x ← Bdd.value (sourceBlock (bitsNeeded a.stateCount)) p
      let y ← Bdd.value (destBlock (bitsNeeded a.stateCount)) q
      Bdd.disj f (← Bdd.conjAll [x, on.fn, y])) fun r m => m.Denotes r fun t => F t ∨
        ((sourceBlock (bitsNeeded a.stateCount)).read t = p ∧
        (destBlock (bitsNeeded a.stateCount)).read t = q ∧ q ∈ g.step p (alphabet.read t)) := by
  have hk := h.width_le
  have hn := le_two_pow_bitsNeeded a.stateCount
  have hlen : bitsNeeded a.stateCount ≤ 64 := by omega
  apply Runs.bind (h.edge_yields hw hp hq)
  intro on w1 hl1 hon
  by_cases hempty : on.isEmpty = true
  · rw [if_pos hempty]
    have hnone := (hon.isEmpty_iff hl1.after.canonical).1 hempty
    refine Runs.pure hl1.after ((hl1.denotes hf).congr fun t => ?_)
    constructor
    · exact .inl
    · rintro (ht | ⟨-, -, ht⟩)
      · exact ht
      · exact absurd ht (hnone _ (alphabet.read_lt t))
  · rw [if_neg hempty]
    apply Runs.bind (value_yields hl1.after hlen (SymbolicNfa.source_end hk)
      (Nat.lt_of_lt_of_le hp hn))
    intro x w2 hl2 hx
    apply Runs.bind (value_yields hl2.after hlen (SymbolicNfa.dest_end hk)
      (Nat.lt_of_lt_of_le hq hn))
    intro y w3 hl3 hy
    let parts : List (Ref × (Assignment → Prop)) :=
      [(x, fun t => (sourceBlock (bitsNeeded a.stateCount)).read t = p),
      (on.fn, fun t => q ∈ g.step p (alphabet.read t)),
      (y, fun t => (destBlock (bitsNeeded a.stateCount)).read t = q)]
    have hparts : ∀ e ∈ parts, w3.current.Denotes e.1 e.2 := by
      intro e he
      simp only [parts, List.mem_cons, List.not_mem_nil, or_false] at he
      rcases he with rfl | rfl | rfl
      · exact hl3.denotes hx
      · exact (hl2.trans hl3).denotes hon.denotes
      · exact hy
    apply Runs.bind (conjAll_yields hl3.after hparts)
    intro all w4 hl4 hall
    have hf4 := (hl1.trans (hl2.trans (hl3.trans hl4))).denotes hf
    apply (disj_yields hl4.after hf4 hall).imp
    intro r w5 _ hr
    refine hr.congr fun t => or_congr_right ?_
    simp only [parts, List.mem_cons, List.not_mem_nil, or_false, forall_eq_or_imp, forall_eq]
    tauto

theorem Shows.edges_yields (h : a.Shows w.current g) (hw : w.current.WellFormed)
    (hg : Contained g a.stateCount) :
    Yields w a.edges fun r m => r.domains = edgeBlocks (bitsNeeded a.stateCount) ∧
      r.Shows m (Edges g) := by
  have hk := h.width_le
  have hn := le_two_pow_bitsNeeded a.stateCount
  apply Runs.bind (h.states_yields hw)
  intro s w1 hl1 hs
  have hdlen : s.domain.len = bitsNeeded a.stateCount := by rw [hs.1]; rfl
  have hdbase : s.domain.base = 1 := by rw [hs.1]; rfl
  rw [hdlen]
  apply Runs.lift_bind (states_eq hk)
  apply Runs.lift_bind (dests_eq hk)
  obtain ⟨qs, hqs, -, hmem⟩ := ValueSet.toList_spec (P := (· < a.stateCount))
    hl1.after.canonical (by omega) (by omega) hs.2.denotes
  have hlt : ∀ v ∈ qs, v < a.stateCount := fun v hv => ((hmem v).1 hv).2
  have hall : ∀ v < a.stateCount, v ∈ qs := fun v hv =>
    (hmem v).2 ⟨by rw [hdlen]; omega, hv⟩
  apply Runs.ask_bind hqs
  apply Runs.bind (gather_yields hl1.after (.zero hl1.after.canonical) fun p hp w' f F hl' hf =>
    gather_yields hl'.after hf fun q hq w'' f F hl'' hf =>
      (h.later (hl1.trans (hl'.trans hl''))).addLabel_yields (p := p) (q := q) hl''.after
        (hlt p hp) (hlt q hq) hf)
  intro f w2 hl2 hf
  have hends : EndBy (2 ^ 31) (edgeBlocks (bitsNeeded a.stateCount)) :=
    (edgeBlocks_ends hk).mono (by have := edgeEnd_le; omega)
  apply Relation.ofFn_yields hl2.after (edgeBlocks_apart hk) hends
  refine hf.congr fun t => ?_
  change _ ↔ Edges g [_, _, _]
  rw [edges_iff, false_or]
  constructor
  · rintro ⟨p, -, q, -, rfl, rfl, ht⟩
    exact ht
  · intro ht
    exact ⟨_, hall _ (hg.source _ _ _ ht), _, hall _ (hg.target _ _ _ ht), rfl, rfl, ht⟩

end MatrixNfa

namespace Automaton

def size : Automaton → Nat
  | symbolic a => a.stateCount
  | matrix a => a.stateCount
  | relational a => a.stateCount
  | reversed a => a.size

/-- The automaton that an encoding shows. -/
inductive Shows (m : Manager) : Automaton → NFA Nat Nat → Prop
  | symbolic {a : SymbolicNfa} {g : NFA Nat Nat} (h : a.Shows m g) : Shows m (symbolic a) g
  | matrix {a : MatrixNfa} {g : NFA Nat Nat} (h : a.Shows m g) : Shows m (matrix a) g
  | relational {a : SymbolicNfa} {g : NFA Nat Nat} (h : a.Shows m g) : Shows m (relational a) g
  | reversed {a : Automaton} {g : NFA Nat Nat} (h : Shows m a g) : Shows m (reversed a) g.reverse

variable {a : Automaton} {s : ValueSet}

theorem Shows.later (h : Shows w.current a g) (hl : w.Leads w') : Shows w'.current a g := by
  induction h with
  | symbolic h => exact .symbolic (h.later hl)
  | matrix h => exact .matrix (h.later hl)
  | relational h => exact .relational (h.later hl)
  | reversed _ ih => exact .reversed ih

theorem Shows.home (h : Shows m a g) : a.manager = m.id := by
  induction h with
  | symbolic h => exact h.home
  | matrix h => exact h.home
  | relational h => exact h.home
  | reversed _ ih => exact ih

theorem Shows.few (h : Shows m a g) : a.size < 2 ^ 32 := by
  induction h with
  | symbolic h => exact h.few
  | matrix h => exact h.few
  | relational h => exact h.few
  | reversed _ ih => exact ih

/-- The manager of the automaton is at work already. -/
theorem Shows.within_yields {α : Type} {x : BddM α} {Q : α → Manager → Prop}
    (h : Shows w.current a g) (hx : Yields w x Q) : Yields w (a.within x) Q :=
  Runs.within h.home hx

def stateBlock (a : Automaton) : Domain := sourceBlock (bitsNeeded a.size)

theorem Shows.width_le (h : Shows m a g) : bitsNeeded a.size ≤ 32 :=
  bitsNeeded_le_iff.2 (Nat.le_of_lt h.few)

theorem Shows.count_yields (h : Shows w.current a g) (hw : w.current.WellFormed) :
    Yields w a.stateCount fun n _ => n = a.size := by
  induction h with
  | symbolic h => exact Runs.pure hw rfl
  | matrix h => exact Runs.pure hw rfl
  | relational h => exact Runs.ask hw (h.size_states hw.canonical) rfl
  | reversed _ ih => exact ih

theorem Shows.states_yields (h : Shows w.current a g) (hw : w.current.WellFormed) :
    Yields w a.states fun s m => s.domain = a.stateBlock ∧ s.Shows m (· < a.size) := by
  induction h with
  | symbolic h => exact Runs.pure hw h.states
  | matrix h => exact h.states_yields hw
  | relational h => exact Runs.pure hw h.states
  | reversed _ ih => exact ih

theorem Shows.stateSet_yields {qs : List Nat} (h : Shows w.current a g) (hw : w.current.WellFormed)
    (hqs : ∀ q ∈ qs, q < a.size) :
    Yields w (a.stateSet qs) fun s m => s.domain = a.stateBlock ∧ s.Shows m (· ∈ qs) := by
  have hk := h.width_le
  have hn := le_two_pow_bitsNeeded a.size
  apply Runs.bind (h.states_yields hw)
  intro s w1 hl1 hs
  rw [hs.1]
  apply ValueSet.ofList_yields hl1.after
  · change bitsNeeded a.size ≤ 64
    omega
  · exact SymbolicNfa.source_end hk
  · exact fun v hv => Nat.lt_of_lt_of_le (hqs v hv) hn

theorem Shows.ends_yields (h : Shows w.current a g) (hw : w.current.WellFormed)
    (hg : Contained g a.size) :
    Yields w (a.ends dir) fun s m => s.domain = a.stateBlock ∧ s.Shows m (· ∈ endsOf g dir) := by
  induction h generalizing dir with
  | symbolic h =>
    cases dir with
    | forward => exact Runs.pure hw h.starting
    | backward => exact Runs.pure hw h.accepting
  | matrix h =>
    cases dir with
    | forward =>
      apply (h.stateSet_yields hw fun q hq => hg.start q ((h.starting q).1 hq)).imp
      exact fun s w' _ hs => ⟨hs.1, hs.2.congr fun q _ => h.starting q⟩
    | backward =>
      apply (h.stateSet_yields hw fun q hq => hg.accept q ((h.accepting q).1 hq)).imp
      exact fun s w' _ hs => ⟨hs.1, hs.2.congr fun q _ => h.accepting q⟩
  | relational h =>
    cases dir with
    | forward => exact Runs.pure hw h.starting
    | backward => exact Runs.pure hw h.accepting
  | @reversed a g _ ih =>
    rw [endsOf_reverse]
    exact ih hg.of_reverse

theorem Shows.edge_yields (h : Shows w.current a g) (hw : w.current.WellFormed)
    (hg : Contained g a.size) (hp : p < a.size) (hq : q < a.size) :
    Yields w (a.edge p q) fun on m => on.Shows m (q ∈ g.step p ·) := by
  induction h generalizing p q with
  | symbolic h => exact h.edge_yields hw hp hq
  | matrix h => exact h.edge_yields hw hp hq
  | relational h => exact h.labels_states_yields hw hg.bounded hp hq
  | reversed _ ih => exact ih hg.of_reverse hq hp

/-- The automaton itself is symbolic, or the one that it is a view of. -/
def Symbolic : Automaton → Prop
  | symbolic _ => True
  | matrix _ | relational _ => False
  | reversed a => a.Symbolic

theorem Shows.edge_yieldsIff (h : Shows w.current a g) (ha : a.Symbolic)
    (hw : w.current.WellFormed) :
    YieldsIff (p < a.size ∧ q < a.size) w (a.edge p q) fun on m =>
      on.Shows m (q ∈ g.step p ·) := by
  induction h generalizing p q with
  | symbolic h => exact h.edge_yieldsIff hw
  | matrix _ | relational _ => exact ha.elim
  | reversed _ ih => exact (ih ha).congr and_comm

/-- For edges on the same letters two automata give the same set, one after the other. -/
theorem Shows.edge_agrees {b : Automaton} {g' : NFA Nat Nat} {i j : Nat} (ha : Shows w.current a g)
    (hb : Shows w.current b g') (hw : w.current.WellFormed) (hg : Contained g a.size)
    (hg' : Contained g' b.size) (hp : p < a.size) (hq : q < a.size) (hi : i < b.size)
    (hj : j < b.size)
    (hstep : ∀ c < letterCount, q ∈ g.step p c ↔ j ∈ g'.step i c) :
    ∃ on w₁ w₂, a.edge p q w = .ok on w₁ ∧ b.edge i j w₁ = .ok on w₂ := by
  obtain ⟨on, w₁, hrun, hl, hon⟩ := yields_iff.1 (ha.edge_yields hw hg hp hq)
  obtain ⟨on', w₂, hrun', hl', hon'⟩ := yields_iff.1
    ((hb.later hl).edge_yields hl.after hg' hi hj)
  obtain rfl : on = on' := (hon.later hl').unique
    (hon'.congr fun c hc => (hstep c hc).symm) hl'.after.canonical
  exact ⟨on, w₁, w₂, hrun, hrun'⟩

theorem Shows.step_yieldsIff {C : Prop} (h : Shows w.current a g) (hw : w.current.WellFormed)
    (hg : Contained g a.size) (hs : s.Lands w (bitsNeeded a.size) C P)
    (hon : w.current.Denotes on.fn fun t => L (Layout.alphabet.read t)) :
    YieldsIff C w (a.step dir s on) fun u m => u.domain = a.stateBlock ∧
      u.Shows m fun q => ∃ p, P p ∧ Hop g L dir p q := by
  induction h generalizing dir with
  | symbolic h => exact h.step_yieldsIff hw hg.bounded hs hon
  | @matrix a g h =>
    have hb : Bounded g (2 ^ bitsNeeded a.stateCount) := hg.bounded
    apply Runs.bind (Runs.weaken (h.states_yields hw))
    intro s1 w1 hl1 hs1
    apply Runs.bind (Runs.weaken ((h.later hl1).edges_yields hl1.after hg))
    intro r w2 hl2 hr
    have hl := hl1.trans hl2
    apply (Relation.step_yieldsIff hl2.after hr hb (hs.later hl) (hl.denotes hon)).bind_yields
    intro u w3 hl3 hu
    rw [hs1.1]
    exact hu.2.withDomain hl3.after (hu.1 ▸ fits_goalBlock h.width_le hb)
  | @relational a g h =>
    have hb : Bounded g (2 ^ bitsNeeded a.stateCount) := hg.bounded
    apply (Relation.step_yieldsIff hw h.edges hb hs hon).bind_yields
    intro u w1 hl1 hu
    rw [h.states.1]
    exact hu.2.withDomain hl1.after (hu.1 ▸ fits_goalBlock h.width_le hb)
  | reversed _ ih =>
    simp only [hop_reverse]
    exact ih hg.of_reverse hs

theorem Shows.step_yields (h : Shows w.current a g) (hw : w.current.WellFormed)
    (hg : Contained g a.size) (hs : s.Movable w.current (bitsNeeded a.size) P)
    (hon : w.current.Denotes on.fn fun t => L (Layout.alphabet.read t)) :
    Yields w (a.step dir s on) fun u m => u.domain = a.stateBlock ∧
      u.Shows m fun q => ∃ p, P p ∧ Hop g L dir p q :=
  (h.step_yieldsIff hw hg hs.lands hon).yields trivial

theorem Shows.labels_yieldsIff {t : ValueSet} {Q : Nat → Prop} {C D : Prop}
    (h : Shows w.current a g) (hw : w.current.WellFormed) (hg : Contained g a.size)
    (hs : s.Lands w (bitsNeeded a.size) C P) (ht : t.Lands w (bitsNeeded a.size) D Q) :
    YieldsIff (C ∧ D) w (a.labels s t) fun on m =>
      on.Shows m fun c => ∃ p q, P p ∧ Q q ∧ q ∈ g.step p c := by
  induction h generalizing s t C D P Q with
  | symbolic h | relational h => exact Relation.labels_yieldsIff hw h.edges hg.bounded hs ht
  | @matrix a g h =>
    apply Runs.bind (Runs.weaken (h.edges_yields hw hg))
    intro r w1 hl1 hr
    exact Relation.labels_yieldsIff hl1.after hr hg.bounded (hs.later hl1) (ht.later hl1)
  | reversed _ ih =>
    have hturned := ih hg.of_reverse ht hs
    apply (hturned.congr and_comm).imp
    intro on w1 _ hon
    refine hon.congr fun c _ => ?_
    rw [exists_comm]
    exact exists_congr fun p => exists_congr fun q => and_left_comm

theorem Shows.labels_yields {t : ValueSet} {Q : Nat → Prop} (h : Shows w.current a g)
    (hw : w.current.WellFormed) (hg : Contained g a.size)
    (hs : s.Movable w.current (bitsNeeded a.size) P)
    (ht : t.Movable w.current (bitsNeeded a.size) Q) :
    Yields w (a.labels s t) fun on m =>
      on.Shows m fun c => ∃ p q, P p ∧ Q q ∧ q ∈ g.step p c :=
  (h.labels_yieldsIff hw hg hs.lands ht.lands).yields ⟨trivial, trivial⟩

theorem Shows.reach_yieldsIff {C : Prop} (h : Shows w.current a g) (hw : w.current.WellFormed)
    (hg : Contained g a.size) (hs : s.Lands w (bitsNeeded a.size) C P)
    (hon : w.current.Denotes on.fn fun t => L (Layout.alphabet.read t)) :
    YieldsIff C w (a.reach dir s on) fun u m => u.domain = a.stateBlock ∧
      u.Shows m (ValueSet.Closure (Hop g L dir) P) := by
  have hb := hg.bounded
  apply Runs.bind (Runs.weaken (h.states_yields hw))
  intro states w1 hl1 hstates
  rw [hstates.1]
  apply (hs a.stateBlock rfl sourceBlock_base_le w1 hl1).bind_yields
  intro t w2 hl2 ht
  refine ValueSet.close_yields hl2.after h.width_le ?_ ht fun p q hop => hb.hop_target hop
  intro s P w' hl' hs'
  have hl := hl1.trans (hl2.trans hl')
  apply ((h.later hl).step_yields hl'.after hg (ValueSet.movable_block h.width_le hs')
    (hl.denotes hon)).imp
  exact fun u w3 _ hu => ⟨hu.1, hu.2.congr fun q _ => exists_hop_iff hb⟩

theorem Shows.reach_yields (h : Shows w.current a g) (hw : w.current.WellFormed)
    (hg : Contained g a.size) (hs : s.Movable w.current (bitsNeeded a.size) P)
    (hon : w.current.Denotes on.fn fun t => L (Layout.alphabet.read t)) :
    Yields w (a.reach dir s on) fun u m => u.domain = a.stateBlock ∧
      u.Shows m (ValueSet.Closure (Hop g L dir) P) :=
  (h.reach_yieldsIff hw hg hs.lands hon).yields trivial

theorem Shows.movable_ends (h : Shows m a g) (hg : Contained g a.size)
    (hs : s.domain = a.stateBlock ∧ s.Shows m (· ∈ endsOf g dir)) :
    s.Movable m (bitsNeeded a.size) (· ∈ endsOf g dir) := by
  have hgk := hg.mono (le_two_pow_bitsNeeded a.size)
  apply ValueSet.movable_of_lt h.width_le hs
  cases dir with
  | forward => exact hgk.start
  | backward => exact hgk.accept

/-- Where all letters lead from the ends of the automaton in a direction. -/
theorem Shows.reach_ends_yields (dir : Direction) (h : Shows w.current a g)
    (hw : w.current.WellFormed) (hg : Contained g a.size) :
    Yields w (do a.reach dir (← a.ends dir) a.alphabet) fun u m => u.domain = a.stateBlock ∧
      u.Shows m (ValueSet.Closure (Hop g (fun _ => True) dir) (· ∈ endsOf g dir)) := by
  apply Runs.bind (h.ends_yields hw hg)
  intro s w1 hl1 hs
  have h1 := h.later hl1
  exact h1.reach_yields hl1.after hg (h1.movable_ends hg hs)
    (SymbolicNfa.universal_denotes hl1.after.canonical _)

theorem Shows.reachable_yields (h : Shows w.current a g) (hw : w.current.WellFormed)
    (hg : Contained g a.size) :
    Yields w a.reachable fun u m => u.domain = a.stateBlock ∧ u.Shows m (Reachable g) := by
  apply (h.reach_ends_yields .forward hw hg).imp
  exact fun u w1 _ hu => ⟨hu.1, hu.2.congr fun _ _ => ValueSet.closure_forward_iff⟩

theorem Shows.productive_yields (h : Shows w.current a g) (hw : w.current.WellFormed)
    (hg : Contained g a.size) :
    Yields w a.productive fun u m => u.domain = a.stateBlock ∧ u.Shows m (Productive g) := by
  apply (h.reach_ends_yields .backward hw hg).imp
  exact fun u w1 _ hu => ⟨hu.1, hu.2.congr fun _ _ => ValueSet.closure_backward_iff⟩

theorem Shows.live_yields (h : Shows w.current a g) (hw : w.current.WellFormed)
    (hg : Contained g a.size) :
    Yields w a.live fun u m => u.domain = a.stateBlock ∧ u.Shows m (Live g) := by
  apply Runs.bind (h.reachable_yields hw hg)
  intro s w1 hl1 hs
  apply Runs.bind ((h.later hl1).productive_yields hl1.after hg)
  intro t w2 hl2 ht
  apply (ValueSet.inter_yields (hs.2.later hl2) ht.2 (hs.1.trans ht.1.symm) hl2.after).imp
  exact fun u w3 _ hu => ⟨hu.1.trans hs.1, hu.2⟩

def HasEdge : Automaton → Manager → Nat → Letter → Nat → Prop
  | symbolic a, m, p, x, q => a.HasEdge m p x q
  | matrix a, m, p, x, q =>
    p < a.stateCount ∧ q < a.stateCount ∧ ∃ on, a.edge p q = .ok on ∧ on.Has m x
  | relational a, m, p, x, q => a.HasEdge m p x q
  | reversed a, m, p, x, q => a.HasEdge m q x p

def Begins : Automaton → Manager → Direction → Nat → Prop
  | symbolic a, m, .forward, p => a.starting.contains p m = .ok true
  | symbolic a, m, .backward, p => a.accepting.contains p m = .ok true
  | matrix a, _, .forward, p => p ∈ a.starting
  | matrix a, _, .backward, p => p ∈ a.accepting
  | relational a, m, .forward, p => a.starting.contains p m = .ok true
  | relational a, m, .backward, p => a.accepting.contains p m = .ok true
  | reversed a, m, dir, p => a.Begins m dir.flip p

theorem Shows.hasEdge_iff {x : Letter} (h : Shows m a g) (hm : m.Canonical)
    (hg : Contained g a.size) : a.HasEdge m p x q ↔ q ∈ g.step p x.code := by
  induction h generalizing p q with
  | symbolic h | relational h => exact h.hasEdge_code_iff hm hg.toBounded
  | @matrix a g h =>
    constructor
    · rintro ⟨hp, hq, on, hedge, hhas⟩
      obtain ⟨on', hedge', hon⟩ := h.labels p hp q hq
      cases hedge.symm.trans hedge'
      exact (hon.has_iff hm).1 hhas
    · intro hstep
      have hp : p < a.stateCount := hg.source p _ q hstep
      have hq : q < a.stateCount := hg.target p _ q hstep
      obtain ⟨on, hedge, hon⟩ := h.labels p hp q hq
      exact ⟨hp, hq, on, hedge, (hon.has_iff hm).2 hstep⟩
  | reversed _ ih => exact ih hg.of_reverse

theorem Shows.begins_iff (h : Shows m a g) (hm : m.Canonical) (hg : Contained g a.size) :
    a.Begins m dir p ↔ p ∈ endsOf g dir := by
  induction h generalizing dir with
  | @symbolic a g h | @relational a g h =>
    have hn : a.stateCount ≤ 2 ^ a.width := a.count_le_two_pow_width
    cases dir with
    | forward => exact h.starts_iff hm hg.toBounded
    | backward =>
      change a.accepting.contains p m = .ok true ↔ p ∈ g.accept
      rw [SymbolicNfa.contains_sourceBlock_iff h.accepting hm h.width_le]
      exact and_iff_right_of_imp fun hp => Nat.lt_of_lt_of_le (hg.accept p hp) hn
  | matrix h =>
    cases dir with
    | forward => exact h.starting p
    | backward => exact h.accepting p
  | reversed _ ih =>
    rw [endsOf_reverse]
    exact ih hg.of_reverse

end Automaton

/-- The matrix is square, its labels are sets of letters, and all states are among its rows. -/
def MatrixNfa.WellFormed (a : MatrixNfa) (m : Manager) : Prop :=
  ∃ g, a.Shows m g ∧ Contained g a.stateCount

namespace Automaton

/-- The automaton itself is well-formed, or the one that it is a view of. -/
def WellFormed : Automaton → Manager → Prop
  | symbolic a, m => a.WellFormed m
  | matrix a, m => a.WellFormed m
  | relational a, m => a.WellFormed m
  | reversed a, m => a.WellFormed m

theorem WellFormed.exists_shows {a : Automaton} (h : a.WellFormed m) :
    ∃ g, Shows m a g ∧ Contained g a.size := by
  induction a with
  | symbolic a =>
    obtain ⟨g, hg, hcontained⟩ := h.shown
    exact ⟨g, .symbolic hg, hcontained⟩
  | matrix a =>
    obtain ⟨g, hg, hcontained⟩ := h
    exact ⟨g, .matrix hg, hcontained⟩
  | relational a =>
    obtain ⟨g, hg, hcontained⟩ := h.shown
    exact ⟨g, .relational hg, hcontained⟩
  | reversed a ih =>
    obtain ⟨g, hg, hcontained⟩ := ih h
    exact ⟨g.reverse, .reversed hg, hcontained.reverse⟩

end Automaton

end SymbolicAutomata
