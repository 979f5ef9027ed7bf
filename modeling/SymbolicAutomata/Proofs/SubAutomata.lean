import SymbolicAutomata.Proofs.Closures
import SymbolicAutomata.SubAutomaton
/-!
# Induced automata

States are carried along a relation to new states. Where the relation numbers some of the states by
their places in an ascending list this is a sub-automaton. No accepted word is lost when only the
states between a starting and an accepting one are kept.
-/
namespace SymbolicAutomata

open Manager Bdd Layout

/-- The automaton on the states that the relation leads to. -/
def carry (g : NFA Nat Nat) (R : Nat → Nat → Prop) : NFA Nat Nat where
  step i c := {j | ∃ p q, R p i ∧ R q j ∧ q ∈ g.step p c}
  start := {i | ∃ p, R p i ∧ p ∈ g.start}
  accept := {i | ∃ p, R p i ∧ p ∈ g.accept}

/-- The automaton on the listed states, each with its place as its number. -/
def renumber (g : NFA Nat Nat) (vs : List Nat) : NFA Nat Nat := carry g fun p i => vs[i]? = some p

variable {g : NFA Nat Nat} {vs cs : List Nat} {n k i j p q : Nat} {R : Nat → Nat → Prop}

theorem carry_contained (g : NFA Nat Nat) (hR : ∀ p i, R p i → i < n) :
    Contained (carry g R) n where
  start i := by
    rintro ⟨p, hp, -⟩
    exact hR p i hp
  source i c j := by
    rintro ⟨p, q, hp, -, -⟩
    exact hR p i hp
  target i c j := by
    rintro ⟨p, q, -, hq, -⟩
    exact hR q j hq
  accept i := by
    rintro ⟨p, hp, -⟩
    exact hR p i hp

theorem renumber_contained (g : NFA Nat Nat) (vs : List Nat) :
    Contained (renumber g vs) vs.length :=
  carry_contained g fun _ _ h => (List.getElem?_eq_some_iff.1 h).1

section Places

variable (hp : vs[i]? = some p)

include hp

theorem exists_place_iff {P : Nat → Prop} : (∃ q, vs[i]? = some q ∧ P q) ↔ P p := by
  rw [hp]
  simp

theorem mem_renumber_start : i ∈ (renumber g vs).start ↔ p ∈ g.start := exists_place_iff hp

theorem mem_renumber_accept : i ∈ (renumber g vs).accept ↔ p ∈ g.accept := exists_place_iff hp

theorem mem_renumber_step {c : Nat} (hq : vs[j]? = some q) :
    j ∈ (renumber g vs).step i c ↔ q ∈ g.step p c := by
  change (∃ p' q', vs[i]? = some p' ∧ vs[j]? = some q' ∧ q' ∈ g.step p' c) ↔ _
  simp only [exists_and_left, exists_place_iff hp, exists_place_iff hq]

end Places

/-- Every new step is a step of each of the states that it stands for. -/
def Lifts (g : NFA Nat Nat) (R : Nat → Nat → Prop) : Prop :=
  ∀ p i c j, c < letterCount → R p i → j ∈ (carry g R).step i c → ∃ q, R q j ∧ q ∈ g.step p c

theorem lifts_renumber : Lifts g fun p i => vs[i]? = some p := by
  rintro p i c j - hp ⟨p', q, hp', hq, hstep⟩
  obtain rfl : p = p' := Option.some.inj (hp.symm.trans hp')
  exact ⟨q, hq, hstep⟩

/-- A new run is a run of each of the states where it can begin. -/
theorem eval_of_carry (hR : Lifts g R) (hcs : Lettered cs) (hp : R p i)
    (h : j ∈ (carry g R).evalFrom {i} cs) : ∃ q, R q j ∧ q ∈ g.evalFrom {p} cs := by
  induction cs generalizing i p with
  | nil =>
    obtain rfl : j = i := h
    exact ⟨p, hp, rfl⟩
  | cons c cs ih =>
    rw [NFA.evalFrom_cons, NFA.stepSet_singleton, NFA.mem_evalFrom_iff_exists] at h
    obtain ⟨i', hstep, hrest⟩ := h
    obtain ⟨hc, hcs'⟩ := lettered_cons.1 hcs
    obtain ⟨q', hq', hstep⟩ := hR p i c i' hc hp hstep
    obtain ⟨q, hq, hrun⟩ := ih hcs' hq' hrest
    refine ⟨q, hq, ?_⟩
    rw [NFA.evalFrom_cons, NFA.stepSet_singleton, NFA.mem_evalFrom_iff_exists]
    exact ⟨q', hstep, hrun⟩

/-- A run through states that the relation covers is carried along. -/
theorem eval_carry (hp : R p i) (hq : q ∈ g.evalFrom {p} cs)
    (hcover : ∀ u v r, cs = u ++ v → r ∈ g.evalFrom {p} u → q ∈ g.evalFrom {r} v →
      ∃ j, R r j) : ∃ j, R q j ∧ j ∈ (carry g R).evalFrom {i} cs := by
  induction cs generalizing i p with
  | nil =>
    obtain rfl : q = p := hq
    exact ⟨i, hp, rfl⟩
  | cons c cs ih =>
    rw [NFA.evalFrom_cons, NFA.stepSet_singleton, NFA.mem_evalFrom_iff_exists] at hq
    obtain ⟨r, hstep, hrest⟩ := hq
    have hfirst : r ∈ g.evalFrom {p} [c] := by
      rwa [NFA.evalFrom_singleton, NFA.stepSet_singleton]
    obtain ⟨i', hr⟩ := hcover [c] cs r rfl hfirst hrest
    obtain ⟨j, hj, hrun⟩ := ih hr hrest fun u v r' heq hu hv => by
      refine hcover (c :: u) v r' (by rw [heq]; rfl) ?_ hv
      rw [NFA.evalFrom_cons, NFA.stepSet_singleton, NFA.mem_evalFrom_iff_exists]
      exact ⟨r, hstep, hu⟩
    refine ⟨j, hj, ?_⟩
    rw [NFA.evalFrom_cons, NFA.stepSet_singleton, NFA.mem_evalFrom_iff_exists]
    exact ⟨i', ⟨p, r, hp, hr, hstep⟩, hrun⟩

/-- Every state on a run to a live state is live. -/
theorem live_between (hcs : Lettered cs) (hp : p ∈ g.start) (hq : Productive g q) {u v : List Nat}
    {r : Nat} (hsplit : cs = u ++ v) (hu : r ∈ g.evalFrom {p} u) (hv : q ∈ g.evalFrom {r} v) :
    Live g r := by
  obtain ⟨e, he, t, hacc, hte⟩ := hq
  rw [hsplit, lettered_append] at hcs
  have hreach : Reachable g r := ⟨u, hcs.1, NFA.mem_evalFrom_iff_exists.2 ⟨p, hp, hu⟩⟩
  refine ⟨hreach, v ++ e, lettered_append.2 ⟨hcs.2, he⟩, t, hacc, ?_⟩
  rw [NFA.evalFrom_append, NFA.mem_evalFrom_iff_exists]
  exact ⟨q, hv, hte⟩

/-- A run to a live state is kept where all live states are. -/
theorem eval_renumber (hvs : ∀ v, Live g v → v ∈ vs) (hcs : Lettered cs) (hp : p ∈ g.start)
    (hq : Productive g q) (hrun : q ∈ g.evalFrom {p} cs) :
    ∃ i j : Nat, vs[i]? = some p ∧ vs[j]? = some q ∧ j ∈ (renumber g vs).evalFrom {i} cs := by
  have hlisted : ∀ u v r, cs = u ++ v → r ∈ g.evalFrom {p} u → q ∈ g.evalFrom {r} v →
      ∃ i : Nat, vs[i]? = some r := fun u v r hsplit hu hv =>
    List.mem_iff_getElem?.1 (hvs r (live_between hcs hp hq hsplit hu hv))
  obtain ⟨i, hi⟩ := hlisted [] cs p rfl rfl hrun
  obtain ⟨j, hj, hrun⟩ := eval_carry hi hrun hlisted
  exact ⟨i, j, hi, hj, hrun⟩

theorem evalFrom_renumber (hd : vs.Nodup) (hvs : ∀ v, v ∈ vs ↔ Live g v) (hcs : Lettered cs) :
    (renumber g vs).evalFrom (renumber g vs).start cs =
      {j | ∃ q, vs[j]? = some q ∧ q ∈ g.evalFrom g.start cs} := by
  ext j
  rw [NFA.mem_evalFrom_iff_exists]
  constructor
  · rintro ⟨i, ⟨p, hp, hstart⟩, hrun⟩
    obtain ⟨q, hq, hrun⟩ := eval_of_carry lifts_renumber hcs hp hrun
    exact ⟨q, hq, NFA.mem_evalFrom_iff_exists.2 ⟨p, hstart, hrun⟩⟩
  · rintro ⟨q, hq, hrun⟩
    obtain ⟨p, hstart, hrun⟩ := NFA.mem_evalFrom_iff_exists.1 hrun
    have hlive : Live g q := (hvs q).1 (List.mem_of_getElem? hq)
    obtain ⟨i, j', hi, hj', hrun⟩ :=
      eval_renumber (fun v => (hvs v).2) hcs hstart hlive.2 hrun
    obtain rfl : j' = j :=
      (List.getElem?_inj (List.getElem?_eq_some_iff.1 hj').1 hd).1 (hj'.trans hq.symm)
    exact ⟨i, ⟨p, hi, hstart⟩, hrun⟩

/-- The language needs no other states than the live ones. -/
theorem accepts_renumber (hvs : ∀ v, Live g v → v ∈ vs) (hcs : Lettered cs) :
    cs ∈ (renumber g vs).accepts ↔ cs ∈ g.accepts := by
  rw [mem_accepts_iff_exists, mem_accepts_iff_exists]
  constructor
  · rintro ⟨i, ⟨p, hp, hstart⟩, j, ⟨q, hq, hacc⟩, hrun⟩
    obtain ⟨q', hq', hrun⟩ := eval_of_carry lifts_renumber hcs hp hrun
    obtain rfl : q = q' := Option.some.inj (hq.symm.trans hq')
    exact ⟨p, hstart, q, hacc, hrun⟩
  · rintro ⟨p, hstart, q, hacc, hrun⟩
    have hproductive : Productive g q := ⟨[], lettered_nil, q, hacc, rfl⟩
    obtain ⟨i, j, hi, hj, hrun⟩ := eval_renumber hvs hcs hstart hproductive hrun
    exact ⟨i, ⟨p, hi, hstart⟩, j, ⟨q, hj, hacc⟩, hrun⟩

namespace SymbolicNfa

variable {w : Workspace} {a : SymbolicNfa} {keep : ValueSet} {K : Nat → Prop} {map : Relation}
  {index : Domain}

def Naming (R : Nat → Nat → Prop) (ts : List Nat) : Prop := ∃ p i, ts = [p, i] ∧ R p i

@[simp]
theorem naming_iff : Naming R [p, i] ↔ R p i := by
  constructor
  · rintro ⟨_, _, heq, h⟩
    cases heq
    exact h
  · exact fun h => ⟨p, i, rfl, h⟩

theorem image_naming_yields {s : ValueSet} {P : Nat → Prop} (hw : w.current.WellFormed)
    (hk : k ≤ 32) (hs : s.domain = sourceBlock k ∧ s.Shows w.current P)
    (hm : map.Shows w.current (Naming R)) (hmap : map.domains = [sourceBlock k, index])
    (hindex : index.len ≤ 32) (hR : ∀ p i, R p i → p < 2 ^ k) :
    Yields w (s.image map) fun u m => u.domain = sourceBlock index.len ∧
      u.Shows m fun i => ∃ p, R p i ∧ P p := by
  have hend : s.domain.base + s.domain.len ≤ 2 ^ 31 := by
    rw [hs.1]
    exact source_end hk
  have hend' : s.domain.base + index.len ≤ 2 ^ 31 := by
    rw [hs.1]
    exact source_end hindex
  refine (ValueSet.image_yields hw hs.2 hm hmap (by rw [hs.1]) hend hend').imp fun u w1 _ hu => ?_
  rw [hs.1] at hu
  refine ⟨hu.1, hu.2.congr fun i _ => ?_⟩
  simp only [naming_iff]
  constructor
  · rintro ⟨p, -, hp, hi⟩
    exact ⟨p, hi, hp⟩
  · rintro ⟨p, hi, hp⟩
    exact ⟨p, hR p i hi, hp, hi⟩

/-- Edges whose sources are carried along. -/
def HalfCarried (g : NFA Nat Nat) (R : Nat → Nat → Prop) (ts : List Nat) : Prop :=
  ∃ p i c q, ts = [i, c, q] ∧ R p i ∧ q ∈ g.step p c

@[simp]
theorem halfCarried_iff {c : Nat} :
    HalfCarried g R [i, c, q] ↔ ∃ p, R p i ∧ q ∈ g.step p c := by
  constructor
  · rintro ⟨p, _, _, _, heq, h⟩
    cases heq
    exact ⟨p, h⟩
  · exact fun ⟨p, h⟩ => ⟨p, i, c, q, rfl, h⟩

theorem carrySources_yields {r : Relation} (hw : w.current.WellFormed)
    (hr : r.domains = edgeBlocks k ∧ r.Shows w.current (Edges g))
    (hm : map.Shows w.current (Naming R)) (hmap : map.domains = [sourceBlock k, index])
    (hindex : index.len ≤ 32) (hR : ∀ p i, R p i → p < 2 ^ k) :
    Yields w (r.compose 0 map) fun u m =>
      u.domains = [sourceBlock index.len, alphabet, destBlock k] ∧
        u.Shows m (HalfCarried g R) := by
  refine (Relation.compose_yields (d := sourceBlock k) hw hr.2 hm (by rw [hr.1]; rfl) hmap rfl
    (source_end hindex) fun i e hi he => ?_).imp fun u w1 _ hu => ?_
  · rw [hr.1] at he
    match i with
    | 0 => exact absurd rfl hi
    | 1 => cases he; exact (source_apart_alphabet hindex).symm
    | 2 => cases he; exact (source_apart_dest hindex).symm
    | i + 3 => exact absurd he (by simp [edgeBlocks])
  · have hdom : u.domains = [sourceBlock index.len, alphabet, destBlock k] := by
      rw [hu.1, hr.1]
      rfl
    refine ⟨hdom, hu.2.congr fun ts hts => ?_⟩
    rw [hdom] at hts
    obtain ⟨i, c, q, rfl⟩ := List.length_eq_three.1 hts.length_eq
    simp only [List.set_cons_zero, List.getElem?_cons_zero, Option.some_inj, forall_eq', edges_iff,
      naming_iff, halfCarried_iff]
    constructor
    · rintro ⟨p, -, hstep, hp⟩
      exact ⟨p, hp, hstep⟩
    · rintro ⟨p, hp, hstep⟩
      exact ⟨p, hR p i hp, hstep, hp⟩

theorem carryTargets_yields {r : Relation} {l : Nat} (hw : w.current.WellFormed)
    (hr : r.domains = [sourceBlock l, alphabet, destBlock k] ∧
      r.Shows w.current (HalfCarried g R))
    (hm : map.Shows w.current (Naming R)) (hmap : map.domains = [sourceBlock k, index])
    (hindex : index.len = l) (hl : l ≤ 32) (hR : ∀ p i, R p i → p < 2 ^ k) :
    Yields w (r.compose 2 map) fun u m =>
      u.domains = edgeBlocks l ∧ u.Shows m (Edges (carry g R)) := by
  subst hindex
  refine (Relation.compose_yields (d := destBlock k) hw hr.2 hm (by rw [hr.1]; rfl) hmap rfl
    (dest_end hl) fun i e hi he => ?_).imp fun u w1 _ hu => ?_
  · rw [hr.1] at he
    match i with
    | 0 => cases he; exact source_apart_dest hl
    | 1 => cases he; exact (dest_apart_alphabet hl).symm
    | 2 => exact absurd rfl hi
    | i + 3 => exact absurd he (by simp)
  · have hdom : u.domains = edgeBlocks index.len := by
      rw [hu.1, hr.1]
      rfl
    refine ⟨hdom, hu.2.congr fun ts hts => ?_⟩
    rw [hdom] at hts
    obtain ⟨i, c, j, rfl, -⟩ := forall₂_edgeBlocks.1 hts
    simp only [List.set_cons_succ, List.set_cons_zero, List.getElem?_cons_succ,
      List.getElem?_cons_zero, Option.some_inj, forall_eq', edges_iff, naming_iff,
      halfCarried_iff]
    constructor
    · rintro ⟨q, -, ⟨p, hp, hstep⟩, hq⟩
      exact ⟨p, q, hp, hq, hstep⟩
    · rintro ⟨p, q, hp, hq, hstep⟩
      exact ⟨q, hR q j hq, ⟨p, hp, hstep⟩, hq⟩

theorem mapStates_yields (hw : w.current.WellFormed) (h : a.Shows w.current g)
    (hm : map.Shows w.current (Naming R)) (hmap : map.domains = [sourceBlock a.width, index])
    (hindex : index.len = bitsNeeded n) (hfew : n < 2 ^ 32)
    (hR : ∀ p i, R p i → p < 2 ^ a.width) :
    Yields w (a.mapStates map n) fun b m => b.stateCount = n ∧
      b.determinism = .unknown ∧ b.Shows m (carry g R) := by
  have hk := h.width_le
  have hk' : index.len ≤ 32 := hindex ▸ bitsNeeded_le_iff.2 (Nat.le_of_lt hfew)
  refine .bind (ofCount_yields hw hfew) fun b w1 hl1 hb => ?_
  obtain ⟨hcount, hflag, hb⟩ := hb
  have hwidth : b.width = index.len := by rw [hindex, width, hcount]
  have h1 := h.later hl1
  refine .bind (image_naming_yields hl1.after hk h1.starting (hm.later hl1) hmap hk' hR)
    fun s w2 hl2 hs => ?_
  have h2 := h1.later hl2
  have hm2 := (hm.later hl1).later hl2
  refine .bind (image_naming_yields hl2.after hk h2.accepting hm2 hmap hk' hR)
    fun t w3 hl3 ht => ?_
  have h3 := h2.later hl3
  have hm3 := hm2.later hl3
  refine .bind (carrySources_yields hl3.after h3.edges hm3 hmap hk' hR)
    fun r w4 hl4 hr => ?_
  refine .bind (carryTargets_yields hl4.after hr (hm3.later hl4) hmap rfl hk' hR)
    fun r' w5 hl5 hr' => ?_
  have hl345 := hl3.trans (hl4.trans hl5)
  have hb5 := hb.later (hl2.trans hl345)
  rw [← hwidth] at hs ht hr'
  exact Runs.pure hl5.after ⟨hcount, hflag, ⟨⟨hb5.home, hb5.states, ⟨hs.1, hs.2.later hl345⟩,
    ⟨ht.1, ht.2.later (hl4.trans hl5)⟩, hr'⟩, hb5.few⟩⟩

theorem size_yields {s : ValueSet} {P : Nat → Prop} (hw : w.current.WellFormed)
    (hs : s.domain = sourceBlock k ∧ s.Shows w.current P) (hk : k ≤ 32) :
    ∃ vs, s.toList w.current = .ok vs ∧ s.size w.current = .ok vs.length ∧
      vs.Pairwise (· < ·) ∧ ∀ v, v ∈ vs ↔ v < 2 ^ k ∧ P v := by
  classical
  have hlen : s.domain.len = k := by rw [hs.1]; rfl
  have hbase : s.domain.base = 1 := by rw [hs.1]; rfl
  obtain ⟨vs, hvs, hsorted, hmem⟩ := ValueSet.toList_spec hw.canonical (by omega) (by omega)
    hs.2.denotes
  have hcount := ValueSet.size_eq hw.canonical hs.2.denotes
  rw [hlen] at hmem hcount
  have hset : (Finset.range (2 ^ k)).filter P = vs.toFinset := by
    ext v
    rw [Finset.mem_filter, Finset.mem_range, List.mem_toFinset, hmem]
  have hnodup : vs.Nodup := hsorted.imp fun h => Nat.ne_of_lt h
  have hcard : vs.toFinset.card = vs.length := List.toFinset_card_of_nodup hnodup
  have hle : vs.length ≤ 2 ^ k := by
    rw [← hcard, ← hset]
    exact (Finset.card_filter_le _ _).trans_eq (Finset.card_range _)
  have hpow : 2 ^ k ≤ 2 ^ 32 := Nat.pow_le_pow_right (by decide) hk
  rw [hset, hcard, Nat.min_eq_left (by omega)] at hcount
  exact ⟨vs, hvs, hcount, hsorted, hmem⟩

theorem induced_yields {t : ValueSet} (hw : w.current.WellFormed) (h : a.Shows w.current g)
    (ht : t.domain = sourceBlock a.width ∧
      t.Shows w.current fun v => v < a.stateCount ∧ K v) :
    Yields w (do
      if t.isEmpty then return ← empty
      let n ← Bdd.ask t.size
      a.mapStates (← t.compress) n) fun b m => ∃ vs : List Nat,
      vs.Pairwise (· < ·) ∧ (∀ v, v ∈ vs ↔ v < a.stateCount ∧ K v) ∧
      b.stateCount = vs.length ∧ b.determinism = .unknown ∧ b.Shows m (renumber g vs) := by
  have hk := h.width_le
  have hn := a.count_le_two_pow_width
  have hfew := h.few
  obtain ⟨vs, hvs, hsize, hsorted, hmem⟩ := size_yields hw ht hk
  have hlisted : ∀ v, v ∈ vs ↔ v < a.stateCount ∧ K v := fun v => by
    rw [hmem]
    constructor
    · exact fun hv => hv.2
    · exact fun hv => ⟨by omega, hv⟩
  have hlen : t.domain.len = a.width := by rw [ht.1]; rfl
  have hbase : t.domain.base = 1 := by rw [ht.1]; rfl
  by_cases hempty : t.isEmpty
  · rw [if_pos hempty]
    have hnone := (ht.2.isEmpty_iff hw.canonical).1 hempty
    rw [hlen] at hnone
    obtain rfl : vs = [] := List.eq_nil_iff_forall_not_mem.2 fun v hv =>
      hnone v ((hmem v).1 hv).1 ((hmem v).1 hv).2
    refine (ofCount_yields hw (by decide : 0 < 2 ^ 32)).imp fun b w1 _ hb => ?_
    refine ⟨[], .nil, hlisted, hb.1, hb.2.1, ?_⟩
    have hbare : renumber g [] = bare := by simp [renumber, carry, bare]
    rw [hbare]
    exact hb.2.2
  · rw [if_neg hempty]
    have hcount : vs.length < 2 ^ 32 := by
      have hsub : vs.toFinset ⊆ Finset.range a.stateCount := fun v hv =>
        Finset.mem_range.2 ((hlisted v).1 (List.mem_toFinset.1 hv)).1
      have hcard := Finset.card_le_card hsub
      rw [Finset.card_range, List.toFinset_card_of_nodup (hsorted.imp fun h => Nat.ne_of_lt h)]
        at hcard
      omega
    have hbits : bitsNeeded vs.length ≤ 32 := bitsNeeded_le_iff.2 (Nat.le_of_lt hcount)
    have hsmall : ∀ v ∈ vs, v < 2 ^ a.width := fun v hv => ((hmem v).1 hv).1
    refine .ask_bind hsize (.bind (ValueSet.compress_yields hw hvs
      (by rw [hlen]; exact hsmall) (by omega) (by omega) (by omega)) fun map w1 hl1 hmap => ?_)
    obtain ⟨index, hdom, hindex, hmap⟩ := hmap
    rw [ht.1] at hdom
    exact (mapStates_yields (R := fun p i => vs[i]? = some p) hl1.after (h.later hl1) hmap hdom
      hindex hcount fun p i hp => hsmall p (List.mem_of_getElem? hp)).imp
      fun b w2 _ hb => ⟨vs, hsorted, hlisted, hb⟩

theorem filter_yields (hw : w.current.WellFormed) (h : a.Shows w.current g)
    (hkeep : keep.Shows w.current K) (hend : keep.domain.base + keep.domain.len < 2 ^ 32)
    (hlen : keep.domain.len ≤ 64) :
    Yields w (a.filter keep) fun b m => ∃ vs : List Nat, vs.Pairwise (· < ·) ∧
      (∀ v, v ∈ vs ↔ v < a.stateCount ∧ v < 2 ^ keep.domain.len ∧ K v) ∧
      b.stateCount = vs.length ∧ b.determinism = .unknown ∧ b.Shows m (renumber g vs) := by
  have hk := h.width_le
  have hn := a.count_le_two_pow_width
  have hstates : a.states.domain = sourceBlock a.width := h.states.1
  have hwidth : a.states.domain.len = a.width := by rw [hstates]; rfl
  have hbase : a.states.domain.base = 1 := by rw [hstates]; rfl
  apply Runs.bind (ValueSet.inter_wider_yields hw h.states.2 hkeep (by omega) hend (by omega) hlen)
  rintro s w1 hl1 ⟨hsd, hs⟩
  have h1 := h.later hl1
  have hkept : s.Shows w1.current fun v => v < a.stateCount ∧ v < 2 ^ keep.domain.len ∧ K v := by
    refine hs.congr fun v _ => and_congr_left fun _ => and_iff_right_of_imp fun hv => ?_
    rw [hwidth]
    exact Nat.lt_of_lt_of_le hv hn
  have hfit : s.domain.Fits (sourceBlock a.width)
      fun v => v < a.stateCount ∧ v < 2 ^ keep.domain.len ∧ K v := by
    have hsbase : s.domain.base = 1 := by rw [hsd]; exact hbase
    have hslen : s.domain.len = max a.width keep.domain.len := by rw [hsd, ← hwidth]; rfl
    constructor
    · omega
    · exact source_end hk
    · change s.domain.len ≤ a.width + 64
      omega
    · change a.width ≤ s.domain.len + 64
      omega
    · intro v hv
      have hsmall : v < 2 ^ a.width := Nat.lt_of_lt_of_le hv.1 hn
      exact ⟨Nat.lt_of_lt_of_le hsmall (Nat.pow_le_pow_right (by decide) (by omega)), hsmall⟩
  apply Runs.lift_bind h1.stateDomain
  apply Runs.bind (hkept.withDomain hl1.after hfit)
  exact fun t w2 hl2 ht => induced_yields hl2.after (h1.later hl2) ht

theorem filterBlock_yields (hw : w.current.WellFormed) (h : a.Shows w.current g)
    (hkeep : keep.domain = sourceBlock a.width ∧ keep.Shows w.current K) :
    Yields w (a.filter keep) fun b m => ∃ vs : List Nat,
      vs.Pairwise (· < ·) ∧ (∀ v, v ∈ vs ↔ v < a.stateCount ∧ K v) ∧
      b.stateCount = vs.length ∧ b.determinism = .unknown ∧ b.Shows m (renumber g vs) := by
  have hk := h.width_le
  have hn := a.count_le_two_pow_width
  have hlen : keep.domain.len = a.width := by rw [hkeep.1]; rfl
  have hbase : keep.domain.base = 1 := by rw [hkeep.1]; rfl
  apply (filter_yields hw h hkeep.2 (by omega) (by omega)).imp
  rintro b w1 - ⟨vs, hsorted, hvs, hb⟩
  refine ⟨vs, hsorted, fun v => ?_, hb⟩
  rw [hvs v, hlen]
  exact and_congr_right fun hv => and_iff_right (Nat.lt_of_lt_of_le hv hn)

/-- The live states are kept and numbered in ascending order. -/
theorem filterLive_shows (hw : w.current.WellFormed) (h : a.Shows w.current g)
    (hg : Bounded g a.stateCount) :
    Yields w a.filterLive fun b m => b.determinism = .unknown ∧ ∃ vs : List Nat,
      vs.Nodup ∧ (∀ v, v ∈ vs ↔ Live g v) ∧ b.stateCount = vs.length ∧
      b.Shows m (renumber g vs) := by
  have hn := a.count_le_two_pow_width
  refine .bind (h.live_yields hw (hg.mono hn)) fun s w1 hl1 hs => ?_
  refine (filterBlock_yields hl1.after (h.later hl1) hs).imp fun b w2 _ hb => ?_
  obtain ⟨vs, hsorted, hvs, hcount, hflag, hb⟩ := hb
  refine ⟨hflag, vs, hsorted.imp fun h => Nat.ne_of_lt h, fun v => ?_, hcount, hb⟩
  rw [hvs v]
  exact and_iff_right_of_imp fun hv => hg.reachable_lt hv.1

end SymbolicNfa

end SymbolicAutomata
