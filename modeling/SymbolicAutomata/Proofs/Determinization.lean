import SymbolicAutomata.Proofs.PowerStates
import Mathlib.Data.Set.Card
/-!
# Determinization

The numbered power-states form an automaton with one run on each word. The transitions of all of
them are one function, whose moves are redirected to numbers. An unused source number moves nowhere,
which looks like a move to the empty power-state, so the sources are restricted afterwards.
-/
namespace SymbolicAutomata

open Manager Bdd Layout SymbolicNfa

/-- The sets of states as states, each with its place as its number. -/
def subsets (g : NFA Nat Nat) (Ss : List (Set Nat)) : NFA Nat Nat where
  step i c := {j | ∃ S, Ss[i]? = some S ∧ Ss[j]? = some (g.stepSet S c)}
  start := {0}
  accept := {i | ∃ S, Ss[i]? = some S ∧ ∃ q ∈ S, q ∈ g.accept}

/-- Different sets that begin with the starting states and are closed under moves. -/
structure Family (g : NFA Nat Nat) (Ss : List (Set Nat)) : Prop where
  first : Ss[0]? = some g.start
  distinct : Ss.Nodup
  closed : ∀ S ∈ Ss, ∀ c < letterCount, g.stepSet S c ∈ Ss

variable {m : Manager} {w w' : Workspace} {g : NFA Nat Nat} {k n i j : Nat} {S T : Set Nat}
  {p q f : Ref} {found followed : List Ref} {Ss : List (Set Nat)} {cs : List Nat}

theorem Family.at_eq (h : Family g Ss) (hi : Ss[i]? = some S) (hj : Ss[j]? = some S) : i = j :=
  (List.getElem?_inj (List.getElem?_eq_some_iff.1 hi).1 h.distinct).1 (hi.trans hj.symm)

/-- The run on a word leads to the number of the set that the word leads to. -/
theorem Family.eval_iff (h : Family g Ss) (hcs : Lettered cs) (hS : Ss[i]? = some S) :
    j ∈ (subsets g Ss).evalFrom {i} cs ↔ Ss[j]? = some (g.evalFrom S cs) := by
  induction cs generalizing i S with
  | nil =>
    constructor
    · intro hj
      obtain rfl : j = i := hj
      exact hS
    · exact fun hj => h.at_eq hj hS
  | cons c cs ih =>
    obtain ⟨hc, hrest⟩ := lettered_cons.1 hcs
    obtain ⟨l, hl⟩ := List.mem_iff_getElem?.1 (h.closed S (List.mem_of_getElem? hS) c hc)
    have hstep : (subsets g Ss).step i c = {l} := by
      ext x
      constructor
      · rintro ⟨T, hT, hx⟩
        obtain rfl := Option.some.inj (hS.symm.trans hT)
        exact h.at_eq hx hl
      · intro hx
        obtain rfl : x = l := hx
        exact ⟨S, hS, hl⟩
    rw [NFA.evalFrom_cons, NFA.evalFrom_cons, NFA.stepSet_singleton, hstep]
    exact ih hrest hl

theorem Family.evalFrom_mem (h : Family g Ss) (hcs : Lettered cs) (hS : S ∈ Ss) :
    g.evalFrom S cs ∈ Ss := by
  induction cs generalizing S with
  | nil => exact hS
  | cons c cs ih =>
    obtain ⟨hc, hrest⟩ := lettered_cons.1 hcs
    exact ih hrest (h.closed S hS c hc)

/-- Each set of the family is reached, so its number is. -/
theorem Family.reachable (h : Family g Ss) (hreached : ∀ S ∈ Ss, Reached g S) (hi : i < Ss.length) :
    Reachable (subsets g Ss) i := by
  obtain ⟨cs, hcs, hS⟩ := hreached Ss[i] (List.getElem_mem hi)
  refine ⟨cs, hcs, (h.eval_iff hcs h.first).2 ?_⟩
  rw [List.getElem?_eq_getElem hi, hS]

theorem Family.accepts_iff (h : Family g Ss) (hcs : Lettered cs) :
    cs ∈ (subsets g Ss).accepts ↔ cs ∈ g.accepts := by
  have hrun := fun j => h.eval_iff (j := j) hcs h.first
  constructor
  · rintro ⟨j, ⟨S, hS, q, hq, hacc⟩, hj⟩
    obtain rfl := Option.some.inj (hS.symm.trans ((hrun j).1 hj))
    exact ⟨q, hacc, hq⟩
  · rintro ⟨q, hacc, hq⟩
    obtain ⟨j, hj⟩ := List.mem_iff_getElem?.1
      (h.evalFrom_mem hcs (List.mem_of_getElem? h.first))
    exact ⟨j, ⟨_, hj, q, hq, hacc⟩, (hrun j).2 hj⟩

theorem Family.contained (h : Family g Ss) : Contained (subsets g Ss) Ss.length where
  start i hi := by
    obtain rfl : i = 0 := hi
    exact (List.getElem?_eq_some_iff.1 h.first).1
  source i c j := by
    rintro ⟨S, hS, -⟩
    exact (List.getElem?_eq_some_iff.1 hS).1
  target i c j := by
    rintro ⟨S, -, hT⟩
    exact (List.getElem?_eq_some_iff.1 hT).1
  accept i := by
    rintro ⟨S, hS, -⟩
    exact (List.getElem?_eq_some_iff.1 hS).1

theorem Family.deterministic (h : Family g Ss) : Deterministic (subsets g Ss) Ss.length where
  start := ⟨0, rfl, fun _ hp => hp⟩
  successor i hi c hc := by
    have hS : Ss[i]? = some Ss[i] := List.getElem?_eq_getElem hi
    obtain ⟨j, hj⟩ := List.mem_iff_getElem?.1 (h.closed _ (List.getElem_mem hi) c hc)
    refine ⟨j, ⟨_, hS, hj⟩, ?_⟩
    rintro j' ⟨S, hS', hj'⟩
    obtain rfl := Option.some.inj (hS.symm.trans hS')
    exact h.at_eq hj' hj

theorem Explored.family (h : Explored m g k Ss found followed) (hm : m.Canonical)
    (hlen : followed.length = found.length) : Family g Ss where
  first := h.first
  distinct := nodup_of_named h.named hm h.distinct
  closed S hS := by
    obtain ⟨i, hi⟩ := List.mem_iff_getElem?.1 hS
    have hlt := (List.getElem?_eq_some_iff.1 hi).1
    have hlt' : i < followed.length := by rw [hlen, ← h.named.length_eq]; exact hlt
    obtain ⟨T, hT, -, hclosed⟩ := h.moves i _ (List.getElem?_eq_getElem hlt')
    obtain rfl := Option.some.inj (hi.symm.trans hT)
    exact hclosed

/-- The edges of an automaton with the destinations in the scratch block. -/
def powerBlocks (k : Nat) : List Domain := [sourceBlock k, alphabet, scratch k]

theorem scratch_base_le : (scratch k).base ≤ edgeEnd := by change 65633 ≤ edgeEnd; decide

theorem source_apart_scratch {l : Nat} (hk : k ≤ 32) : (sourceBlock k).Apart (scratch l) :=
  Domain.apart_of_le (by
    change 1 + k ≤ 65633
    omega)

theorem alphabet_apart_scratch : alphabet.Apart (scratch k) := Domain.apart_of_le (Nat.le_refl _)

theorem power_edges_yields {a : SymbolicNfa} (hw : w.current.WellFormed)
    (h : a.Shows w.current g) (hg : Bounded g (2 ^ a.width)) :
    Yields w (a.edges.withDomain 2 (scratch a.width)) fun r m =>
      r.domains = powerBlocks a.width ∧ r.Shows m (Edges g) := by
  have hk := h.width_le
  refine (Relation.withDomain_yields (d := destBlock a.width) hw h.edges.2
    (by rw [h.edges.1]; rfl) (fun i d hi hd => ?_) ?_).imp fun r w1 _ hr => ⟨?_, hr.2⟩
  · rw [h.edges.1] at hd
    match i with
    | 0 => cases hd; exact source_apart_scratch hk
    | 1 => cases hd; exact alphabet_apart_scratch
    | 2 => exact absurd rfl hi
    | i + 3 => exact absurd hd (by simp [edgeBlocks])
  · refine fits_of_small hk hk destBlock_base_le scratch_base_le ?_
    rintro v ⟨_, hv, p, c, q, rfl, hq⟩
    obtain rfl : q = v := Option.some.inj hv
    exact ⟨hg.target p c q hq, hg.target p c q hq⟩
  · rw [hr.1, h.edges.1]
    rfl

theorem powerMoves_yields {edges : Relation} (hw : w.current.WellFormed) (hk : k ≤ 32)
    (he : edges.domains = powerBlocks k ∧ edges.Shows w.current (Edges g))
    (hp : Power w.current k S p) (hS : ∀ v ∈ S, v < 2 ^ k) :
    Yields w (powerMoves edges (sourceBlock k) (scratch k) p) fun f m => Moves m g k S f := by
  refine .bind (ValueSet.ofFn_yields (P := (· ∈ S)) hw hp) fun s w1 hl1 hs => ?_
  have hfit : ∀ d : Domain, d = scratch k → d.Fits (sourceBlock k) (· ∈ S) := by
    rintro _ rfl
    exact fits_of_small hk hk scratch_base_le sourceBlock_base_le fun v hv => ⟨hS v hv, hS v hv⟩
  refine .bind (hs.2.withDomain hl1.after (hfit _ hs.1)) fun source w2 hl2 hsource => ?_
  have hback : source.domain.Fits (sourceBlock k) (· ∈ S) := by
    rw [hsource.1]
    exact fits_of_small hk hk sourceBlock_base_le sourceBlock_base_le
      fun v hv => ⟨hS v hv, hS v hv⟩
  refine .bind (Relation.restrict_yields hl2.after (he.2.later (hl1.trans hl2)) hsource.2
    (by rw [he.1]; rfl) hback) fun r w3 hl3 hr => ?_
  refine .bind (Relation.project_yields (d := sourceBlock k) hl3.after hr.2
    (by rw [hr.1, he.1]; rfl)) fun u w4 hl4 hu => ?_
  refine Runs.pure hl4.after (hu.2.denotes.congr fun t => ?_)
  rw [hu.1, hr.1, he.1, NFA.mem_stepSet]
  change (∃ v < 2 ^ k, Edges g [v, alphabet.read t, (scratch k).read t] ∧
    ∀ x, some v = some x → x ∈ S) ↔ _
  simp only [edges_iff, Option.some_inj, forall_eq']
  constructor
  · rintro ⟨v, -, hstep, hv⟩
    exact ⟨v, hv, hstep⟩
  · rintro ⟨v, hv, hstep⟩
    exact ⟨v, hS v hv, hstep, hv⟩

/-- The states reached from a numbered set; none from a number that is not used. -/
def target (g : NFA Nat Nat) (Ss : List (Set Nat)) (i c : Nat) : Set Nat :=
  {q | ∃ S, Ss[i]? = some S ∧ q ∈ g.stepSet S c}

def Redirected (g : NFA Nat Nat) (Ss : List (Set Nat)) (ts : List Nat) : Prop :=
  ∃ i c j, ts = [i, c, j] ∧ Ss[j]? = some (target g Ss i c)

theorem redirected_iff {c : Nat} :
    Redirected g Ss [i, c, j] ↔ Ss[j]? = some (target g Ss i c) := by
  constructor
  · rintro ⟨_, _, _, heq, hj⟩
    cases heq
    exact hj
  · exact fun hj => ⟨i, c, j, rfl, hj⟩

theorem target_eq {c : Nat} (hS : Ss[i]? = some S) : target g Ss i c = g.stepSet S c := by
  ext q
  constructor
  · rintro ⟨T, hT, hq⟩
    rwa [Option.some.inj (hS.symm.trans hT)]
  · exact fun hq => ⟨S, hS, hq⟩

theorem combined_yields (hw : w.current.WellFormed) (h : Explored w.current g k Ss found followed)
    (hlen : followed.length = found.length) (hn : n ≤ 32) (hfew : found.length ≤ 2 ^ n) :
    Yields w (disjMap (fun (f, q) => do conj (← value (sourceBlock n) q) f) followed.zipIdx)
      fun r m => m.Denotes r fun t => (scratch k).read t ∈
        target g Ss ((sourceBlock n).read t) (alphabet.read t) := by
  refine (disjMap_yields (P := fun e t => (sourceBlock n).read t = e.2 ∧ ∃ S, Ss[e.2]? = some S ∧
    (scratch k).read t ∈ g.stepSet S (alphabet.read t)) hw fun e he w1 hl1 => ?_).imp
    fun r w2 hl2 hr => hr.congr fun t => ?_
  · obtain ⟨f, i⟩ := e
    have hf := List.mem_zipIdx_iff_getElem?.1 he
    have hi := (List.getElem?_eq_some_iff.1 hf).1
    obtain ⟨S, hS, hmoves, -⟩ := h.moves i f hf
    refine .bind (value_yields hl1.after (by change n ≤ 64; omega) (source_end hn)
      (by change i < 2 ^ n; omega)) fun x w2 hl2 hx => ?_
    refine (conj_yields hl2.after hx ((hl1.trans hl2).denotes hmoves)).imp
      fun r w3 _ hr => hr.congr fun t => and_congr_right fun _ => ?_
    constructor
    · exact fun hq => ⟨S, hS, hq⟩
    · rintro ⟨T, hT, hq⟩
      rwa [Option.some.inj (hS.symm.trans hT)]
  · constructor
    · rintro ⟨⟨f, i⟩, -, rfl, hq⟩
      exact hq
    · rintro ⟨S, hS, hq⟩
      have hi := (List.getElem?_eq_some_iff.1 hS).1
      have hi' : (sourceBlock n).read t < followed.length := by
        rw [hlen, ← h.named.length_eq]
        exact hi
      exact ⟨(followed[(sourceBlock n).read t], (sourceBlock n).read t),
        List.mem_zipIdx_iff_getElem?.2 (List.getElem?_eq_getElem hi'), rfl, S, hS, hq⟩

theorem numbered_yields (hw : w.current.WellFormed) (hd : found.Nodup) (hn : n ≤ 32)
    (hfew : found.length ≤ 2 ^ n) :
    Yields w (numbered found (destBlock n) p) fun r m =>
      m.Denotes r fun t => found[(destBlock n).read t]? = some p := by
  unfold numbered
  cases hp : found.idxOf? p with
  | none =>
    have hnot : p ∉ found := List.idxOf?_eq_none_iff.1 hp
    refine Runs.pure hw ((Denotes.zero hw.canonical).congr fun t => ?_)
    exact iff_of_false id fun h => hnot (List.mem_of_getElem? h)
  | some i =>
    obtain ⟨hi, hpi, -⟩ := List.idxOf?_eq_some_iff.1 hp
    have hget : found[i]? = some p := List.getElem?_eq_some_iff.2 ⟨hi, hpi⟩
    refine (value_yields hw (by change n ≤ 64; omega) (dest_end hn)
      (by change i < 2 ^ n; omega)).imp fun r w1 _ hr => hr.congr fun t => ?_
    constructor
    · rintro rfl
      exact hget
    · exact fun h => ((List.getElem?_inj hi hd).1 (hget.trans h.symm)).symm

theorem redirected_yields {combined : Ref} (hw : w.current.WellFormed) (hg : Bounded g (2 ^ k))
    (h : Explored w.current g k Ss found followed) (hn : n ≤ 32) (hfew : found.length ≤ 2 ^ n)
    (hc : w.current.Denotes combined fun t => (scratch k).read t ∈
      target g Ss ((sourceBlock n).read t) (alphabet.read t)) :
    Yields w ((replaceBelow combined scratchBase
        fun p => StateT.lift (numbered found (destBlock n) p)).run' ()) fun r m =>
      m.Denotes r fun t => Ss[(destBlock n).read t]? =
        some (target g Ss ((sourceBlock n).read t) (alphabet.read t)) := by
  have hm := hw.canonical
  refine (replaceBelow_yields hw hc.has fun w1 p hl1 _ =>
    numbered_yields hl1.after h.distinct hn hfew).imp fun r w2 _ hr => hr.congr fun t => ?_
  have hpower : ∀ p, w.current.Remains scratchBase combined t p →
      Power w.current k (target g Ss ((sourceBlock n).read t) (alphabet.read t)) p := by
    intro p hp
    refine (hp.denotes hm hc).congr fun u => ?_
    have hsource : (sourceBlock n).read (fun v => if v < scratchBase then t v else u v) =
        (sourceBlock n).read t := by
      refine Domain.read_congr fun v _ hv => if_pos ?_
      change v < 1 + n at hv
      change v < 65633
      omega
    rw [hsource, (read_mix k t u).1, (read_mix k t u).2]
  have hsmall : ∀ i c, ∀ v ∈ target g Ss i c, v < 2 ^ k := by
    rintro i c v ⟨S, -, hv⟩
    obtain ⟨p, -, hp⟩ := NFA.mem_stepSet.1 hv
    exact hg.target p c v hp
  constructor
  · rintro ⟨p, hp, hat⟩
    obtain ⟨T, hT, hpower'⟩ := named_at h.named hat
    rwa [(hpower p hp).injective hpower' (hsmall _ _)
      ((h.reached T (List.mem_of_getElem? hT)).lt hg)]
  · intro hat
    obtain ⟨p, hp, hpower'⟩ := at_named h.named hat
    obtain ⟨p', hp', -⟩ := exists_remains hm hc.has scratchBase t
    obtain rfl := hpower'.unique hm (hpower p' hp')
    exact ⟨p, hp', hp⟩

def Meets (Ss : List (Set Nat)) (T : Set Nat) (i : Nat) : Prop :=
  ∃ S, Ss[i]? = some S ∧ ∃ q ∈ S, q ∈ T

theorem meeting_from {acc : Ref} {F : Assignment → Prop} {l : List (Ref × Nat)}
    (hw : w.current.WellFormed) (hn : n ≤ 32) (hf : Power w.current k T f)
    (hacc : w.current.Denotes acc F)
    (hl : ∀ e ∈ l, e.2 < 2 ^ n ∧ ∃ S, Ss[e.2]? = some S ∧ Power w.current k S e.1 ∧
      ∀ v ∈ S, v < 2 ^ k) :
    Yields w (l.foldlM (fun acc (p, i) => do
      if (← conj p f) = .zero then return acc
      disj acc (← value (sourceBlock n) i)) acc) fun r m => m.Denotes r fun t =>
        F t ∨ ∃ e ∈ l, (sourceBlock n).read t = e.2 ∧ Meets Ss T e.2 := by
  apply gather_yields hw hacc
  rintro ⟨p, i⟩ he w' acc F hl' hacc
  obtain ⟨hi, S, hS, hp, hsmall⟩ := hl (p, i) he
  simp only at hi hS hp
  have hmeets : Meets Ss T i ↔ ∃ t, (scratch k).read t ∈ S ∧ (scratch k).read t ∈ T := by
    constructor
    · rintro ⟨S', hS', q, hq, hqT⟩
      obtain rfl := Option.some.inj (hS.symm.trans hS')
      have hread : (scratch k).read ((scratch k).write q fun _ => false) = q :=
        Domain.read_write (d := scratch k) (hsmall q hq) _
      exact ⟨(scratch k).write q fun _ => false, hread.symm ▸ hq, hread.symm ▸ hqT⟩
    · rintro ⟨t, hq, hqT⟩
      exact ⟨S, hS, _, hq, hqT⟩
  refine .bind (conj_yields hl'.after (hp.later hl') (hf.later hl')) fun r w1 hl1 hr => ?_
  have hzero := hr.eq_zero_iff hl1.after.canonical
  by_cases hnone : r = .zero
  · rw [if_pos hnone]
    have hnot : ¬ Meets Ss T i := fun h => by
      obtain ⟨t, ht⟩ := hmeets.1 h
      exact hzero.1 hnone t ht
    exact Runs.pure hl1.after ((hl1.denotes hacc).congr fun t => by simp [hnot])
  · rw [if_neg hnone]
    have hsome : Meets Ss T i := by
      by_contra hnot
      exact hnone (hzero.2 fun t ht => hnot (hmeets.2 ⟨t, ht⟩))
    refine .bind (value_yields hl1.after (by change n ≤ 64; omega) (source_end hn) hi)
      fun x w2 hl2 hx => ?_
    refine (disj_yields hl2.after ((hl1.trans hl2).denotes hacc) hx).imp
      fun r w3 _ hr => hr.congr fun t => by simp [hsome]

theorem meeting_yields (hw : w.current.WellFormed) (hg : Bounded g (2 ^ k))
    (h : Explored w.current g k Ss found followed) (hn : n ≤ 32) (hfew : found.length ≤ 2 ^ n)
    (hf : Power w.current k T f) :
    Yields w (meeting found (sourceBlock n) f) fun r m =>
      m.Denotes r fun t => Meets Ss T ((sourceBlock n).read t) := by
  have hl : ∀ e ∈ found.zipIdx, e.2 < 2 ^ n ∧ ∃ S, Ss[e.2]? = some S ∧
      Power w.current k S e.1 ∧ ∀ v ∈ S, v < 2 ^ k := by
    intro e he
    have hp := List.mem_zipIdx_iff_getElem?.1 he
    have hi := (List.getElem?_eq_some_iff.1 hp).1
    obtain ⟨S, hS, hpower⟩ := named_at h.named hp
    exact ⟨by omega, S, hS, hpower, (h.reached S (List.mem_of_getElem? hS)).lt hg⟩
  refine (meeting_from hw hn hf (.zero hw.canonical) hl).imp fun r w1 _ hr => hr.congr fun t => ?_
  constructor
  · rintro (hfalse | ⟨e, -, heq, hmeets⟩)
    · exact hfalse.elim
    · rwa [heq]
  · intro hmeets
    obtain ⟨S, hS, -⟩ := id hmeets
    obtain ⟨p, hp, -⟩ := at_named h.named hS
    exact .inr ⟨(p, (sourceBlock n).read t), List.mem_zipIdx_iff_getElem?.2 hp, rfl, hmeets⟩

theorem power_set_yields {s : ValueSet} (hw : w.current.WellFormed) (hk : k ≤ 32)
    (hs : s.domain = sourceBlock k ∧ s.Shows w.current (· ∈ S)) (hS : ∀ v ∈ S, v < 2 ^ k) :
    Yields w (s.withDomain (scratch k)) fun r m => Power m k S r.fn := by
  have hfit : s.domain.Fits (scratch k) (· ∈ S) := by
    rw [hs.1]
    exact fits_of_small hk hk sourceBlock_base_le scratch_base_le fun v hv => ⟨hS v hv, hS v hv⟩
  refine (hs.2.withDomain hw hfit).imp fun r w1 _ hr => ?_
  have hden := hr.2.denotes
  rw [hr.1] at hden
  exact hden

/-- The edges between numbered sets, as the source restriction leaves them. -/
theorem subset_edges_yields {b : SymbolicNfa} {r : Relation} (hw : w.current.WellFormed)
    (hb : b.Shows w.current bare) (hcount : b.stateCount = Ss.length)
    (hr : r.domains = edgeBlocks b.width ∧ r.Shows w.current (Redirected g Ss)) :
    Yields w (r.restrict 0 b.states) fun u m =>
      u.domains = edgeBlocks b.width ∧ u.Shows m (Edges (subsets g Ss)) := by
  have hfit := blocks_fit hb.width_le hb.states.1 (.inl rfl) fun p hp => hp
  refine (Relation.restrict_yields hw hr.2 hb.states.2 (by rw [hr.1]; rfl) hfit).imp
    fun u w1 _ hu => ⟨hu.1.trans hr.1, hu.2.congr fun ts hts => ?_⟩
  rw [hu.1, hr.1] at hts
  obtain ⟨i, c, j, rfl, -⟩ := forall₂_edgeBlocks.1 hts
  rw [edges_iff, redirected_iff]
  constructor
  · rintro ⟨hj, hi⟩
    have hlt : i < Ss.length := hcount ▸ hi i rfl
    have hS : Ss[i]? = some Ss[i] := List.getElem?_eq_getElem hlt
    rw [target_eq hS] at hj
    exact ⟨_, hS, hj⟩
  · rintro ⟨S, hS, hj⟩
    refine ⟨by rw [target_eq hS, hj], fun v hv => ?_⟩
    obtain rfl : i = v := Option.some.inj hv
    rw [hcount]
    exact (List.getElem?_eq_some_iff.1 hS).1

namespace SymbolicNfa

variable {a : SymbolicNfa}

theorem determinize_runs (hw : w.current.WellFormed) (h : a.Shows w.current g)
    (hg : Contained g a.stateCount) (hflag : a.determinism ≠ .complete) :
    Runs (ManyReached g (2 ^ 32)) w a.determinize fun b m =>
      (∀ p, p ∉ g.start) ∧ b.stateCount = 0 ∧ b.determinism = .unknown ∧ b.Shows m bare ∨
      (∃ p, p ∈ g.start) ∧ ∃ Ss, Family g Ss ∧ (∀ S ∈ Ss, Reached g S) ∧
        b.stateCount = Ss.length ∧ b.determinism = .complete ∧ b.Shows m (subsets g Ss) := by
  have hk := h.width_le
  have hgk : Contained g (2 ^ a.width) := hg.mono a.count_le_two_pow_width
  unfold determinize
  rw [if_neg hflag]
  have hnone := h.starting.2.isEmpty_iff hw.canonical
  rw [h.starting.1] at hnone
  by_cases hempty : a.starting.isEmpty
  · rw [if_pos hempty]
    replace hnone := hnone.1 hempty
    exact .weaken ((ofCount_yields hw (by decide : 0 < 2 ^ 32)).imp fun b w1 _ hb =>
      .inl ⟨fun p hp => hnone p (hgk.start p hp) hp, hb⟩)
  rw [if_neg hempty]
  have hsome : ∃ p, p ∈ g.start := by
    by_contra hno
    exact hempty (hnone.2 fun p _ hp => hno ⟨p, hp⟩)
  refine .bind (.weaken (power_edges_yields hw h hgk.toBounded)) fun edges w1 hl1 hedges => ?_
  have h1 := h.later hl1
  refine .bind (.weaken (power_set_yields hl1.after hk h1.starting hgk.start))
    fun start w2 hl2 hstart => ?_
  have h2 := h1.later hl2
  refine .lift_bind h2.stateDomain ?_
  refine .bind (explore_runs hl2.after hgk.toBounded (fun w' S p hl' hS hp =>
    powerMoves_yields hl'.after hk ⟨hedges.1, hedges.2.later (hl2.trans hl')⟩ hp
      (hS.lt hgk.toBounded)) (.begin hstart)) fun r w3 hl3 hr => .weaken ?_
  obtain ⟨found, followed⟩ := r
  obtain ⟨hlen, hcount, Ss, hSs⟩ := hr
  simp only at hlen hcount hSs
  replace hcount : found.length < 2 ^ 32 := hcount
  have hfound : found.length = Ss.length := hSs.named.length_eq.symm
  have hfamily := hSs.family hl3.after.canonical hlen
  have hn : bitsNeeded found.length ≤ 32 := bitsNeeded_le_iff.2 (Nat.le_of_lt hcount)
  have hroom : found.length ≤ 2 ^ bitsNeeded found.length := le_two_pow_bitsNeeded _
  refine .bind (ofCount_yields hl3.after hcount)
    fun b w4 hl4 hb => ?_
  obtain ⟨hbcount, -, hb⟩ := hb
  have hwidth : b.width = bitsNeeded found.length := by rw [width, hbcount]
  refine .lift_bind hb.stateDomain (.lift_bind hb.destDomain ?_)
  rw [hwidth]
  have hSs4 := hSs.later hl4
  -- all moves in one function, then with numbers for the power-states they lead to
  refine .bind (combined_yields hl4.after hSs4 hlen hn hroom) fun combined w5 hl5 hcombined => ?_
  have hSs5 := hSs4.later hl5
  refine .bind (redirected_yields hl5.after hgk.toBounded hSs5 hn hroom hcombined)
    fun redirected w6 hl6 hredirected => ?_
  refine .lift_bind (transitions_eq hn) ?_
  refine .bind (Relation.ofFn_yields (R := Redirected g Ss) hl6.after (edgeBlocks_apart hn)
    ((edgeBlocks_ends hn).mono (by have := edgeEnd_le; omega))
    (hredirected.congr fun t => redirected_iff.symm)) fun r w7 hl7 hr => ?_
  have hl47 := hl4.trans (hl5.trans (hl6.trans hl7))
  have hb7 := hb.later (hl5.trans (hl6.trans hl7))
  refine .bind (subset_edges_yields hl7.after hb7 (hbcount.trans hfound) (by rwa [hwidth]))
    fun edges' w8 hl8 hedges' => ?_
  have h8 := h2.later (hl3.trans (hl47.trans hl8))
  refine .bind (power_set_yields hl8.after hk h8.accepting hgk.accept)
    fun accepting w9 hl9 haccepting => ?_
  refine .bind (ValueSet.singleton_yields hl9.after (by change bitsNeeded found.length ≤ 64; omega)
    (source_end hn) (Nat.two_pow_pos _)) fun starting w10 hl10 hstarting => ?_
  have hSs10 := hSs.later (hl47.trans (hl8.trans (hl9.trans hl10)))
  refine .bind (meeting_yields hl10.after hgk.toBounded hSs10 hn hroom (haccepting.later hl10))
    fun f w11 hl11 hf => ?_
  refine .bind (ValueSet.ofFn_yields (P := Meets Ss g.accept) hl11.after hf)
    fun accepting' w12 hl12 haccepting' => ?_
  have hb12 := hb7.later (hl8.trans (hl9.trans (hl10.trans (hl11.trans hl12))))
  rw [← hwidth] at hstarting haccepting'
  refine Runs.pure hl12.after (.inr ⟨hsome, Ss, hfamily, hSs.reached, hbcount.trans hfound, rfl,
    ⟨⟨hb12.home, hb12.states, ?_, haccepting', hedges'.1, ?_⟩, hb12.few⟩⟩)
  · exact ⟨hstarting.1, hstarting.2.later (hl11.trans hl12)⟩
  · exact hedges'.2.later (hl9.trans (hl10.trans (hl11.trans hl12)))

def reached (a : SymbolicNfa) (m : Manager) (u : Word) : Set Nat :=
  {q | ∃ p, a.starting.contains p m = .ok true ∧ a.Run m p u q}

/-- The power-states: the sets of states that words lead to. -/
def powerStates (a : SymbolicNfa) (m : Manager) : Set (Set Nat) := Set.range (a.reached m)

theorem Shows.reached_eq (h : a.Shows m g) (hm : m.Canonical) (hb : Bounded g a.stateCount)
    (u : Word) : a.reached m u = g.evalFrom g.start u.codes := by
  ext q
  rw [NFA.mem_evalFrom_iff_exists]
  exact exists_congr fun p => and_congr (h.starts_iff hm hb) (h.run_iff hm hb)

theorem Shows.reachable_iff {q : Nat} (h : a.Shows m g) (hm : m.Canonical)
    (hb : Bounded g a.stateCount) : (∃ u, q ∈ a.reached m u) ↔ Reachable g q := by
  constructor
  · rintro ⟨u, hu⟩
    rw [h.reached_eq hm hb] at hu
    exact ⟨u.codes, u.lettered_codes, hu⟩
  · rintro ⟨cs, hcs, hq⟩
    obtain ⟨u, rfl⟩ := hcs.exists_word
    refine ⟨u, ?_⟩
    rwa [h.reached_eq hm hb]

def AllReached (a : SymbolicNfa) (m : Manager) : Prop :=
  ∀ q < a.stateCount, ∃ u, q ∈ a.reached m u

theorem Shows.allReached_iff (h : a.Shows m g) (hm : m.Canonical) (hb : Bounded g a.stateCount) :
    a.AllReached m ↔ ∀ q < a.stateCount, Reachable g q :=
  forall₂_congr fun _ _ => h.reachable_iff hm hb

theorem Shows.length_le_encard (h : a.Shows m g) (hm : m.Canonical)
    (hb : Bounded g a.stateCount) {Ts : List (Set Nat)} (hd : Ts.Nodup)
    (hTs : ∀ S ∈ Ts, Reached g S) : (Ts.length : ℕ∞) ≤ (a.powerStates m).encard := by
  classical
  have hsub : (Ts.toFinset : Set (Set Nat)) ⊆ a.powerStates m := by
    intro S hS
    obtain ⟨cs, hcs, rfl⟩ := hTs S (List.mem_toFinset.1 hS)
    obtain ⟨u, rfl⟩ := hcs.exists_word
    exact ⟨u, h.reached_eq hm hb u⟩
  have hcard := Set.encard_le_encard hsub
  rwa [Set.encard_coe_eq_coe_finsetCard, List.toFinset_card_of_nodup hd] at hcard

/-- The search does not find more sets than there are power-states. -/
theorem Shows.not_manyReached (h : a.Shows m g) (hm : m.Canonical) (hb : Bounded g a.stateCount)
    (hfew : (a.powerStates m).encard < 2 ^ 32) : ¬ ManyReached g (2 ^ 32) := by
  rintro ⟨Ts, hd, hTs, hmany⟩
  have hlt := (h.length_le_encard hm hb hd hTs).trans_lt hfew
  have hlt' : Ts.length < 2 ^ 32 := by exact_mod_cast hlt
  omega

theorem WellFormed.encard_powerStates_le (h : a.WellFormed m) (hm : m.Canonical) :
    (a.powerStates m).encard ≤ 2 ^ a.stateCount := by
  obtain ⟨g, hg, hb⟩ := h.shown
  have hsub : a.powerStates m ⊆ 𝒫 (Finset.range a.stateCount : Set Nat) := by
    rintro _ ⟨u, rfl⟩ q hq
    rw [hg.reached_eq hm hb.toBounded] at hq
    exact Finset.mem_coe.2 (Finset.mem_range.2 (hb.eval hb.start u.codes q hq))
  refine (Set.encard_le_encard hsub).trans ?_
  have hfinite : (𝒫 (Finset.range a.stateCount : Set Nat)).Finite :=
    (Finset.finite_toSet _).finite_subsets
  rw [← hfinite.cast_ncard_eq, Set.ncard_powerset _ (Finset.finite_toSet _),
    Set.ncard_coe_finset, Finset.card_range]
  norm_cast

/-- Determinization keeps the language, and makes an automaton with a starting state
deterministic. -/
theorem determinize_shows (hw : w.current.WellFormed) (h : a.Shows w.current g)
    (hg : Contained g a.stateCount) (hhonest : a.Honest w.current) :
    Runs (ManyReached g (2 ^ 32)) w a.determinize fun b m =>
      ∃ g', b.Shows m g' ∧ Contained g' b.stateCount ∧
        (∀ cs, Lettered cs → (cs ∈ g'.accepts ↔ cs ∈ g.accepts)) ∧
        ((∃ p, p ∈ g.start) ∧ Deterministic g' b.stateCount ∧ b.determinism = .complete ∨
          (∀ p, p ∉ g.start) ∧ b.stateCount = 0 ∧ b.determinism = .unknown) := by
  by_cases hflag : a.determinism = .complete
  · have hdet : Deterministic g a.stateCount :=
      (h.isDeterministic_iff hw.canonical hg.toBounded).1 (hhonest.of_complete hflag)
    unfold determinize
    rw [if_pos hflag]
    obtain ⟨p, hp, -⟩ := hdet.start
    exact Runs.pure hw ⟨g, h, hg, fun _ _ => Iff.rfl, .inl ⟨⟨p, hp⟩, hdet, hflag⟩⟩
  refine (determinize_runs hw h hg hflag).imp fun b w' _ hb => ?_
  rcases hb with ⟨hnone, hzero, hbflag, hbare⟩ | ⟨hsome, Ss, hfamily, -, hcount, hbflag, hshows⟩
  · refine ⟨bare, hbare, bare_contained _, fun cs _ => ?_, .inr ⟨hnone, hzero, hbflag⟩⟩
    constructor
    · rintro ⟨q, hq, -⟩
      exact hq.elim
    · rintro ⟨q, -, hq⟩
      obtain ⟨p, hp, -⟩ := NFA.mem_evalFrom_iff_exists.1 hq
      exact absurd hp (hnone p)
  · refine ⟨subsets g Ss, hshows, hcount ▸ hfamily.contained, fun cs hcs =>
      hfamily.accepts_iff hcs, .inl ⟨hsome, hcount ▸ hfamily.deterministic, hbflag⟩⟩

/-- Determinization keeps the language. From an automaton with a starting state it gives one with
exactly one starting state and exactly one successor of every state on every letter. -/
theorem determinize_of_wellFormed (hw : w.current.WellFormed) (ha : a.WellFormed w.current)
    (hfew : (a.powerStates w.current).encard < 2 ^ 32) :
    ∃ b w', a.determinize w = .ok b w' ∧ w.Leads w' ∧ b.WellFormed w'.current ∧
      (∀ u, b.Accepts w'.current u ↔ a.Accepts w.current u) ∧
      ((∃ p, a.starting.contains p w.current = .ok true) →
        b.IsDeterministic w'.current ∧ b.determinism = .complete) ∧
      ((¬ ∃ p, a.starting.contains p w.current = .ok true) → b.stateCount = 0) := by
  have hm := hw.canonical
  obtain ⟨g, h, hg⟩ := ha.shown
  have hcount := h.not_manyReached hm hg.toBounded hfew
  obtain ⟨b, w', hrun, hl, g', hb, hg', hlang, hcase⟩ := yields_iff.1
    ((determinize_shows hw h hg ha.honest).yields hcount)
  have hm' := hl.after.canonical
  have haccepts : ∀ u, b.Accepts w'.current u ↔ a.Accepts w.current u := fun u => by
    rw [h.accepts_iff hm hg.toBounded, hb.accepts_iff hm' hg'.toBounded]
    exact hlang u.codes u.lettered_codes
  refine ⟨b, w', hrun, hl, ?_⟩
  simp only [h.starts_iff hm hg.toBounded]
  rcases hcase with ⟨hsome, hdet, hflag⟩ | ⟨hnone, hzero, hflag⟩
  · have hdet' := (hb.isDeterministic_iff hm' hg'.toBounded).2 hdet
    have hhonest : b.Honest w'.current := by
      unfold Honest
      rwa [hflag]
    exact ⟨⟨⟨g', hb, hg'⟩, hhonest⟩, haccepts, fun _ => ⟨hdet', hflag⟩, fun hno => absurd hsome hno⟩
  · exact ⟨⟨⟨g', hb, hg'⟩, honest_of_unknown hflag⟩, haccepts,
      fun ⟨p, hp⟩ => absurd hp (hnone p), fun _ => hzero⟩

/-- The automaton of all one-letter words has no edges out of its second state. -/
theorem determinize_of_wellFormed_ofSymbols : ∃ m a w b w', Manager.new 0 1 1 = .ok m ∧
    ofSymbols (.universal 0) ⟨m, []⟩ = .ok a w ∧ a.determinize w = .ok b w' ∧
    (∀ u, b.Accepts w'.current u ↔ a.Accepts w.current u) ∧ b.IsDeterministic w'.current := by
  obtain ⟨m, hm⟩ : ∃ m, Manager.new 0 1 1 = .ok m := ⟨_, rfl⟩
  obtain ⟨a, w, ha, hl, hcount, hshows, hcontained, hwell⟩ := ofSymbols_wellFormed hm
  have hfew : (a.powerStates w.current).encard < 2 ^ 32 := by
    refine (hwell.encard_powerStates_le hl.after.canonical).trans_lt ?_
    rw [hcount]
    norm_num
  obtain ⟨b, w', hrun, -, -, haccepts, hdet, -⟩ :=
    determinize_of_wellFormed hl.after hwell hfew
  have hstart : a.starting.contains 0 w.current = .ok true :=
    (hshows.starts_iff hl.after.canonical hcontained.toBounded).2 (.inl (.inr ⟨rfl, by decide⟩))
  exact ⟨m, a, w, b, w', hm, ha, hrun, haccepts, (hdet ⟨0, hstart⟩).1⟩

end SymbolicNfa

end SymbolicAutomata
