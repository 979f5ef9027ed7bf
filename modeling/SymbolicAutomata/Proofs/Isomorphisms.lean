import SymbolicAutomata.Proofs.Conversions
import SymbolicAutomata.Proofs.Letters
import SymbolicAutomata.Proofs.MatrixEdits
import Mathlib.Order.Interval.Set.Nat
/-!
# Two subset constructions

A matrix of labels is made deterministic set by set, and the symbolic automaton made of it all at
once. The two find the same power-states, in orders of their own, and what they make of them is the
same up to the numbers.
-/
namespace SymbolicAutomata

open Manager Bdd Layout SymbolicNfa

variable {w : Workspace} {m m' : Manager} {g g₁ g₂ : NFA Nat Nat} {p q i j : Nat}
  {Ps Qs : List (Set Nat)}

/-- Two lists of the same different items hold each of them at one place. -/
theorem exists_places {α : Type} {xs ys : List α} (hxs : xs.Nodup) (hys : ys.Nodup)
    (hmem : ∀ x, x ∈ xs ↔ x ∈ ys) : ∃ σ : Nat → Nat,
      Set.BijOn σ (Set.Iio xs.length) (Set.Iio ys.length) ∧
        ∀ i < xs.length, ys[σ i]? = xs[i]? := by
  have hplace : ∀ i, ∃ j : Nat, i < xs.length → ys[j]? = xs[i]? := by
    intro i
    by_cases hi : i < xs.length
    · obtain ⟨j, hj⟩ := List.mem_iff_getElem?.1 ((hmem _).1 (List.getElem_mem hi))
      exact ⟨j, fun _ => hj.trans (List.getElem?_eq_getElem hi).symm⟩
    · exact ⟨0, fun h => absurd h hi⟩
  choose σ hσ using hplace
  have hlt : ∀ i < xs.length, σ i < ys.length := by
    intro i hi
    have hj := hσ i hi
    rw [List.getElem?_eq_getElem hi] at hj
    exact (List.getElem?_eq_some_iff.1 hj).1
  refine ⟨σ, ⟨fun i hi => hlt i hi, ?_, ?_⟩, hσ⟩
  · intro i hi j hj heq
    refine (List.getElem?_inj hi hxs).1 ?_
    rw [← hσ i hi, ← hσ j hj, heq]
  · intro j hj
    obtain ⟨i, hi⟩ := List.mem_iff_getElem?.1 ((hmem _).2 (List.getElem_mem hj))
    have hilt := (List.getElem?_eq_some_iff.1 hi).1
    refine ⟨i, hilt, ((List.getElem?_inj hj hys).1 ?_).symm⟩
    rw [hσ i hilt, hi]
    exact List.getElem?_eq_getElem hj

namespace Automaton

variable {a b c : Automaton} {u : Word}

inductive Run (a : Automaton) (m : Manager) : Nat → Word → Nat → Prop
  | nil (q : Nat) : Run a m q [] q
  | cons {p q r : Nat} {x : Letter} {u : Word} (first : a.HasEdge m p x q)
      (rest : Run a m q u r) : Run a m p (x :: u) r

def reached (a : Automaton) (m : Manager) (u : Word) : Set Nat :=
  {q | ∃ p, a.Begins m .forward p ∧ a.Run m p u q}

/-- The power-states: the sets of states that words lead to. -/
def powerStates (a : Automaton) (m : Manager) : Set (Set Nat) := Set.range (a.reached m)

theorem Shows.run_iff (h : Shows m a g) (hm : m.Canonical) (hg : Contained g a.size) :
    a.Run m p u q ↔ q ∈ g.evalFrom {p} u.codes := by
  induction u generalizing p with
  | nil =>
    constructor
    · intro hrun
      cases hrun
      rfl
    · intro hq
      obtain rfl : q = p := hq
      exact .nil q
  | cons x u ih =>
    have hcons : g.evalFrom {p} (Word.codes (x :: u)) =
        g.evalFrom (g.step p x.code) (Word.codes u) := by
      change g.evalFrom {p} (x.code :: Word.codes u) = _
      rw [NFA.evalFrom_cons, NFA.stepSet_singleton]
    rw [hcons, NFA.mem_evalFrom_iff_exists]
    constructor
    · intro hrun
      cases hrun with
      | cons first rest => exact ⟨_, (h.hasEdge_iff hm hg).1 first, ih.1 rest⟩
    · rintro ⟨r, hr, hq⟩
      exact .cons ((h.hasEdge_iff hm hg).2 hr) (ih.2 hq)

theorem Shows.reached_eq (h : Shows m a g) (hm : m.Canonical) (hg : Contained g a.size)
    (u : Word) : a.reached m u = g.evalFrom g.start u.codes := by
  ext q
  rw [NFA.mem_evalFrom_iff_exists]
  exact exists_congr fun p => and_congr (h.begins_iff hm hg) (h.run_iff hm hg)

theorem Shows.mem_powerStates_iff (h : Shows m a g) (hm : m.Canonical) (hg : Contained g a.size)
    {S : Set Nat} : S ∈ a.powerStates m ↔ Reached g S := by
  constructor
  · rintro ⟨u, rfl⟩
    exact ⟨u.codes, u.lettered_codes, h.reached_eq hm hg u⟩
  · rintro ⟨cs, hcs, rfl⟩
    obtain ⟨u, rfl⟩ := hcs.exists_word
    exact ⟨u, h.reached_eq hm hg u⟩

theorem Shows.not_manyReached (h : Shows m a g) (hm : m.Canonical) (hg : Contained g a.size)
    {n : Nat} (hfew : (a.powerStates m).encard < n) : ¬ ManyReached g n := by
  classical
  rintro ⟨Ts, hd, hTs, hmany⟩
  have hsub : (Ts.toFinset : Set (Set Nat)) ⊆ a.powerStates m := fun S hS =>
    (h.mem_powerStates_iff hm hg).2 (hTs S (List.mem_toFinset.1 hS))
  have hcard := (Set.encard_le_encard hsub).trans_lt hfew
  rw [Set.encard_coe_eq_coe_finsetCard, List.toFinset_card_of_nodup hd] at hcard
  have hlt : Ts.length < n := by exact_mod_cast hcard
  omega

theorem Shows.encard_powerStates_le (h : Shows m a g) (hm : m.Canonical)
    (hg : Contained g a.size) : (a.powerStates m).encard ≤ 2 ^ a.size := by
  have hsub : a.powerStates m ⊆ 𝒫 (Finset.range a.size : Set Nat) := by
    rintro _ ⟨u, rfl⟩ q hq
    rw [h.reached_eq hm hg] at hq
    exact Finset.mem_coe.2 (Finset.mem_range.2 (hg.eval hg.start u.codes q hq))
  refine (Set.encard_le_encard hsub).trans ?_
  have hfinite : (𝒫 (Finset.range a.size : Set Nat)).Finite :=
    (Finset.finite_toSet _).finite_subsets
  rw [← hfinite.cast_ncard_eq, Set.ncard_powerset _ (Finset.finite_toSet _),
    Set.ncard_coe_finset, Finset.card_range]
  norm_cast

/-- The states of `b` stand for the power-states of `a` in the list, and every word leads to the
place of the power-state that it leads to. Without starting states there are none. -/
structure Numbers (b : Automaton) (m' : Manager) (a : Automaton) (m : Manager)
    (Ps : List (Set Nat)) : Prop where
  count : b.size = Ps.length
  distinct : Ps.Nodup
  all : ∀ S, S ∈ Ps ↔ (∃ p, a.Begins m .forward p) ∧ S ∈ a.powerStates m
  leads : ∀ u i, i ∈ b.reached m' u ↔ Ps[i]? = some (a.reached m u)

theorem numbers_of_family (h : Shows m a g) (hm : m.Canonical) (hg : Contained g a.size)
    (hsome : ∃ p, p ∈ g.start) (hfamily : Family g Ps) (hreached : ∀ S ∈ Ps, Reached g S)
    (hb : Shows m' b (subsets g Ps)) (hm' : m'.Canonical) (hcount : b.size = Ps.length) :
    Numbers b m' a m Ps where
  count := hcount
  distinct := hfamily.distinct
  all S := by
    rw [h.mem_powerStates_iff hm hg]
    constructor
    · intro hS
      obtain ⟨p, hp⟩ := hsome
      exact ⟨⟨p, (h.begins_iff hm hg).2 hp⟩, hreached S hS⟩
    · rintro ⟨-, cs, hcs, rfl⟩
      exact hfamily.evalFrom_mem hcs (List.mem_of_getElem? hfamily.first)
  leads u i := by
    rw [hb.reached_eq hm' (hcount ▸ hfamily.contained), h.reached_eq hm hg]
    exact hfamily.eval_iff u.lettered_codes hfamily.first

theorem numbers_of_bare (h : Shows m a g) (hm : m.Canonical) (hg : Contained g a.size)
    (hnone : ∀ p, p ∉ g.start) (hb : Shows m' b bare) (hm' : m'.Canonical) (hcount : b.size = 0) :
    Numbers b m' a m [] where
  count := hcount
  distinct := .nil
  all S := by
    refine iff_of_false List.not_mem_nil ?_
    rintro ⟨⟨p, hp⟩, -⟩
    exact hnone p ((h.begins_iff hm hg).1 hp)
  leads u i := by
    refine iff_of_false ?_ (by simp)
    rw [hb.reached_eq hm' (bare_contained _), NFA.mem_evalFrom_iff_exists]
    rintro ⟨p, hp, -⟩
    exact hp

/-- A renaming of the states that keeps starting and accepting states, and the label of every edge:
the answers for an edge and for its image are the same set of symbols. -/
structure Isomorphism (b c : Automaton) (w : Workspace) (σ : Nat → Nat) : Prop where
  bijective : Set.BijOn σ (Set.Iio b.size) (Set.Iio c.size)
  begins : ∀ dir, ∀ i < b.size, b.Begins w.current dir i ↔ c.Begins w.current dir (σ i)
  labels : ∀ i < b.size, ∀ j < b.size, ∃ on w₁ w₂, b.edge i j w = .ok on w₁ ∧
    c.edge (σ i) (σ j) w₁ = .ok on w₂

theorem isomorphism_of_shows {σ : Nat → Nat} (hw : w.current.WellFormed)
    (hb : Shows w.current b g₁) (hc : Shows w.current c g₂) (hg₁ : Contained g₁ b.size)
    (hg₂ : Contained g₂ c.size) (hσ : Set.BijOn σ (Set.Iio b.size) (Set.Iio c.size))
    (hends : ∀ dir, ∀ i < b.size, i ∈ endsOf g₁ dir ↔ σ i ∈ endsOf g₂ dir)
    (hstep : ∀ i < b.size, ∀ j < b.size, ∀ x < letterCount,
      j ∈ g₁.step i x ↔ σ j ∈ g₂.step (σ i) x) : Isomorphism b c w σ where
  bijective := hσ
  begins dir i hi := by
    rw [hb.begins_iff hw.canonical hg₁, hc.begins_iff hw.canonical hg₂]
    exact hends dir i hi
  labels i hi j hj :=
    hb.edge_agrees hc hw hg₁ hg₂ hi hj (hσ.mapsTo hi) (hσ.mapsTo hj) (hstep i hi j hj)

namespace Isomorphism

variable {σ : Nat → Nat} {cs : List Nat} {x : Nat} (hiso : Isomorphism b c w σ)
  (hw : w.current.WellFormed) (hb : Shows w.current b g₁) (hc : Shows w.current c g₂)
  (hg₁ : Contained g₁ b.size) (hg₂ : Contained g₂ c.size)

include hiso hw hb hc hg₁ hg₂

theorem step_iff (hi : i < b.size) (hj : j < b.size) (hx : x < letterCount) :
    j ∈ g₁.step i x ↔ σ j ∈ g₂.step (σ i) x := by
  obtain ⟨on, w₁, w₂, hrun, hrun'⟩ := hiso.labels i hi j hj
  obtain ⟨hl, hon⟩ := (hb.edge_yields hw hg₁ hi hj).of_ok hrun
  have hσi := hiso.bijective.mapsTo hi
  have hσj := hiso.bijective.mapsTo hj
  obtain ⟨hl', hon'⟩ := ((hc.later hl).edge_yields hl.after hg₂ hσi hσj).of_ok hrun'
  exact (hon.later hl').letter_iff hon' hx

theorem eval_iff (hcs : Lettered cs) (hi : i < b.size) (hj : j < b.size) :
    j ∈ g₁.evalFrom {i} cs ↔ σ j ∈ g₂.evalFrom {σ i} cs := by
  induction cs generalizing i with
  | nil => exact (hiso.bijective.injOn.eq_iff hj hi).symm
  | cons x cs ih =>
    obtain ⟨hx, hrest⟩ := lettered_cons.1 hcs
    simp only [NFA.evalFrom_cons, NFA.stepSet_singleton]
    rw [NFA.mem_evalFrom_iff_exists, NFA.mem_evalFrom_iff_exists]
    constructor
    · rintro ⟨r, hr, hj'⟩
      have hlt := hg₁.target i x r hr
      exact ⟨σ r, (hiso.step_iff hw hb hc hg₁ hg₂ hi hlt hx).1 hr, (ih hrest hlt).1 hj'⟩
    · rintro ⟨s, hs, hj'⟩
      obtain ⟨r, hlt, rfl⟩ := hiso.bijective.surjOn (hg₂.target (σ i) x s hs)
      exact ⟨r, (hiso.step_iff hw hb hc hg₁ hg₂ hi hlt hx).2 hs, (ih hrest hlt).2 hj'⟩

theorem accepts_iff (hcs : Lettered cs) : cs ∈ g₁.accepts ↔ cs ∈ g₂.accepts := by
  have hm := hw.canonical
  have hends : ∀ dir, ∀ i < b.size, i ∈ endsOf g₁ dir ↔ σ i ∈ endsOf g₂ dir := by
    intro dir i hi
    rw [← hb.begins_iff hm hg₁, ← hc.begins_iff hm hg₂]
    exact hiso.begins dir i hi
  rw [mem_accepts_iff_exists, mem_accepts_iff_exists]
  constructor
  · rintro ⟨p, hp, q, hq, hrun⟩
    have hplt := hg₁.start p hp
    have hqlt := hg₁.accept q hq
    exact ⟨σ p, (hends .forward p hplt).1 hp, σ q, (hends .backward q hqlt).1 hq,
      (hiso.eval_iff hw hb hc hg₁ hg₂ hcs hplt hqlt).1 hrun⟩
  · rintro ⟨p', hp, q', hq, hrun⟩
    obtain ⟨p, hplt, rfl⟩ := hiso.bijective.surjOn (hg₂.start p' hp)
    obtain ⟨q, hqlt, rfl⟩ := hiso.bijective.surjOn (hg₂.accept q' hq)
    exact ⟨p, (hends .forward p hplt).2 hp, q, (hends .backward q hqlt).2 hq,
      (hiso.eval_iff hw hb hc hg₁ hg₂ hcs hplt hqlt).2 hrun⟩

end Isomorphism

theorem isomorphism_of_bare {σ : Nat → Nat} (hw : w.current.WellFormed)
    (hb : Shows w.current b bare) (hc : Shows w.current c bare) (hbcount : b.size = 0)
    (hccount : c.size = 0) : Isomorphism b c w σ := by
  have hnone : ∀ i, ¬ i < b.size := by simp [hbcount]
  refine isomorphism_of_shows hw hb hc (bare_contained _) (bare_contained _) ?_
    (fun _ i hi => absurd hi (hnone i)) fun i hi => absurd hi (hnone i)
  rw [hbcount, hccount, ← bot_eq_zero, Set.Iio_bot]
  exact Set.bijOn_empty _

theorem isomorphism_of_families {σ : Nat → Nat} (hw : w.current.WellFormed)
    (hP : Family g Ps) (hQ : Family g Qs) (hb : Shows w.current b (subsets g Ps))
    (hc : Shows w.current c (subsets g Qs)) (hbcount : b.size = Ps.length)
    (hccount : c.size = Qs.length)
    (hσ : Set.BijOn σ (Set.Iio Ps.length) (Set.Iio Qs.length))
    (hplace : ∀ i < Ps.length, Qs[σ i]? = Ps[i]?) : Isomorphism b c w σ := by
  refine isomorphism_of_shows hw hb hc (hbcount ▸ hP.contained) (hccount ▸ hQ.contained)
    (by rwa [hbcount, hccount]) (fun dir i hi => ?_) fun i hi j hj x _ => ?_
  · rw [hbcount] at hi
    cases dir with
    | forward =>
      change i = 0 ↔ σ i = 0
      constructor
      · rintro rfl
        exact hQ.at_eq ((hplace 0 hi).trans hP.first) hQ.first
      · intro hzero
        have hi' := hplace i hi
        rw [hzero, hQ.first] at hi'
        exact hP.at_eq hi'.symm hP.first
    | backward =>
      change (∃ S, Ps[i]? = some S ∧ _) ↔ ∃ S, Qs[σ i]? = some S ∧ _
      rw [hplace i hi]
  · rw [hbcount] at hi hj
    change (∃ S, Ps[i]? = some S ∧ Ps[j]? = some (g.stepSet S x)) ↔
      ∃ S, Qs[σ i]? = some S ∧ Qs[σ j]? = some (g.stepSet S x)
    rw [hplace i hi, hplace j hj]

end Automaton

namespace MatrixNfa

variable {a : MatrixNfa}

/-- The power-states of a matrix of labels as its own subset construction and the symbolic one
number them. Without starting states both give no states. -/
theorem determinize_isomorphic (hw : w.current.WellFormed) (ha : a.WellFormed w.current)
    (hsquare : a.Square) (hascending : a.starting.Pairwise (· < ·))
    (hfew : ((Automaton.matrix a).powerStates w.current).encard < 2 ^ 32) :
    ∃ b w₁ s w₂ c w₃ Ps Qs σ, a.determinize w = .ok b w₁ ∧
      SymbolicNfa.ofAutomaton (.matrix a) w₁ = .ok s w₂ ∧ s.determinize w₂ = .ok c w₃ ∧
      w.Leads w₁ ∧ w₁.Leads w₂ ∧ w₂.Leads w₃ ∧
      Automaton.Numbers (.matrix b) w₃.current (.matrix a) w.current Ps ∧
      Automaton.Numbers (.symbolic c) w₃.current (.matrix a) w.current Qs ∧
      Automaton.Isomorphism (.matrix b) (.symbolic c) w₃ σ ∧
      (∀ i < b.stateCount, Qs[σ i]? = Ps[i]?) ∧
      (a.starting = [] → b.stateCount = 0 ∧ c.stateCount = 0) := by
  obtain ⟨g, h, hg⟩ := ha
  have hm := hw.canonical
  have hshows : Automaton.Shows w.current (.matrix a) g := .matrix h
  have hmany : ¬ ManyReached g (2 ^ 32) := hshows.not_manyReached hm hg (by exact_mod_cast hfew)
  obtain ⟨b, w₁, hb, hl₁, hbcase⟩ := yields_iff.1
    (determinize_yields hw h hsquare hascending hg hmany)
  obtain ⟨s, w₂, hs, hl₂, hscount, hsflag, hsshows⟩ := yields_iff.1
    (SymbolicNfa.ofMatrix_yields hl₁.after (h.later hl₁) hg)
  have hflag : s.determinism ≠ .complete := by
    rw [hsflag]
    decide
  obtain ⟨c, w₃, hc, hl₃, hccase⟩ := yields_iff.1
    ((SymbolicNfa.determinize_runs hl₂.after hsshows (hscount ▸ hg) hflag).yields hmany)
  have hw₃ := hl₃.after
  have hl := hl₂.trans hl₃
  rcases hbcase with ⟨hnone, hbzero, hbshows⟩ | ⟨hsome, Ps, hP, hPreached, hbcount, hbshows⟩
  · rcases hccase with ⟨-, hczero, -, hcshows⟩ | ⟨⟨p, hp⟩, -⟩
    · have hb₃ : Automaton.Shows w₃.current (.matrix b) bare := .matrix (hbshows.later hl)
      have hc₃ : Automaton.Shows w₃.current (.symbolic c) bare := .symbolic hcshows
      refine ⟨b, w₁, s, w₂, c, w₃, [], [], fun i => i, hb, hs, hc, hl₁, hl₂, hl₃,
        Automaton.numbers_of_bare hshows hm hg hnone hb₃ hw₃.canonical hbzero,
        Automaton.numbers_of_bare hshows hm hg hnone hc₃ hw₃.canonical hczero,
        Automaton.isomorphism_of_bare hw₃ hb₃ hc₃ hbzero hczero, fun i _ => rfl,
        fun _ => ⟨hbzero, hczero⟩⟩
    · exact absurd hp (hnone p)
  · rcases hccase with ⟨hnone, -⟩ | ⟨-, Qs, hQ, hQreached, hccount, -, hcshows⟩
    · obtain ⟨p, hp⟩ := hsome
      exact absurd hp (hnone p)
    · have hb₃ : Automaton.Shows w₃.current (.matrix b) (subsets g Ps) :=
        .matrix (hbshows.later hl)
      have hc₃ : Automaton.Shows w₃.current (.symbolic c) (subsets g Qs) := .symbolic hcshows
      have hPs := Automaton.numbers_of_family hshows hm hg hsome hP hPreached hb₃ hw₃.canonical
        hbcount
      have hQs := Automaton.numbers_of_family hshows hm hg hsome hQ hQreached hc₃ hw₃.canonical
        hccount
      obtain ⟨σ, hσ, hplace⟩ := exists_places hPs.distinct hQs.distinct fun S =>
        (hPs.all S).trans (hQs.all S).symm
      refine ⟨b, w₁, s, w₂, c, w₃, Ps, Qs, σ, hb, hs, hc, hl₁, hl₂, hl₃, hPs, hQs,
        Automaton.isomorphism_of_families hw₃ hP hQ hb₃ hc₃ hbcount hccount hσ hplace,
        fun i hi => hplace i (hbcount ▸ hi), fun hempty => ?_⟩
      obtain ⟨p, hp⟩ := hsome
      rw [← h.starting, hempty] at hp
      exact absurd hp List.not_mem_nil

/-- The starting state keeps to itself on the first bit and leads to the other state on every
letter, so it has two successors on some of them. The other one keeps to itself on the second
bit. -/
def branching : BddM MatrixNfa := do
  let x ← SymbolSet.ofBit 1
  let y ← SymbolSet.ofBit 2
  let (p, a) := (← empty).addState false true
  let (q, a) := a.addState true false
  let a ← a.addEdge p x p
  let a ← a.addEdge p (.universal a.manager) q
  a.addEdge q y q

theorem branching_yields (hw : w.current.WellFormed) :
    Yields w branching fun a m => a.stateCount = 2 ∧ a.Ascending ∧ ∃ g, a.Displays m g := by
  apply Runs.bind (SymbolSet.ofBit_yields hw Nat.one_pos (by decide))
  intro x w1 hl1 hx
  apply Runs.bind (SymbolSet.ofBit_yields hl1.after Nat.two_pos (by decide))
  intro y w2 hl2 hy
  apply Runs.bind (empty_displays hl2.after)
  rintro a w3 hl3 ⟨hcount, hstarting, haccepting, ha⟩
  have hx₃ := (hx.later hl2).later hl3
  have hm := hl3.after.canonical
  have hascending : a.Ascending := ⟨hstarting ▸ .nil, haccepting ▸ .nil⟩
  have ha₁ := ha.addState hm false true (by rw [hcount]; decide)
  have hcount₁ : (a.addState false true).2.stateCount = 1 := by rw [stateCount_addState, hcount]
  have ha₂ := ha₁.addState hm true false (by rw [hcount₁]; decide)
  have hcount₂ : ((a.addState false true).2.addState true false).2.stateCount = 2 := by
    rw [stateCount_addState, hcount₁]
  have hp : (a.addState false true).1 = 0 := hcount
  have hq : ((a.addState false true).2.addState true false).1 = 1 := hcount₁
  have hascending₁ := ha.ascending_addState hascending false true
  have hascending₂ := ha₁.ascending_addState hascending₁ true false
  simp only [hp, hq]
  apply Runs.bind (ha₂.addEdge_yields hl3.after (by omega) (by omega) hx₃)
  rintro b w4 hl4 ⟨hb, hbdisplays⟩
  have huniversal := SymbolSet.universal_shows hl4.after.canonical
  rw [← hbdisplays.home] at huniversal
  have hbcount := hb.count.trans hcount₂
  apply Runs.bind (hbdisplays.addEdge_yields hl4.after (by omega) (by omega) huniversal)
  rintro c w5 hl5 ⟨hc, hcdisplays⟩
  have hccount := hc.count.trans hbcount
  apply (hcdisplays.addEdge_yields hl5.after (by omega) (by omega)
    (((hy.later hl3).later hl4).later hl5)).imp
  rintro d w6 - ⟨hd, hddisplays⟩
  exact ⟨hd.count.trans hccount, (hd.trans (hc.trans hb)).ascending hascending₂, _, hddisplays⟩

/-- All sets of states are power-states of a matrix with three labels. -/
theorem determinize_isomorphic_branching : ∃ m a w b w₁ s w₂ c w₃ σ,
    Manager.new 0 1 1 = .ok m ∧ branching ⟨m, []⟩ = .ok a w ∧ a.stateCount = 2 ∧
    a.determinize w = .ok b w₁ ∧ b.stateCount = 4 ∧
    SymbolicNfa.ofAutomaton (.matrix a) w₁ = .ok s w₂ ∧ s.determinize w₂ = .ok c w₃ ∧
    c.stateCount = 4 ∧ Automaton.Isomorphism (.matrix b) (.symbolic c) w₃ σ := by
  obtain ⟨m, hm, b', w', hall, hfour⟩ : ∃ m, Manager.new 0 1 1 = .ok m ∧
      ∃ b w, (do (← branching).determinize) ⟨m, []⟩ = .ok b w ∧ b.stateCount = 4 := by
    decide +kernel
  obtain ⟨a, w, ha, hb'⟩ := exists_of_bind_ok hall
  obtain ⟨hl, hcount, hascending, g, hdisplays⟩ :=
    (branching_yields (w := ⟨m, []⟩) (Manager.wellFormed_new hm)).of_ok ha
  have hfew : ((Automaton.matrix a).powerStates w.current).encard < 2 ^ 32 := by
    refine (Automaton.Shows.encard_powerStates_le (.matrix hdisplays.toShows) hl.after.canonical
      hdisplays.contained).trans_lt ?_
    change (2 : ℕ∞) ^ a.stateCount < 2 ^ 32
    rw [hcount]
    norm_num
  obtain ⟨b, w₁, s, w₂, c, w₃, Ps, Qs, σ, hb, hs, hc, -, -, -, -, -, hiso, -⟩ :=
    determinize_isomorphic hl.after ⟨g, hdisplays.toShows, hdisplays.contained⟩ hdisplays.square
      hascending.starting hfew
  obtain ⟨rfl, rfl⟩ : b' = b ∧ w' = w₁ := by
    cases hb.symm.trans hb'
    exact ⟨rfl, rfl⟩
  have hsame : b'.stateCount = c.stateCount := by
    have hcard := hiso.bijective.ncard_eq
    rwa [Set.ncard_Iio_nat, Set.ncard_Iio_nat] at hcard
  exact ⟨m, a, w, b', w', s, w₂, c, w₃, σ, hm, ha, hcount, hb, hfour, hs, hc, hsame ▸ hfour, hiso⟩

end MatrixNfa

end SymbolicAutomata
