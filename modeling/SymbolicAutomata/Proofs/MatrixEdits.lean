import SymbolicAutomata.Conversion
import SymbolicAutomata.Proofs.ExplicitPowerStates
import SymbolicAutomata.Proofs.Simulations
/-!
# Matrices made by calls

A matrix is changed one label at a time. A loop of such changes adds what each of its rounds adds
and leaves the lists of states alone, so edges between sets of states and the copy of an automaton
in another encoding are sums over pairs of states.
-/
namespace SymbolicAutomata

open Manager Bdd Layout

def augment (g : NFA Nat Nat) (K : Nat → Nat → Nat → Prop) : NFA Nat Nat where
  step p c := {q | q ∈ g.step p c ∨ K p c q}
  start := g.start
  accept := g.accept

variable {w w' : Workspace} {m : Manager} {g : NFA Nat Nat} {n p q : Nat}
  {K K' : Nat → Nat → Nat → Prop}

theorem augment_none : augment g (fun _ _ _ => False) = g := by
  obtain ⟨step, start, accept⟩ := g
  simp [augment]

theorem augment_augment :
    augment (augment g K) K' = augment g fun p c q => K p c q ∨ K' p c q := by
  simp only [augment, Set.mem_ofPred_eq, or_assoc]

theorem Contained.augment (h : Contained g n) (hK : ∀ p c q, K p c q → p < n ∧ q < n) :
    Contained (augment g K) n where
  start := h.start
  source p c q hq := hq.elim (h.source p c q) fun hq => (hK p c q hq).1
  target p c q hq := hq.elim (h.target p c q) fun hq => (hK p c q hq).2
  accept := h.accept

/-- Every round of a loop adds the edges that its item stands for. The loop fails only where a
round does, and what a round tells of its item on its return holds of all items. -/
theorem augments_runs {σ α : Type} {failing : Prop} {I : σ → Manager → NFA Nat Nat → Prop}
    {add : σ → α → BddM σ} {C : α → Prop} {K : α → Nat → Nat → Nat → Prop} {xs : List α} {a : σ}
    (hw : w.current.WellFormed) (ha : I a w.current g)
    (hadd : ∀ x ∈ xs, ∀ w' a g, w.Leads w' → I a w'.current g →
      Runs failing w' (add a x) fun b m => C x ∧ I b m (augment g (K x))) :
    Runs failing w (xs.foldlM add a) fun b m =>
      (∀ x ∈ xs, C x) ∧ I b m (augment g fun p c q => ∃ x ∈ xs, K x p c q) := by
  refine foldlM_runs (I := fun before b m => (∀ x ∈ before, C x) ∧
    I b m (augment g fun p c q => ∃ x ∈ before, K x p c q)) hw (by simpa [augment_none] using ha) ?_
  rintro before x after rfl w' b hl ⟨hbefore, hb⟩
  apply (hadd x (by simp) w' b _ hl hb).imp
  rintro c w1 - ⟨hx, hc⟩
  rw [augment_augment] at hc
  refine ⟨List.forall_mem_append.2 ⟨hbefore, List.forall_mem_singleton.2 hx⟩, ?_⟩
  simpa only [List.mem_append, List.mem_singleton, or_and_right, exists_or, exists_eq_left] using hc

theorem augments_yields {σ α : Type} {I : σ → Manager → NFA Nat Nat → Prop}
    {add : σ → α → BddM σ} {K : α → Nat → Nat → Nat → Prop} {xs : List α} {a : σ}
    (hw : w.current.WellFormed) (ha : I a w.current g)
    (hadd : ∀ x ∈ xs, ∀ w' a g, w.Leads w' → I a w'.current g →
      Yields w' (add a x) fun b m => I b m (augment g (K x))) :
    Yields w (xs.foldlM add a) fun b m =>
      I b m (augment g fun p c q => ∃ x ∈ xs, K x p c q) := by
  apply (augments_runs (C := fun _ => True) hw ha fun x hx w' a g hl hgood => ?_).imp
  · exact fun b w1 _ hb => hb.2
  · exact (hadd x hx w' a g hl hgood).imp fun b w1 _ hb => ⟨trivial, hb⟩

namespace MatrixNfa

variable {a b c : MatrixNfa} {on : SymbolSet} {L : Nat → Prop}

/-- A square matrix that shows an automaton on its rows. -/
structure Displays (a : MatrixNfa) (m : Manager) (g : NFA Nat Nat) : Prop extends a.Shows m g where
  square : a.Square
  contained : Contained g a.stateCount

structure Alike (b a : MatrixNfa) : Prop where
  count : b.stateCount = a.stateCount
  starting : b.starting = a.starting
  accepting : b.accepting = a.accepting

theorem Alike.refl (a : MatrixNfa) : a.Alike a := ⟨rfl, rfl, rfl⟩

theorem Alike.trans (h : c.Alike b) (h' : b.Alike a) : c.Alike a :=
  ⟨h.count.trans h'.count, h.starting.trans h'.starting, h.accepting.trans h'.accepting⟩

theorem Displays.later (h : a.Displays w.current g) (hl : w.Leads w') :
    a.Displays w'.current g := ⟨h.toShows.later hl, h.square, h.contained⟩

theorem Displays.augment_of_none (h : a.Displays m g)
    (hnone : ∀ p q c, c < letterCount → ¬ K p c q)
    (hK : ∀ p c q, K p c q → p < a.stateCount ∧ q < a.stateCount) :
    a.Displays m (augment g K) where
  toShows := h.toShows.congr (fun p q c hc => (or_iff_left (hnone p q c hc)).symm) rfl rfl
  square := h.square
  contained := h.contained.augment hK

theorem empty_displays (hw : w.current.WellFormed) :
    Yields w empty fun b m => b.stateCount = 0 ∧ b.starting = [] ∧ b.accepting = [] ∧
      b.Displays m bare := by
  apply (empty_yields hw).imp
  rintro b w1 - ⟨hcount, hstarting, haccepting, hsquare, hb⟩
  exact ⟨hcount, hstarting, haccepting, hb, hsquare, bare_contained _⟩

theorem Displays.addState (h : a.Displays m g) (hm : m.Canonical) (accepting starting : Bool)
    (hfew : a.stateCount + 1 < 2 ^ 32) :
    (a.addState accepting starting).2.Displays m
      (enlarge g a.stateCount (a.stateCount + 1) accepting starting) where
  toShows := addState_shows accepting starting h.toShows hm h.square h.contained hfew
  square := h.square.addState
  contained := by
    rw [stateCount_addState]
    exact h.contained.enlarge (Nat.le_succ _)

theorem Displays.addEdge_yields (h : a.Displays w.current g) (hw : w.current.WellFormed)
    (hp : p < a.stateCount) (hq : q < a.stateCount) (hon : on.Shows w.current L) :
    Yields w (a.addEdge p on q) fun b m =>
      b.Alike a ∧ b.Displays m (connect g (· = p) L (· = q)) := by
  apply (MatrixNfa.addEdge_yields hw h.toShows h.square hp hq hon).imp
  rintro b w1 - ⟨hcount, hstarting, haccepting, hsquare, hb⟩
  refine ⟨⟨hcount, hstarting, haccepting⟩, hb, hsquare, ?_⟩
  rw [hcount]
  exact h.contained.connect (fun _ heq => heq ▸ hp) fun _ heq => heq ▸ hq

/-- The matrix displays an automaton on the states of another one. -/
structure Revises (b a : MatrixNfa) (m : Manager) (g : NFA Nat Nat) : Prop where
  alike : b.Alike a
  displays : b.Displays m g

theorem Revises.later (h : b.Revises a w.current g) (hl : w.Leads w') :
    b.Revises a w'.current g := ⟨h.alike, h.displays.later hl⟩

theorem Revises.augment_of_none (h : b.Revises a m g)
    (hnone : ∀ p q c, c < letterCount → ¬ K p c q)
    (hK : ∀ p c q, K p c q → p < a.stateCount ∧ q < a.stateCount) :
    b.Revises a m (augment g K) := by
  refine ⟨h.alike, h.displays.augment_of_none hnone ?_⟩
  rwa [h.alike.count]

theorem Revises.addEdge_yields (h : b.Revises a w.current g) (hw : w.current.WellFormed)
    (hp : p < a.stateCount) (hq : q < a.stateCount) (hon : on.Shows w.current L) :
    Yields w (b.addEdge p on q) fun c m =>
      c.Revises a m (augment g fun p' c q' => p' = p ∧ q' = q ∧ L c) := by
  rw [← h.alike.count] at hp hq
  apply (h.displays.addEdge_yields hw hp hq hon).imp
  rintro c w1 - ⟨hc, hdisplays⟩
  have hconnect : connect g (· = p) L (· = q) =
      augment g fun p' c q' => p' = p ∧ q' = q ∧ L c := by
    simp only [connect, augment, and_comm, and_left_comm]
  exact ⟨hc.trans h.alike, hconnect ▸ hdisplays⟩

structure Ascending (a : MatrixNfa) : Prop where
  starting : a.starting.Pairwise (· < ·)
  accepting : a.accepting.Pairwise (· < ·)

theorem Alike.ascending (h : b.Alike a) (ha : a.Ascending) : b.Ascending where
  starting := h.starting ▸ ha.starting
  accepting := h.accepting ▸ ha.accepting

theorem Displays.ascending_addState (h : a.Displays m g) (ha : a.Ascending)
    (accepting starting : Bool) : (a.addState accepting starting).2.Ascending := by
  have hgrow : ∀ {qs : List Nat} {b : Bool}, qs.Pairwise (· < ·) → (∀ q ∈ qs, q < a.stateCount) →
      (if b then qs ++ [a.stateCount] else qs).Pairwise (· < ·) := by
    intro qs b hqs hlt
    cases b with
    | true => simpa [List.pairwise_append, hqs] using hlt
    | false => simpa using hqs
  exact ⟨hgrow ha.starting fun q hq => h.contained.start q ((h.starting q).1 hq),
    hgrow ha.accepting fun q hq => h.contained.accept q ((h.accepting q).1 hq)⟩

theorem Displays.unique (h : a.Displays m g) (h' : b.Displays m g) (ha : a.Ascending)
    (hb : b.Ascending) (hcount : a.stateCount = b.stateCount) (hm : m.Canonical) : a = b := by
  have hstarting : a.starting = b.starting :=
    Lists.unique ⟨ha.starting, h.starting⟩ ⟨hb.starting, h'.starting⟩
  have haccepting : a.accepting = b.accepting :=
    Lists.unique ⟨ha.accepting, h.accepting⟩ ⟨hb.accepting, h'.accepting⟩
  have hmanager : a.manager = b.manager := h.home.trans h'.home.symm
  have hrows : a.rows = b.rows := by
    apply Array.ext hcount
    intro p hp hp'
    have hlen : a.rows[p].size = a.stateCount := h.square p _ (Array.getElem?_eq_getElem hp)
    have hlen' : b.rows[p].size = b.stateCount := h'.square p _ (Array.getElem?_eq_getElem hp')
    apply Array.ext (by omega)
    intro q hq hq'
    have hlabel := h.label_shows h.square (Array.getElem?_eq_getElem hp)
      (Array.getElem?_eq_getElem hq)
    have hlabel' := h'.label_shows h'.square (Array.getElem?_eq_getElem hp')
      (Array.getElem?_eq_getElem hq')
    exact hlabel.2.unique hlabel'.2 hm
  obtain ⟨_, _, _, _⟩ := a
  obtain ⟨_, _, _, _⟩ := b
  simp_all

end MatrixNfa

namespace Automaton

variable {a : MatrixNfa} {on : SymbolSet} {L : Nat → Prop} {s t : ValueSet} {S T : Set Nat}

/-- The automaton is a matrix on the states of another one. -/
def Revises (b : Automaton) (a : MatrixNfa) (m : Manager) (g : NFA Nat Nat) : Prop :=
  ∃ c, b = matrix c ∧ c.Revises a m g

theorem Revises.later {b : Automaton} (h : b.Revises a w.current g) (hl : w.Leads w') :
    b.Revises a w'.current g := by
  obtain ⟨c, hc, h⟩ := h
  exact ⟨c, hc, h.later hl⟩

theorem Revises.augment_of_none {b : Automaton} (h : b.Revises a m g)
    (hnone : ∀ p q c, c < letterCount → ¬ K p c q)
    (hK : ∀ p c q, K p c q → p < a.stateCount ∧ q < a.stateCount) :
    b.Revises a m (augment g K) := by
  obtain ⟨c, hc, h⟩ := h
  exact ⟨c, hc, h.augment_of_none hnone hK⟩

theorem Revises.addEdge_yields {b : Automaton} (h : b.Revises a w.current g)
    (hw : w.current.WellFormed) (hp : p < a.stateCount) (hq : q < a.stateCount)
    (hon : on.Shows w.current L) :
    Yields w (b.addEdge p on q) fun c m =>
      c.Revises a m (augment g fun p' c q' => p' = p ∧ q' = q ∧ L c) := by
  obtain ⟨b, rfl, h⟩ := h
  apply Runs.bind (h.addEdge_yields hw hp hq hon)
  intro c w1 hl1 hc
  exact Runs.pure hl1.after ⟨c, rfl, hc⟩

theorem stateOf_eq (hp : p < 2 ^ 32) : stateOf p = p := Nat.mod_eq_of_lt hp

theorem Selects.elements_yields {b : Automaton} (hs : b.Selects w.current s S)
    (hw : w.current.WellFormed) (hlen : s.domain.len ≤ 64) :
    Yields w s.elements fun qs _ => ∀ q, q ∈ qs ↔ q ∈ S := by
  have hend : s.domain.base + s.domain.len ≤ 2 ^ 32 := Nat.le_trans hs.ends (by decide)
  apply (hs.shows.elements_yields hw hend hlen).imp
  intro qs w1 _ hqs q
  rw [hqs]
  exact and_iff_right_of_imp (hs.carried q)

/-- Edges between sets of states are added pair by pair. -/
theorem addEdgeSets_displays (h : a.Displays w.current g) (hw : w.current.WellFormed)
    (hs : (matrix a).Selects w.current s S) (ht : (matrix a).Selects w.current t T)
    (hslen : s.domain.len ≤ 64) (htlen : t.domain.len ≤ 64) (hon : on.Shows w.current L) :
    Yields w (addEdgeSets (matrix a) s on t) fun b m =>
      b.Revises a m (augment g fun p c q => p ∈ S ∧ L c ∧ q ∈ T) := by
  have hfew := h.few
  apply Runs.bind (hs.elements_yields hw hslen)
  intro ps w1 hl1 hps
  rw [map_eq_pure_bind]
  apply Runs.bind (augments_yields (K := fun p p' c q' => p' = p ∧ L c ∧ q' ∈ T)
    (I := fun b m g => b.Revises a m g) hl1.after ⟨.refl a, h.later hl1⟩ ?_)
  · intro b w2 hl2 hb
    refine Runs.pure hl2.after ⟨b, rfl, ?_⟩
    have heq : (augment g fun p c q => ∃ x ∈ ps, p = x ∧ L c ∧ q ∈ T) =
        augment g fun p c q => p ∈ S ∧ L c ∧ q ∈ T := by simp [hps]
    exact heq ▸ hb
  · intro p hp w' b g' hl' hb
    have hpn : p < a.stateCount := hs.states p ((hps p).1 hp)
    apply Runs.bind ((ht.later (hl1.trans hl')).elements_yields hl'.after htlen)
    intro qs w2 hl2 hqs
    apply (augments_yields (K := fun q p' c q' => p' = p ∧ q' = q ∧ L c)
      (I := fun b m g => b.Revises a m g) hl2.after ⟨hb.alike, hb.displays.later hl2⟩ ?_).imp
    · intro c w3 _ hc
      have heq : (augment g' fun p' c q' => ∃ q ∈ qs, p' = p ∧ q' = q ∧ L c) =
          augment g' fun p' c q' => p' = p ∧ L c ∧ q' ∈ T := by
        simp only [hqs]
        congr 1
        funext p' c q'
        exact propext ⟨fun ⟨q, hq, hp', hq', hc⟩ => ⟨hp', hc, hq' ▸ hq⟩,
          fun ⟨hp', hc, hq⟩ => ⟨q', hq, hp', rfl, hc⟩⟩
      exact heq ▸ hc
    · intro q hq w'' b' g'' hl'' hb'
      have hqn : q < a.stateCount := ht.states q ((hqs q).1 hq)
      rw [stateOf_eq (by omega), stateOf_eq (by omega)]
      exact hb'.addEdge_yields hl''.after hpn hqn
        (hon.later (hl1.trans (hl'.trans (hl2.trans hl''))))

end Automaton

/-- The states below `n` with the ends of an automaton, without edges. -/
def endsBelow (g : NFA Nat Nat) (n : Nat) : NFA Nat Nat :=
  ⟨fun _ _ => ∅, {q | q ∈ g.start ∧ q < n}, {q | q ∈ g.accept ∧ q < n}⟩

theorem endsBelow_zero : endsBelow g 0 = bare := by simp [endsBelow, bare]

theorem endsBelow_succ {accepts starts : Bool} (haccepts : accepts = true ↔ n ∈ g.accept)
    (hstarts : starts = true ↔ n ∈ g.start) :
    enlarge (endsBelow g n) n (n + 1) accepts starts = endsBelow g (n + 1) := by
  have hends : ∀ {S : Set Nat} {b : Bool}, (b = true ↔ n ∈ S) →
      {p | (p ∈ S ∧ p < n) ∨ b = true ∧ n ≤ p ∧ p < n + 1} = {p | p ∈ S ∧ p < n + 1} := by
    intro S b hb
    ext p
    change (p ∈ S ∧ p < n) ∨ b = true ∧ n ≤ p ∧ p < n + 1 ↔ p ∈ S ∧ p < n + 1
    rw [hb]
    rcases Nat.lt_trichotomy p n with hp | rfl | hp
    · have : ¬ n ≤ p := by omega
      simp [hp, this, Nat.lt_succ_of_lt hp]
    · simp
    · have : ¬ p < n + 1 := by omega
      simp [this, Nat.lt_asymm hp]
  unfold enlarge endsBelow
  congr 1
  · exact hends hstarts
  · exact hends haccepts

theorem augment_endsBelow (hg : Contained g n) :
    (augment (endsBelow g n) fun p c q => q ∈ g.step p c) = g := by
  have hends : ∀ {S : Set Nat}, (∀ q ∈ S, q < n) → {q | q ∈ S ∧ q < n} = S := fun hS =>
    Set.ext fun q => and_iff_left_of_imp (hS q)
  obtain ⟨step, start, accept⟩ := g
  simp only [augment, endsBelow, hends hg.start, hends hg.accept, Set.mem_empty_iff_false, false_or]
  rfl

namespace MatrixNfa

variable {a : MatrixNfa} {source : Automaton} {starting accepting : ValueSet} {j k : Nat}

theorem addStates_yields (hw : w.current.WellFormed)
    (h : a.Displays w.current (endsBelow g a.stateCount)) (ha : a.Ascending)
    (hstarting : starting.domain = sourceBlock j ∧ starting.Shows w.current (· ∈ g.start))
    (haccepting : accepting.domain = sourceBlock j ∧ accepting.Shows w.current (· ∈ g.accept))
    (hj : j ≤ 32) (hroom : a.stateCount + k ≤ 2 ^ j) (hfew : a.stateCount + k < 2 ^ 32) :
    Yields w (addStates starting accepting a (List.range' a.stateCount k)) fun b m =>
      b.stateCount = a.stateCount + k ∧ b.Ascending ∧
        b.Displays m (endsBelow g (a.stateCount + k)) := by
  have hcontains : ∀ {s : ValueSet} {S : Set Nat} {q : Nat},
      s.domain = sourceBlock j ∧ s.Shows w.current (· ∈ S) → q < 2 ^ j →
      ∃ b, s.contains q w.current = .ok b ∧ (b = true ↔ q ∈ S) := by
    rintro s S q ⟨hd, hs⟩ hq
    have hlen : s.domain.len = j := by rw [hd]; rfl
    have hbase : s.domain.base = 1 := by rw [hd]; rfl
    obtain ⟨b, hb, hiff⟩ := hs.contains_spec hw.canonical (by omega) (by omega) q
    rw [hlen] at hiff
    exact ⟨b, hb, hiff.trans (and_iff_right hq)⟩
  induction k generalizing a with
  | zero => exact Runs.pure hw ⟨rfl, ha, h⟩
  | succ k ih =>
    obtain ⟨starts, hrun, hstarts⟩ := hcontains hstarting (q := a.stateCount) (by omega)
    obtain ⟨accepts, hrun', haccepts⟩ := hcontains haccepting (q := a.stateCount) (by omega)
    have hcount : (a.addState accepts starts).2.stateCount = a.stateCount + 1 := stateCount_addState
    have hnext := h.addState hw.canonical accepts starts (by omega)
    rw [endsBelow_succ haccepts hstarts, ← hcount] at hnext
    have hrest := ih hnext (h.ascending_addState ha accepts starts) (by omega) (by omega)
    rw [hcount, Nat.add_assoc, Nat.add_comm 1 k] at hrest
    unfold addStates at hrest ⊢
    rw [List.range'_succ, List.foldlM_cons]
    simp only [ne_eq, not_true_eq_false, ↓reduceIte, bind_assoc, pure_bind]
    exact Runs.ask_bind hrun' (Runs.ask_bind hrun hrest)

theorem Revises.copy_yields {b : MatrixNfa} {g' : NFA Nat Nat} (hb : b.Revises a w.current g')
    (hw : w.current.WellFormed) (h : source.Shows w.current g) (hg : Contained g source.size)
    (hcount : a.stateCount = source.size) (hp : p < source.size) (hq : q < source.size) :
    Yields w (do
      let on ← source.edge p q
      if on.isEmpty then return b
      b.addEdge p on q) fun c m =>
        c.Revises a m (augment g' fun p' c q' => p' = p ∧ q' = q ∧ q ∈ g.step p c) := by
  rw [← hcount] at hp hq
  apply Runs.bind (h.edge_yields hw hg (hcount ▸ hp) (hcount ▸ hq))
  intro on w1 hl1 hon
  split_ifs with hempty
  · have hnone := (hon.isEmpty_iff hl1.after.canonical).1 hempty
    refine Runs.pure hl1.after ((hb.later hl1).augment_of_none ?_ ?_)
    · rintro p' q' c hc ⟨-, -, hstep⟩
      exact hnone c hc hstep
    · rintro p' c q' ⟨rfl, rfl, -⟩
      exact ⟨hp, hq⟩
  · exact (hb.later hl1).addEdge_yields hl1.after hp hq hon

theorem ofAutomaton_yields (hw : w.current.WellFormed) (h : source.Shows w.current g)
    (hg : Contained g source.size) :
    Yields w (ofAutomaton source) fun b m =>
      b.stateCount = source.size ∧ b.Ascending ∧ b.Displays m g := by
  have hk := h.width_le
  have hn := le_two_pow_bitsNeeded source.size
  have hfew := h.few
  apply Runs.bind (h.ends_yields hw hg)
  intro starting w1 hl1 hstarting
  apply Runs.bind ((h.later hl1).ends_yields hl1.after hg)
  intro accepting w2 hl2 haccepting
  apply Runs.bind ((h.later (hl1.trans hl2)).states_yields hl2.after)
  intro states w3 hl3 hstates
  apply Runs.bind (empty_displays hl3.after)
  rintro a w4 hl4 ⟨hzero, hnostart, hnoaccept, ha⟩
  have hlen : states.domain.len = bitsNeeded source.size := by rw [hstates.1]; rfl
  have hbase : states.domain.base = 1 := by rw [hstates.1]; rfl
  obtain ⟨qs, hqs, hascending, hmem⟩ := ValueSet.toList_spec (s := states) (P := (· < source.size))
    hl4.after.canonical (by omega) (by omega) (hstates.2.later hl4).denotes
  obtain rfl : qs = List.range source.size := by
    refine Lists.unique (S := Set.Iio source.size) ⟨hascending, fun q => ?_⟩
      ⟨List.pairwise_lt_range, fun q => List.mem_range⟩
    rw [hmem, hlen]
    exact and_iff_right_of_imp fun hq => Nat.lt_of_lt_of_le hq hn
  apply Runs.ask_bind hqs
  have hl34 := hl3.trans hl4
  have hascends : a.Ascending := ⟨hnostart ▸ List.Pairwise.nil, hnoaccept ▸ List.Pairwise.nil⟩
  have hstates := addStates_yields (g := g) (k := source.size) hl4.after
    (by rw [hzero, endsBelow_zero]; exact ha) hascends
    ⟨hstarting.1, hstarting.2.later (hl2.trans hl34)⟩ ⟨haccepting.1, haccepting.2.later hl34⟩ hk
    (by omega) (by omega)
  rw [hzero, Nat.zero_add, ← List.range_eq_range'] at hstates
  apply Runs.bind hstates
  rintro b w5 hl5 ⟨hcount, hb, hdisplays⟩
  have h5 := h.later (hl1.trans (hl2.trans (hl34.trans hl5)))
  have hrange : ∀ {p}, p ∈ List.range b.stateCount → p < source.size := fun hp =>
    hcount ▸ List.mem_range.1 hp
  apply (augments_yields (I := fun (c : MatrixNfa) m g => c.Revises b m g)
    (K := fun p p' c q' => ∃ q ∈ List.range b.stateCount, p' = p ∧ q' = q ∧ q ∈ g.step p c)
    hl5.after ⟨.refl b, hdisplays⟩ fun p hp w' c g' hl' hc => ?_).imp
  · intro c w6 _ hc
    have heq : (augment (endsBelow g source.size) fun p c q => ∃ x ∈ List.range b.stateCount,
        ∃ y ∈ List.range b.stateCount, p = x ∧ q = y ∧ y ∈ g.step x c) = g := by
      conv_rhs => rw [← augment_endsBelow hg]
      congr 1
      funext p c q
      simp only [List.mem_range, hcount]
      refine propext ⟨?_, fun hstep =>
        ⟨p, hg.source p c q hstep, q, hg.target p c q hstep, rfl, rfl, hstep⟩⟩
      rintro ⟨x, -, y, -, rfl, rfl, hstep⟩
      exact hstep
    exact ⟨hc.alike.count.trans hcount, hc.alike.ascending hb, heq ▸ hc.displays⟩
  · exact augments_yields (I := fun (c : MatrixNfa) m g => c.Revises b m g) hl'.after hc
      fun q hq w'' d g'' hl'' hd => hd.copy_yields hl''.after
        ((h5.later hl').later hl'') hg hcount (hrange hp) (hrange hq)

end MatrixNfa

end SymbolicAutomata
