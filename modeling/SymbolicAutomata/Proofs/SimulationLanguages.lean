import SymbolicAutomata.Proofs.Isomorphisms
import SymbolicAutomata.Proofs.Simulations
/-!
# What a simulation says about words

A simulation answers a run of the first automaton by a run of the second on the same word, letter
by letter. Forward, the run answered is one that accepts; backward, it is one that starts the
automaton, read from its end. Simulations of one automaton by a second and of the second by a third
compose, and equality of states is one, so the greatest ones do as well.
-/
namespace SymbolicAutomata

open Manager Bdd

namespace Automaton

variable {w w' : Workspace} {m : Manager} {a b c : Automaton} {g₁ g₂ : NFA Nat Nat}
  {dir : Direction} {S₁ S₂ S₃ : Set Nat} {R T : Set (Nat × Nat)} {p q r : Nat} {u v : Word}

theorem Run.append (h : a.Run m p u q) (h' : a.Run m q v r) : a.Run m p (u ++ v) r := by
  induction h with
  | nil q => exact h'
  | cons first rest ih => exact .cons first (ih h')

theorem Run.reverse (h : (reversed a).Run m p u q) : a.Run m q u.reverse p := by
  induction h with
  | nil q => exact .nil q
  | @cons p q r x u first rest ih =>
    rw [List.reverse_cons]
    exact ih.append (.cons first (.nil p))

theorem Run.reversed (h : a.Run m p u q) : (reversed a).Run m q u.reverse p := by
  induction h with
  | nil q => exact .nil q
  | @cons p q r x u first rest ih =>
    rw [List.reverse_cons]
    exact ih.append (.cons first (.nil p))

theorem moves_iff_hasEdge {x : Letter} : a.Moves m dir p x q ↔ (view dir a).HasEdge m p x q := by
  cases dir <;> exact Iff.rfl

/-- The words of a state in one direction: forward those accepted from it, backward those that lead
there from a starting state. -/
def words (a : Automaton) (m : Manager) : Direction → Nat → Set Word
  | .forward, p => {u | ∃ q, a.Run m p u q ∧ a.Begins m .backward q}
  | .backward, p => {u | p ∈ a.reached m u}

namespace IsSimulation

/-- Along a run the second automaton keeps to states that simulate those of the first. -/
theorem answers (h : IsSimulation dir a b m S₁ S₂ R) (hpq : (p, q) ∈ R)
    (hS₁ : ∀ p x p', a.Moves m dir p x p' → p' ∈ S₁) {p' : Nat} (hrun : (view dir a).Run m p u p') :
    ∃ q', (view dir b).Run m q u q' ∧ (p', q') ∈ R := by
  induction hrun generalizing q with
  | nil p => exact ⟨q, .nil q, hpq⟩
  | cons first rest ih =>
    have hmove := moves_iff_hasEdge.2 first
    obtain ⟨q₁, -, hanswer, hnext⟩ := h.moves _ _ hpq _ (hS₁ _ _ _ hmove) _ hmove
    obtain ⟨q', hrun, hlast⟩ := ih hnext
    exact ⟨q', .cons (moves_iff_hasEdge.1 hanswer) hrun, hlast⟩

theorem words_subset (h : IsSimulation dir a b m S₁ S₂ R) (hpq : (p, q) ∈ R)
    (hS₁ : ∀ p x p', a.Moves m dir p x p' → p' ∈ S₁) : a.words m dir p ⊆ b.words m dir q := by
  intro u hu
  cases dir with
  | forward =>
    obtain ⟨p', hrun, hbegins⟩ := hu
    obtain ⟨q', hanswer, hlast⟩ := h.answers hpq hS₁ hrun
    exact ⟨q', hanswer, h.begins _ _ hlast hbegins⟩
  | backward =>
    obtain ⟨p', hbegins, hrun⟩ := hu
    obtain ⟨q', hanswer, hlast⟩ := h.answers hpq hS₁ hrun.reversed
    have hback : b.Run m q' u q := by simpa using Run.reverse hanswer
    exact ⟨q', h.begins _ _ hlast hbegins, hback⟩

theorem comp (h : IsSimulation dir a b m S₁ S₂ R) (h' : IsSimulation dir b c m S₂ S₃ T) :
    IsSimulation dir a c m S₁ S₃ {x | ∃ q, (x.1, q) ∈ R ∧ (q, x.2) ∈ T} where
  within := by
    rintro p r ⟨q, hpq, hqr⟩
    exact ⟨(h.within p q hpq).1, (h'.within q r hqr).2⟩
  begins := by
    rintro p r ⟨q, hpq, hqr⟩ hp
    exact h'.begins q r hqr (h.begins p q hpq hp)
  moves := by
    rintro p r ⟨q, hpq, hqr⟩ p' hp' x hmove
    obtain ⟨q', hq', hmove', hpq'⟩ := h.moves p q hpq p' hp' x hmove
    obtain ⟨r', hr', hmove'', hqr'⟩ := h'.moves q r hqr q' hq' x hmove'
    exact ⟨r', hr', hmove'', q', hpq', hqr'⟩

end IsSimulation

/-- The pairs of states, of which the second simulates the first. -/
def simulated (dir : Direction) (a b : Automaton) (m : Manager) : Set (Nat × Nat) :=
  {x | ∃ R, IsSimulation dir a b m {p | p < a.size} {q | q < b.size} R ∧ x ∈ R}

/-- From now on the search for a simulation ends with the pairs of `R`. -/
def Finds (w : Workspace) (dir : Direction) (a b : Automaton) (R : Set (Nat × Nat)) : Prop :=
  ∀ w', w.Leads w' → Yields w' (simulation dir a b) fun pairs _ => ∀ x, x ∈ pairs ↔ x ∈ R

theorem Finds.unique (h : Finds w dir a b R) (h' : Finds w dir a b T) (hw : w.current.WellFormed) :
    R = T := by
  obtain ⟨pairs, w1, hrun, -, hR⟩ := yields_iff.1 (h w (.refl hw))
  obtain ⟨pairs', w2, hrun', -, hT⟩ := yields_iff.1 (h' w (.refl hw))
  cases hrun.symm.trans hrun'
  exact Set.ext fun x => (hR x).symm.trans (hT x)

theorem simulation_yields (hw : w.current.WellFormed) (ha : Shows w.current a g₁)
    (hb : Shows w.current b g₂) (hg₁ : Contained g₁ a.size) (hg₂ : Contained g₂ b.size) :
    Yields w (simulation dir a b) fun pairs _ =>
      ∀ x, x ∈ pairs ↔ x ∈ simulated dir a b w.current := by
  apply Runs.bind (ha.within_yields (ha.states_yields hw))
  intro s₁ w1 hl1 hs₁
  have hb1 := hb.later hl1
  apply Runs.bind (hb1.within_yields (hb1.states_yields hl1.after))
  intro s₂ w2 hl2 hs₂
  have ha1 := ha.later hl1
  have hselects₁ := (ha1.selects_states hs₁).later hl2
  have hselects₂ := (hb1.later hl2).selects_states hs₂
  apply (simulationWithin_yields hl2.after (ha1.later hl2) (hb1.later hl2) hg₁ hg₂ hselects₁
    hselects₂).imp
  rintro pairs w3 - ⟨hsim, hupper⟩ x
  constructor
  · exact fun hx => ⟨_, (isSimulation_iff ha hb hw.canonical hg₁ hg₂).2 hsim, hx⟩
  · rintro ⟨R, hR, hx⟩
    exact hupper ((isSimulation_iff ha hb hw.canonical hg₁ hg₂).1 hR) hx

theorem WellFormed.finds (ha : a.WellFormed w.current) (hb : b.WellFormed w.current) :
    Finds w dir a b (simulated dir a b w.current) := by
  obtain ⟨g₁, hshows₁, hg₁⟩ := ha.exists_shows
  obtain ⟨g₂, hshows₂, hg₂⟩ := hb.exists_shows
  intro w' hl
  have hsame : simulated dir a b w'.current = simulated dir a b w.current := by
    have hafter := hl.after.canonical
    have hbefore := hl.before.canonical
    simp only [simulated, isSimulation_iff hshows₁ hshows₂ hbefore hg₁ hg₂,
      isSimulation_iff (hshows₁.later hl) (hshows₂.later hl) hafter hg₁ hg₂]
  rw [← hsame]
  exact simulation_yields hl.after (hshows₁.later hl) (hshows₂.later hl) hg₁ hg₂

theorem WellFormed.moves_lt (h : a.WellFormed m) (hm : m.Canonical) {x : Letter}
    (hmove : a.Moves m dir p x q) : q < a.size := by
  obtain ⟨g, hshows, hg⟩ := h.exists_shows
  cases dir with
  | forward => exact hg.target _ _ _ ((hshows.hasEdge_iff hm hg).1 hmove)
  | backward => exact hg.source _ _ _ ((hshows.hasEdge_iff hm hg).1 hmove)

theorem words_subset_of_simulated (ha : a.WellFormed m) (hm : m.Canonical)
    (h : (p, q) ∈ simulated dir a b m) : a.words m dir p ⊆ b.words m dir q := by
  obtain ⟨R, hR, hpq⟩ := h
  exact hR.words_subset hpq fun p x p' hmove => ha.moves_lt hm hmove

theorem simulated_self (hp : p < a.size) : (p, p) ∈ simulated dir a a m :=
  ⟨_, isSimulation_self, rfl, hp⟩

theorem simulated_trans (h : (p, q) ∈ simulated dir a b m) (h' : (q, r) ∈ simulated dir b c m) :
    (p, r) ∈ simulated dir a c m := by
  obtain ⟨R, hR, hpq⟩ := h
  obtain ⟨T, hT, hqr⟩ := h'
  exact ⟨_, hR.comp hT, q, hpq, hqr⟩

/-- The searches between three automata of one manager, in either direction: a state that is found
to simulate another has all its words, each state is found to simulate itself, and what is found
composes. -/
theorem simulation_sound (hw : w.current.WellFormed) (ha : a.WellFormed w.current)
    (hb : b.WellFormed w.current) (hc : c.WellFormed w.current) (dir : Direction) :
    ∃ R₁₁ R₁₂ R₂₃ R₁₃ : Set (Nat × Nat),
      Finds w dir a a R₁₁ ∧ Finds w dir a b R₁₂ ∧ Finds w dir b c R₂₃ ∧ Finds w dir a c R₁₃ ∧
      (∀ p q, (p, q) ∈ R₁₂ → a.words w.current dir p ⊆ b.words w.current dir q) ∧
      (∀ p < a.size, (p, p) ∈ R₁₁) ∧
      ∀ p q r, (p, q) ∈ R₁₂ → (q, r) ∈ R₂₃ → (p, r) ∈ R₁₃ := by
  refine ⟨_, _, _, _, ha.finds ha, ha.finds hb, hb.finds hc, ha.finds hc, ?_, ?_, ?_⟩
  · exact fun p q hpq => words_subset_of_simulated ha hw.canonical hpq
  · exact fun p hp => simulated_self hp
  · exact fun p q r hpq hqr => simulated_trans hpq hqr

/-- Two letters accept from the first state where one does from the second: the state of either
length simulates that of one letter, and not the accepting one. -/
theorem simulation_sound_draw : ∃ m a w R, Manager.new 0 1 1 = .ok m ∧
    SymbolicNfa.draw 3 [0] [2] [(0, 2), (0, 1), (1, 2)] ⟨m, []⟩ = .ok a w ∧
    Finds w .forward (symbolic a) (symbolic a) R ∧ (1, 0) ∈ R ∧ (2, 0) ∉ R ∧
    (symbolic a).words w.current .forward 1 ⊆ (symbolic a).words w.current .forward 0 := by
  obtain ⟨m, hm⟩ : ∃ m, Manager.new 0 1 1 = .ok m := ⟨_, rfl⟩
  obtain ⟨a, w, ha, hl, hcount, -, hshows, hcontained, hwell⟩ :=
    SymbolicNfa.draw_wellFormed 3 [0] [2] [(0, 2), (0, 1), (1, 2)] hm (by decide) (by decide)
      (by decide) (by decide)
  have hc := hl.after.canonical
  have hsound := simulation_sound (a := symbolic a) (b := symbolic a) (c := symbolic a) hl.after
    hwell hwell hwell .forward
  obtain ⟨-, R, -, -, -, hfinds, -, -, hwords, -⟩ := hsound
  have hR : R = simulated .forward (symbolic a) (symbolic a) w.current :=
    hfinds.unique (WellFormed.finds hwell hwell) hl.after
  have hsim : Arena.Simulates ⟨drawing [0] [2] [(0, 2), (0, 1), (1, 2)],
      drawing [0] [2] [(0, 2), (0, 1), (1, 2)], {p | p < a.stateCount}, {q | q < a.stateCount}⟩
      {(1, 0), (2, 2)} := by
    rw [hcount]
    constructor
    · rintro p q (h | h) <;> cases h <;> decide
    · rintro p q (h | h) hp <;> cases h
      · exact absurd (List.mem_singleton.1 hp) (by decide)
      · exact hp
    · rintro p q (h | h) p' - x hstep <;> cases h
      · exact ⟨2, by decide, by simp, by simp_all⟩
      · simp at hstep
  have hmem : (1, 0) ∈ R := by
    rw [hR]
    exact ⟨_, (isSimulation_iff (.symbolic hshows) (.symbolic hshows) hc hcontained hcontained).2
      hsim, .inl rfl⟩
  refine ⟨m, a, w, R, hm, ha, hfinds, hmem, fun hmem' => ?_, hwords 1 0 hmem⟩
  have hbegins : ∀ q, (symbolic a).Begins w.current .backward q ↔ q = 2 := fun q => by
    rw [Shows.begins_iff (.symbolic hshows) hc hcontained]
    exact List.mem_singleton
  obtain ⟨q, hrun, hq⟩ := hwords 2 0 hmem' ⟨2, .nil 2, (hbegins 2).2 rfl⟩
  cases hrun
  exact absurd ((hbegins 0).1 hq) (by decide)

end Automaton

end SymbolicAutomata
