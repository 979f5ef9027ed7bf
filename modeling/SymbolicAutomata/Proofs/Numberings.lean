import SymbolicAutomata.Proofs.Decisions
import SymbolicAutomata.Proofs.Determinism
/-!
# The numbers of deterministic states

The search for power-states gives the starting states the number 0 and numbers the other
power-states as words lead to them. An automaton whose flag says that it is deterministic is not
searched. It keeps the numbers that it has, and the states that no word leads to.
-/
namespace SymbolicAutomata.SymbolicNfa

open Manager Bdd Layout

variable {w w' : Workspace} {m : Manager} {a b : SymbolicNfa} {g : NFA Nat Nat}

/-- State 0 is the only starting state, and words lead from it to all states. -/
structure Rooted (a : SymbolicNfa) (m : Manager) : Prop where
  start : ∀ p, a.starting.contains p m = .ok true ↔ p = 0
  reached : a.AllReached m

/-- What the search finds is numbered from the starting states on. -/
theorem rooted_of_family {Ss : List (Set Nat)} (hfamily : Family g Ss)
    (hreached : ∀ S ∈ Ss, Reached g S) (hb : b.Shows m (subsets g Ss)) (hm : m.Canonical)
    (hcount : b.stateCount = Ss.length) : b.Rooted m := by
  have hcontained : Bounded (subsets g Ss) b.stateCount := hcount ▸ hfamily.contained.toBounded
  constructor
  · intro p
    rw [hb.starts_iff hm hcontained]
    rfl
  · rw [hb.allReached_iff hm hcontained, hcount]
    exact fun q hq => hfamily.reachable hreached hq

theorem determinize_rooted (hw : w.current.WellFormed) (h : a.Shows w.current g)
    (hg : Contained g a.stateCount) (hstart : ∃ p, p ∈ g.start) :
    Runs (ManyReached g (2 ^ 32)) w a.determinize fun b m =>
      b.Rooted m ↔ (a.determinism = .complete → a.Rooted w.current) := by
  by_cases hflag : a.determinism = .complete
  · unfold determinize
    rw [if_pos hflag]
    exact Runs.pure hw ⟨fun hrooted _ => hrooted, fun hrooted => hrooted hflag⟩
  · apply (determinize_runs hw h hg hflag).imp
    rintro b w1 hl1 (⟨hnone, -⟩ | ⟨-, Ss, hfamily, hreached, hcount, -, hb⟩)
    · obtain ⟨p, hp⟩ := hstart
      exact absurd hp (hnone p)
    · exact iff_of_true (rooted_of_family hfamily hreached hb hl1.after.canonical hcount)
        fun hcomplete => absurd hcomplete hflag

/-- With a starting state the result begins in state 0 alone and words lead to all of its states,
unless the flag says already that the automaton is deterministic and it lacks one of the two. -/
theorem determinize_rooted_iff (hw : w.current.WellFormed) (ha : a.WellFormed w.current)
    (hstart : ∃ p, a.starting.contains p w.current = .ok true) :
    (∀ b w', a.determinize w = .ok b w' → w.Leads w' ∧
      (b.Rooted w'.current ↔ (a.determinism = .complete → a.Rooted w.current))) ∧
    (a.deterministicCount w.current < 2 ^ 32 → ∃ b w', a.determinize w = .ok b w') := by
  have hm := hw.canonical
  obtain ⟨g, h, hg⟩ := ha.shown
  simp only [h.starts_iff hm hg.toBounded] at hstart
  have hruns := determinize_rooted hw h hg hstart
  constructor
  · exact fun b w' hrun => hruns.of_ok hrun
  · intro hfew
    have hcount := (h.deterministicCount_lt_iff hm hg.toBounded ha.honest).1 hfew
    obtain ⟨b, w', hrun, -⟩ := yields_iff.1 (hruns.yields hcount)
    exact ⟨b, w', hrun⟩

/-- Two states that only lead to themselves, of which the second starts. It gets the number 0. -/
theorem determinize_rooted_iff_draw : ∃ m a w b w', Manager.new 0 1 1 = .ok m ∧
    draw 2 [1] [1] [(0, 0), (1, 1)] ⟨m, []⟩ = .ok a w ∧
    (∃ p, a.starting.contains p w.current = .ok true) ∧ a.determinize w = .ok b w' ∧
    b.Rooted w'.current := by
  obtain ⟨m, hm⟩ : ∃ m, Manager.new 0 1 1 = .ok m := ⟨_, rfl⟩
  obtain ⟨a, w, ha, hl, hcount, hflag, hshows, hcontained, hwell⟩ :=
    draw_wellFormed 2 [1] [1] [(0, 0), (1, 1)] hm (by decide) (by decide) (by decide) (by decide)
  have hstart : ∃ p, a.starting.contains p w.current = .ok true :=
    ⟨1, (hshows.starts_iff hl.after.canonical hcontained.toBounded).2 (List.mem_singleton_self 1)⟩
  have hunknown : a.determinism ≠ .complete := by
    rw [hflag]
    decide
  have hfew : a.deterministicCount w.current < 2 ^ 32 := by
    rw [deterministicCount, if_neg hunknown]
    apply (hwell.encard_powerStates_le hl.after.canonical).trans_lt
    rw [hcount]
    norm_num
  obtain ⟨hall, hreturns⟩ := determinize_rooted_iff hl.after hwell hstart
  obtain ⟨b, w', hrun⟩ := hreturns hfew
  obtain ⟨-, hrooted⟩ := hall b w' hrun
  exact ⟨m, a, w, b, w', hm, ha, hstart, hrun, hrooted.2 fun hcomplete => absurd hcomplete hunknown⟩

/-- After the question whether it is deterministic the same automaton keeps its starting state. -/
theorem not_rooted_of_classified : ∃ m a w c w₁ b w₂, Manager.new 0 1 1 = .ok m ∧
    draw 2 [1] [1] [(0, 0), (1, 1)] ⟨m, []⟩ = .ok a w ∧ a.classify w = .ok c w₁ ∧
    c.WellFormed w₁.current ∧ c.starting.contains 1 w₁.current = .ok true ∧
    c.determinize w₁ = .ok b w₂ ∧ ¬ b.Rooted w₂.current := by
  obtain ⟨m, hm⟩ : ∃ m, Manager.new 0 1 1 = .ok m := ⟨_, rfl⟩
  obtain ⟨a, w, ha, hl, hcount, -, hshows, hcontained, hwell⟩ :=
    draw_wellFormed 2 [1] [1] [(0, 0), (1, 1)] hm (by decide) (by decide) (by decide) (by decide)
  have hdet : Deterministic (drawing [1] [1] [(0, 0), (1, 1)]) a.stateCount := by
    rw [hcount]
    exact drawing_deterministic (f := id) (by decide) (by decide)
  obtain ⟨c, w₁, hc, hl₁, f, rfl, hf, hhonest⟩ := yields_iff.1
    (hshows.classify_yields hl.after hcontained.toBounded hwell.honest)
  have hshows₁ := (hshows.later hl₁).flagged f
  have hm₁ := hl₁.after.canonical
  obtain rfl : f = .complete := (hhonest.complete_iff hf).2
    ((hshows₁.isDeterministic_iff hm₁ hcontained.toBounded).2 hdet)
  have hstarts := fun p => hshows₁.starts_iff (p := p) hm₁ hcontained.toBounded
  refine ⟨m, a, w, _, w₁, _, w₁, hm, ha, hc, ⟨⟨_, hshows₁, hcontained⟩, hhonest⟩,
    (hstarts 1).2 (List.mem_singleton_self 1), rfl, fun hrooted => ?_⟩
  have hzero : (0 : Nat) ∈ [1] := (hstarts 0).1 ((hrooted.start 0).2 rfl)
  simp at hzero

end SymbolicAutomata.SymbolicNfa
