import SymbolicAutomata.Proofs.Lookups
/-!
# Paths

The states that are found by repeated steps are those at the ends of paths, on edges whose labels
meet the given letters. A path is walked from either end, so what is found backward are the states
where paths begin.
-/
namespace SymbolicAutomata

open Manager Bdd

variable {w : Workspace} {m : Manager} {g : NFA Nat Nat} {n p q : Nat} {P L : Nat → Prop}
  {dir : Direction} {s : ValueSet} {S : Set Nat} {on : SymbolSet} {M : Letter → Prop}

theorem ValueSet.Closure.lt (h : ValueSet.Closure (Hop g L dir) P q) (hg : Bounded g n)
    (hP : ∀ p, P p → p < n) : q < n := by
  obtain ⟨p, hp, hwalk⟩ := h
  induction hwalk with
  | refl => exact hP p hp
  | tail _ hop _ => exact hg.hop_target hop

theorem hop_drawing_iff {ss ts : List Nat} {es : List (Nat × Nat)} :
    Hop (drawing ss ts es) (fun _ => True) .forward p q ↔ (p, q) ∈ es := by
  constructor
  · rintro ⟨c, -, -, hstep⟩
    exact mem_drawing_step.1 hstep
  · intro he
    exact ⟨0, letterCount_pos, trivial, mem_drawing_step.2 he⟩

namespace Automaton

variable {a : Automaton}

/-- A letter with the property is on the edge from the first state to the second. -/
def Joins (a : Automaton) (m : Manager) (M : Letter → Prop) (p q : Nat) : Prop :=
  ∃ x, M x ∧ a.HasEdge m p x q

theorem Shows.joins_iff (h : Shows m a g) (hm : m.Canonical) (hg : Contained g a.size)
    (hM : ∀ x, M x ↔ L x.code) : a.Joins m M p q ↔ Hop g L .forward p q := by
  constructor
  · rintro ⟨x, hx, hedge⟩
    exact ⟨x.code, x.code_lt, (hM x).1 hx, (h.hasEdge_iff hm hg).1 hedge⟩
  · rintro ⟨c, hc, hL, hstep⟩
    obtain ⟨x, rfl⟩ := Letter.exists_code hc
    exact ⟨x, (hM x).2 hL, (h.hasEdge_iff hm hg).2 hstep⟩

theorem Shows.joins_eq (h : Shows m a g) (hm : m.Canonical) (hg : Contained g a.size)
    (hM : ∀ x, M x ↔ L x.code) : a.Joins m M = Hop g L .forward :=
  funext fun _ => funext fun _ => propext (h.joins_iff hm hg hM)

theorem Shows.closure_forward_iff (h : Shows m a g) (hm : m.Canonical) (hg : Contained g a.size)
    (hM : ∀ x, M x ↔ L x.code) : ValueSet.Closure (Hop g L .forward) P q ↔
      ∃ p, P p ∧ Relation.ReflTransGen (a.Joins m M) p q := by
  rw [h.joins_eq hm hg hM]
  exact Iff.rfl

theorem Shows.closure_backward_iff (h : Shows m a g) (hm : m.Canonical) (hg : Contained g a.size)
    (hM : ∀ x, M x ↔ L x.code) : ValueSet.Closure (Hop g L .backward) P q ↔
      ∃ p, P p ∧ Relation.ReflTransGen (a.Joins m M) q p := by
  rw [h.joins_eq hm hg hM]
  exact exists_congr fun p => and_congr_right fun _ => Relation.reflTransGen_swap

theorem Shows.contains_iff (h : Shows m a g) (hm : m.Canonical)
    (hs : s.domain = a.stateBlock ∧ s.Shows m P) (hP : ∀ p, P p → p < a.size) :
    s.contains q m = .ok true ↔ P q := by
  rw [SymbolicNfa.contains_sourceBlock_iff hs hm h.width_le]
  exact and_iff_right_of_imp fun hq =>
    Nat.lt_of_lt_of_le (hP q hq) (le_two_pow_bitsNeeded a.size)

theorem Shows.reach_contains (dir : Direction) (h : Shows w.current a g)
    (hw : w.current.WellFormed) (hg : Contained g a.size) (hs : a.Selects w.current s S)
    (hon : on.Shows w.current L) :
    ∃ r w₁, a.reach dir s on w = .ok r w₁ ∧ w.Leads w₁ ∧
      ∀ q, r.contains q w₁.current = .ok true ↔ ValueSet.Closure (Hop g L dir) (· ∈ S) q := by
  have hreach : Yields w (a.reach dir s on) fun r m => r.domain = a.stateBlock ∧
      r.Shows m (ValueSet.Closure (Hop g L dir) (· ∈ S)) :=
    h.reach_yields hw hg (hs.movable h) hon.denotes
  obtain ⟨r, w₁, hrun, hl, hr⟩ := yields_iff.1 hreach
  exact ⟨r, w₁, hrun, hl, fun q => (h.later hl).contains_iff hl.after.canonical hr fun _ hp =>
    hp.lt hg.toBounded hs.states⟩

theorem Shows.live_iff (h : Shows m a g) (hm : m.Canonical) (hg : Contained g a.size) :
    Live g q ↔ ∃ p r, a.Begins m .forward p ∧ a.Begins m .backward r ∧
      Relation.ReflTransGen (a.Joins m fun _ => True) p q ∧
      Relation.ReflTransGen (a.Joins m fun _ => True) q r := by
  have hreachable := h.closure_forward_iff (L := fun _ => True) (M := fun _ => True)
    (P := (· ∈ g.start)) (q := q) hm hg fun _ => Iff.rfl
  have hproductive := h.closure_backward_iff (L := fun _ => True) (M := fun _ => True)
    (P := (· ∈ g.accept)) (q := q) hm hg fun _ => Iff.rfl
  rw [ValueSet.closure_forward_iff] at hreachable
  rw [ValueSet.closure_backward_iff] at hproductive
  simp only [Live, hreachable, hproductive, h.begins_iff hm hg, endsOf]
  constructor
  · rintro ⟨⟨p, hp, hto⟩, r, hr, hon⟩
    exact ⟨p, r, hp, hr, hto, hon⟩
  · rintro ⟨p, r, hp, hr, hto, hon⟩
    exact ⟨⟨p, hp, hto⟩, r, hr, hon⟩

/-- From a set of states, over any domain, and on any set of letters the states found forward are
those at the end of a path whose edges each have one of the letters, and the states found backward
those where such a path to the set begins. The live states are those on a path from a starting to an
accepting state. -/
theorem reach_of_wellFormed (hw : w.current.WellFormed) (ha : a.WellFormed w.current) :
    (∀ s S on, a.Selects w.current s S → (∃ L, on.Shows w.current L) →
      (∃ r w₁, a.reach .forward s on w = .ok r w₁ ∧ w.Leads w₁ ∧
        ∀ q, r.contains q w₁.current = .ok true ↔
          ∃ p ∈ S, Relation.ReflTransGen (a.Joins w.current (on.Has w.current)) p q) ∧
      ∃ r w₁, a.reach .backward s on w = .ok r w₁ ∧ w.Leads w₁ ∧
        ∀ q, r.contains q w₁.current = .ok true ↔
          ∃ p ∈ S, Relation.ReflTransGen (a.Joins w.current (on.Has w.current)) q p) ∧
    ∃ r w₁, a.live w = .ok r w₁ ∧ w.Leads w₁ ∧ ∀ q, r.contains q w₁.current = .ok true ↔
      ∃ p f, a.Begins w.current .forward p ∧ a.Begins w.current .backward f ∧
        Relation.ReflTransGen (a.Joins w.current fun _ => True) p q ∧
        Relation.ReflTransGen (a.Joins w.current fun _ => True) q f := by
  obtain ⟨g, h, hg⟩ := ha.exists_shows
  have hm := hw.canonical
  constructor
  · rintro s S on hs ⟨L, hon⟩
    have hletters : ∀ x, on.Has w.current x ↔ L x.code := fun x => hon.has_iff hm
    constructor
    · obtain ⟨r, w₁, hrun, hl, hr⟩ := h.reach_contains .forward hw hg hs hon
      exact ⟨r, w₁, hrun, hl, fun q => (hr q).trans (h.closure_forward_iff hm hg hletters)⟩
    · obtain ⟨r, w₁, hrun, hl, hr⟩ := h.reach_contains .backward hw hg hs hon
      exact ⟨r, w₁, hrun, hl, fun q => (hr q).trans (h.closure_backward_iff hm hg hletters)⟩
  · obtain ⟨r, w₁, hrun, hl, hr⟩ := yields_iff.1 (h.live_yields hw hg)
    refine ⟨r, w₁, hrun, hl, fun q => ?_⟩
    rw [← h.live_iff hm hg]
    exact (h.later hl).contains_iff hl.after.canonical hr fun p hp => hg.reachable_lt hp.1

/-- Of four states the first three are in a row, and the last one leads to the second. Walks begin
at the second one, named over a domain of its own. -/
theorem reach_of_wellFormed_draw : ∃ m a w s w₀ r w₁ t w₂ u w₃, Manager.new 0 1 1 = .ok m ∧
    SymbolicNfa.draw 4 [0] [2] [(0, 1), (1, 2), (3, 1)] ⟨m, []⟩ = .ok a w ∧
    ValueSet.singleton ⟨40, 7, by decide⟩ 1 w = .ok s w₀ ∧
    (symbolic a).reach .forward s (.universal a.manager) w₀ = .ok r w₁ ∧
    r.contains 2 w₁.current = .ok true ∧
    (symbolic a).reach .backward s (.universal a.manager) w₀ = .ok t w₂ ∧
    t.contains 3 w₂.current = .ok true ∧
    (symbolic a).live w₀ = .ok u w₃ ∧ ¬ u.contains 3 w₃.current = .ok true := by
  obtain ⟨m, hm⟩ : ∃ m, Manager.new 0 1 1 = .ok m := ⟨_, rfl⟩
  obtain ⟨a, w, ha, hl, hcount, -, hshows, hcontained, hwell⟩ := SymbolicNfa.draw_wellFormed 4 [0]
    [2] [(0, 1), (1, 2), (3, 1)] hm (by decide) (by decide) (by decide) (by decide)
  have hsize : (symbolic a).size = 4 := hcount
  obtain ⟨s, w₀, hs, hl₀, hselects⟩ := singleton_selects (a := symbolic a) (p := 1)
    (d := ⟨40, 7, by decide⟩) hl.after (by decide) (by decide) (by omega) (by decide)
  have hm₀ := hl₀.after.canonical
  have h₀ : (symbolic a).Shows w₀.current _ := .symbolic (hshows.later hl₀)
  have hall : (SymbolSet.universal a.manager).Shows w₀.current fun _ => True :=
    ⟨h₀.home, SymbolicNfa.universal_denotes hm₀ _⟩
  have hjoins : ∀ {M : Letter → Prop} {p q}, (∀ x, M x ↔ True) →
      ((symbolic a).Joins w₀.current M p q ↔ (p, q) ∈ [(0, 1), (1, 2), (3, 1)]) := fun hM =>
    (h₀.joins_iff (L := fun _ => True) hm₀ hcontained hM).trans hop_drawing_iff
  obtain ⟨hreach, u, w₃, hlive, -, hu⟩ :=
    reach_of_wellFormed (a := symbolic a) hl₀.after (hwell.later hl₀)
  obtain ⟨⟨r, w₁, hforward, -, hr⟩, t, w₂, hbackward, -, ht⟩ :=
    hreach s {1} (.universal a.manager) hselects ⟨_, hall⟩
  refine ⟨m, a, w, s, w₀, r, w₁, t, w₂, u, w₃, hm, ha, hs, hforward, ?_, hbackward, ?_, hlive, ?_⟩
  · exact (hr 2).2 ⟨1, rfl, .single ((hjoins fun _ => hall.has_iff hm₀).2 (by decide))⟩
  · exact (ht 3).2 ⟨1, rfl, .single ((hjoins fun _ => hall.has_iff hm₀).2 (by decide))⟩
  · -- the last state does not start, and no edge leads to it
    rw [hu]
    rintro ⟨p, f, hp, -, hto, -⟩
    rw [h₀.begins_iff hm₀ hcontained] at hp
    rcases hto.cases_tail with rfl | ⟨q, -, hlast⟩
    · exact absurd hp (by simp [endsOf, drawing, linked])
    · exact absurd ((hjoins fun _ => Iff.rfl).1 hlast) (by simp)

end Automaton

end SymbolicAutomata
