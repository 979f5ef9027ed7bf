import SymbolicAutomata.Proofs.Reversals
/-!
# States and edges looked up

Automata of different widths are compared by what their states and edges are looked up to be. The
letters on an edge are found by fixing the bits of both states in the edge function, or by
restricting the edges to two sets of one state each and quantifying the states away. Equal sets of
letters have one reference, so both ways give the same one, and later lookups give what earlier ones
have given.
-/
namespace SymbolicAutomata

open Manager Bdd

variable {w : Workspace} {g g' : NFA Nat Nat} {p q i j : Nat} {s t : ValueSet} {on : SymbolSet}

namespace Automaton

variable {a : Automaton}

theorem Shows.labels_singletons_yields (h : Shows w.current a g) (hw : w.current.WellFormed)
    (hg : Contained g a.size) (hs : a.Selects w.current s {p}) (ht : a.Selects w.current t {q}) :
    Yields w (a.labels s t) fun on m => on.Shows m (q ∈ g.step p ·) := by
  apply (h.labels_yields hw hg (hs.movable h) (ht.movable h)).imp
  intro on w1 _ hon
  refine hon.congr fun c _ => ?_
  simp only [Set.mem_singleton_iff, exists_and_left, exists_eq_left]

/-- Both lookups of an edge return the same reference, whichever comes first. -/
theorem Shows.edge_concur_labels (h : Shows w.current a g) (hw : w.current.WellFormed)
    (hg : Contained g a.size) (hs : a.Selects w.current s {p}) (ht : a.Selects w.current t {q}) :
    Concur w (a.edge p q) (a.labels s t) := by
  have hp : p < a.size := hs.states p rfl
  have hq : q < a.size := ht.states q rfl
  apply concur_of_settled (C := True) (Q := fun on m => on.Shows m (q ∈ g.step p ·)) hw
  · exact fun w' hl => ((h.later hl).edge_yields hl.after hg hp hq).yieldsIff trivial
  · exact fun w' hl => ((h.later hl).labels_singletons_yields hl.after hg (hs.later hl)
      (ht.later hl)).yieldsIff trivial
  · exact fun on w' w'' hl hon => hon.later hl
  · exact fun on on' m hm hon hon' => hon.unique hon' hm

end Automaton

/-- Fixed variables have their values wherever the result is evaluated. -/
theorem Bdd.restrict_evaluates {f : Ref} (hw : w.current.WellFormed) (hf : w.current.Has f)
    (fixed : Fixing) :
    ∃ r w₁, restrict f fixed w = .ok r w₁ ∧ w.Leads w₁ ∧ ∀ s : Assignment, ∃ b,
      w₁.current.evaluate r (fun v => .ok (s v)) = .ok b ∧
      w.current.evaluate f (fun v => .ok (fixed.override s v)) = .ok b := by
  obtain ⟨r, w₁, hrun, hl, -, hevaluates⟩ := evaluates_of_reads fixed.override hw hf
    (restrict_yields hw (denotes_eval hf))
  exact ⟨r, w₁, hrun, hl, hevaluates⟩

namespace SymbolicNfa

variable {a b : SymbolicNfa} {m m' : Manager} {k l u v : Nat} {P Q : Nat → Prop}

theorem contains_agrees (hs : s.domain = Layout.sourceBlock k ∧ s.Shows m P)
    (ht : t.domain = Layout.sourceBlock l ∧ t.Shows m' Q) (hm : m.Canonical) (hm' : m'.Canonical)
    (hk : k ≤ 32) (hl : l ≤ 32) (hv : v < 2 ^ k) (hu : u < 2 ^ l) (hPQ : Q u ↔ P v) :
    ∃ r, s.contains v m = .ok r ∧ t.contains u m' = .ok r := by
  obtain ⟨r, hr, hP⟩ := contains_sourceBlock_spec hs hm hk hv
  obtain ⟨r', hr', hQ⟩ := contains_sourceBlock_spec ht hm' hl hu
  have hsame : r' = r := Bool.eq_iff_iff.2 (hQ.trans (hPQ.trans hP.symm))
  exact ⟨r, hr, hsame ▸ hr'⟩

/-- The state `i` of the second automaton starts and accepts as `p` does in the first one. -/
structure SameFlags (a : SymbolicNfa) (m : Manager) (p : Nat) (b : SymbolicNfa) (m' : Manager)
    (i : Nat) : Prop where
  starting : ∃ r, a.starting.contains p m = .ok r ∧ b.starting.contains i m' = .ok r
  accepting : ∃ r, a.accepting.contains p m = .ok r ∧ b.accepting.contains i m' = .ok r

theorem Shows.sameFlags (ha : a.Shows m g) (hb : b.Shows m' g') (hm : m.Canonical)
    (hm' : m'.Canonical) (hp : p < a.stateCount) (hi : i < b.stateCount)
    (hstart : i ∈ g'.start ↔ p ∈ g.start) (haccept : i ∈ g'.accept ↔ p ∈ g.accept) :
    SameFlags a m p b m' i := by
  have hpa : p < 2 ^ a.width := Nat.lt_of_lt_of_le hp a.count_le_two_pow_width
  have hib : i < 2 ^ b.width := Nat.lt_of_lt_of_le hi b.count_le_two_pow_width
  constructor
  · exact contains_agrees ha.starting hb.starting hm hm' ha.width_le hb.width_le hpa hib hstart
  · exact contains_agrees ha.accepting hb.accepting hm hm' ha.width_le hb.width_le hpa hib haccept

/-- Earlier in the session the letters on the edge were looked up, with this answer. -/
def Found (a : SymbolicNfa) (w : Workspace) (p q : Nat) (on : SymbolSet) : Prop :=
  ∃ w₀ w₁, w₀.current.WellFormed ∧ a.WellFormed w₀.current ∧ a.edge p q w₀ = .ok on w₁ ∧ w₁.Leads w

theorem Found.shows (h : a.Found w p q on) (ha : a.Shows w.current g) :
    on.Shows w.current (q ∈ g.step p ·) := by
  obtain ⟨w₀, w₁, hw₀, ha₀, hrun, hl⟩ := h
  obtain ⟨g₀, hg₀, -⟩ := ha₀.shown
  obtain ⟨hl₀, ⟨hp, hq⟩, hon⟩ := Runs.of_ok (hg₀.edge_yieldsIff hw₀) hrun
  have hm := hl.after.canonical
  refine (hon.later hl).congr fun c hc => ?_
  obtain ⟨x, rfl⟩ := Letter.exists_code hc
  have hshown : a.HasEdge w.current p x q ↔ q ∈ g.step p x.code := by
    rw [ha.hasEdge_iff hm, and_iff_right hp, and_iff_right hq]
  rw [← hshown, (hg₀.later (hl₀.trans hl)).hasEdge_iff hm, and_iff_right hp, and_iff_right hq]

/-- The edge of another automaton with the same letters is found with the same answer. -/
theorem Shows.edge_found (hb : b.Shows w.current g') (ha : a.Shows w.current g)
    (hw : w.current.WellFormed) (hi : i < b.stateCount) (hj : j < b.stateCount)
    (hstep : ∀ c < letterCount, j ∈ g'.step i c ↔ q ∈ g.step p c) :
    ∃ on w₁, b.edge i j w = .ok on w₁ ∧ w.Leads w₁ ∧ on.Shows w₁.current (j ∈ g'.step i ·) ∧
      ∀ on', a.Found w p q on' → on' = on := by
  obtain ⟨on, w₁, hrun, hl, hon⟩ := yields_iff.1 (hb.edge_yields hw hi hj)
  refine ⟨on, w₁, hrun, hl, hon, fun on' hfound => ?_⟩
  have hon' := (hfound.shows ha).later hl
  exact hon'.unique (hon.congr hstep) hl.after.canonical

end SymbolicNfa

namespace Automaton

variable {a : Automaton}

theorem singleton_selects {d : Domain} (hw : w.current.WellFormed) (hlen : d.len ≤ 64)
    (hend : d.base + d.len ≤ 2 ^ 31) (hp : p < a.size) (hroom : p < 2 ^ d.len) :
    ∃ s w₁, ValueSet.singleton d p w = .ok s w₁ ∧ w.Leads w₁ ∧ a.Selects w₁.current s {p} := by
  obtain ⟨s, w₁, hs, hl, rfl, hshows⟩ :=
    yields_iff.1 (ValueSet.singleton_yields hw hlen hend hroom)
  refine ⟨s, w₁, hs, hl, hshows, ?_, ?_, by omega, hend⟩
  · rintro q rfl
    exact hp
  · rintro q rfl
    exact hroom

/-- The letters on an edge are looked up in two ways, by fixing the states and by restricting to
sets of one state each, over any domains. Both return the same reference, and the set has exactly
the letters of the edge. What fixes the states reads every function with the fixed values in the
place of those of the assignment. -/
theorem edge_lookups_of_wellFormed (hw : w.current.WellFormed) :
    (∀ a : Automaton, a.WellFormed w.current →
      (∀ p < a.size, ∀ d : Domain, d.len ≤ 64 → d.base + d.len ≤ 2 ^ 31 → p < 2 ^ d.len →
        ∃ s w₁, ValueSet.singleton d p w = .ok s w₁ ∧ w.Leads w₁ ∧
          a.Selects w₁.current s {p}) ∧
      ∀ p q s t, a.Selects w.current s {p} → a.Selects w.current t {q} →
        Concur w (a.edge p q) (a.labels s t) ∧
        ∃ on w₁ w₂, a.edge p q w = .ok on w₁ ∧ a.labels s t w₁ = .ok on w₂ ∧
          ∀ x, on.Has w₂.current x ↔ a.HasEdge w.current p x q) ∧
    ∀ f, w.current.Has f → ∀ fixed : Fixing,
      ∃ r w₁, restrict f fixed w = .ok r w₁ ∧ w.Leads w₁ ∧ ∀ s : Assignment, ∃ b,
        w₁.current.evaluate r (fun v => .ok (s v)) = .ok b ∧
        w.current.evaluate f (fun v => .ok (fixed.override s v)) = .ok b := by
  refine ⟨fun a ha => ⟨fun p hp d hlen hend hroom => ?_, fun p q s t hs ht => ?_⟩,
    fun f hf fixed => restrict_evaluates hw hf fixed⟩
  · exact singleton_selects hw hlen hend hp hroom
  · obtain ⟨g, h, hg⟩ := ha.exists_shows
    have hconcur := h.edge_concur_labels hw hg hs ht
    obtain ⟨on, w₁, hedge, hl₁, hon⟩ :=
      yields_iff.1 (h.edge_yields hw hg (hs.states p rfl) (ht.states q rfl))
    obtain ⟨on', w₂, hlabels, hl₂, -⟩ := yields_iff.1 ((h.later hl₁).labels_singletons_yields
      hl₁.after hg (hs.later hl₁) (ht.later hl₁))
    obtain ⟨w₃, hsame⟩ := hconcur.left on w₁ hedge
    obtain ⟨rfl, rfl⟩ : on' = on ∧ w₂ = w₃ := by simpa using hlabels.symm.trans hsame
    refine ⟨hconcur, on', w₁, w₂, hedge, hlabels, fun x => ?_⟩
    rw [(hon.later hl₂).has_iff hl₂.after.canonical, h.hasEdge_iff hw.canonical hg]

/-- In an automaton with three states in a row, the last edge is looked up between sets over
domains that have nothing in common with that of the states. -/
theorem edge_lookups_of_wellFormed_draw : ∃ m a w s w₁ t w₂, Manager.new 0 1 1 = .ok m ∧
    SymbolicNfa.draw 3 [0] [2] [(0, 1), (1, 2)] ⟨m, []⟩ = .ok a w ∧
    ValueSet.singleton ⟨40, 7, by decide⟩ 1 w = .ok s w₁ ∧
    ValueSet.singleton ⟨50, 9, by decide⟩ 2 w₁ = .ok t w₂ ∧
    (∃ on w₃ w₄, a.edge 1 2 w₂ = .ok on w₃ ∧ a.edges.labels s t w₃ = .ok on w₄ ∧
      on.Has w₄.current fun _ => true) ∧
    ∃ r w₃, restrict a.edges.fn [(1, true)] w₂ = .ok r w₃ ∧ w₂.Leads w₃ := by
  obtain ⟨m, hm⟩ : ∃ m, Manager.new 0 1 1 = .ok m := ⟨_, rfl⟩
  obtain ⟨a, w, ha, hl, hcount, -, hshows, hcontained, hwell⟩ :=
    SymbolicNfa.draw_wellFormed 3 [0] [2] [(0, 1), (1, 2)] hm (by decide) (by decide) (by decide)
      (by decide)
  have hp : 1 < (symbolic a).size := by
    change 1 < a.stateCount
    omega
  have hq : 2 < (symbolic a).size := by
    change 2 < a.stateCount
    omega
  obtain ⟨s, w₁, hs, hl₁, hselects₁⟩ := ((edge_lookups_of_wellFormed hl.after).1 (symbolic a)
    hwell).1 1 hp ⟨40, 7, by decide⟩ (by decide) (by decide) (by decide)
  have hwell₁ := hwell.later hl₁
  obtain ⟨t, w₂, ht, hl₂, hselects₂⟩ := ((edge_lookups_of_wellFormed hl₁.after).1 (symbolic a)
    hwell₁).1 2 hq ⟨50, 9, by decide⟩ (by decide) (by decide) (by decide)
  have hshows₂ := hshows.later (hl₁.trans hl₂)
  obtain ⟨hlookups, hrestrict⟩ := edge_lookups_of_wellFormed hl₂.after
  obtain ⟨-, on, w₃, w₄, hedge, hlabels, hhas⟩ :=
    (hlookups (symbolic a) (hwell₁.later hl₂)).2 1 2 s t (hselects₁.later hl₂) hselects₂
  obtain ⟨r, w₅, hrun, hl₅, -⟩ := hrestrict a.edges.fn hshows₂.edges.2.denotes.has [(1, true)]
  have hletter : (symbolic a).HasEdge w₂.current 1 (fun _ => true) 2 := by
    rw [(Shows.symbolic hshows₂).hasEdge_iff hl₂.after.canonical hcontained]
    exact mem_drawing_step.2 (by decide)
  exact ⟨m, a, w, s, w₁, t, w₂, hm, ha, hs, ht, ⟨on, w₃, w₄, hedge, hlabels, (hhas _).2 hletter⟩,
    r, w₅, hrun, hl₅⟩

end Automaton

end SymbolicAutomata
