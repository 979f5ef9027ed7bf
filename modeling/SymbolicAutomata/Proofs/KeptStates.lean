import SymbolicAutomata.Proofs.ExplicitPowerStates
import SymbolicAutomata.Proofs.Lookups
/-!
# Kept states

The states in a set are kept with the edges between them, and numbered in the order of their old
numbers. No word is lost where all states between a starting and an accepting state are kept.
-/
namespace SymbolicAutomata.SymbolicNfa

open Manager Bdd Layout

variable {w : Workspace} {a : SymbolicNfa} {g : NFA Nat Nat} {keep : ValueSet} {K : Nat → Prop}

theorem filter_lists (hw : w.current.WellFormed) (h : a.Shows w.current g)
    (hkeep : keep.Shows w.current K) (hend : keep.domain.base + keep.domain.len < 2 ^ 32)
    (hlen : keep.domain.len ≤ 64) :
    Yields w (a.filter keep) fun b m => ∃ vs,
      Lists {v | v < a.stateCount ∧ keep.contains v w.current = .ok true} vs ∧
      b.stateCount = vs.length ∧ b.determinism = .unknown ∧ b.Shows m (renumber g vs) := by
  have hfew := h.few
  apply (filter_yields hw h hkeep hend hlen).imp
  rintro b w₁ - ⟨vs, hsorted, hvs, hb⟩
  refine ⟨vs, ⟨hsorted, fun v => (hvs v).trans (and_congr_right fun hv => ?_)⟩, hb⟩
  exact (hkeep.contains_word_iff hw.canonical hend hlen (by omega)).symm

/-- A filter that keeps all live states keeps the language. -/
theorem filter_accepts {states : BddM ValueSet} (hw : w.current.WellFormed)
    (h : a.Shows w.current g) (hg : Contained g a.stateCount)
    (hstates : Yields w states fun s m => s.domain = sourceBlock a.width ∧ s.Shows m K)
    (hK : ∀ v, Live g v → K v) :
    ∃ b w₁, (states >>= a.filter) w = .ok b w₁ ∧ w.Leads w₁ ∧ b.WellFormed w₁.current ∧
      ∀ u : Word, b.Accepts w₁.current u ↔ a.Accepts w.current u := by
  obtain ⟨b, w₁, hrun, hl, vs, -, hvs, hcount, hflag, hb⟩ := yields_iff.1
    (Runs.bind hstates fun s w' hl' hs => filterBlock_yields hl'.after (h.later hl') hs)
  have hgb : Contained (renumber g vs) b.stateCount := hcount ▸ renumber_contained g vs
  refine ⟨b, w₁, hrun, hl, ⟨⟨_, hb, hgb⟩, honest_of_unknown hflag⟩, fun u => ?_⟩
  rw [hb.accepts_iff hl.after.canonical hgb.toBounded, h.accepts_iff hw.canonical hg.toBounded]
  refine accepts_renumber (fun v hv => (hvs v).2 ⟨?_, hK v hv⟩) u.lettered_codes
  exact hg.reachable_lt hv.1

/-- The states found in a set of numbers, over any domain of at most a word of bits, are kept in
their order. A kept state starts and accepts under its new number as it did before, and the edges
between kept states are the old ones, also for lookups. Without unreachable or unproductive states
the automaton accepts the same words. -/
theorem filter_of_wellFormed (hw : w.current.WellFormed) (ha : a.WellFormed w.current) :
    (∀ keep K, keep.Shows w.current K → keep.domain.base + keep.domain.len < 2 ^ 32 →
      keep.domain.len ≤ 64 →
      ∃ b w₁ vs, a.filter keep w = .ok b w₁ ∧ w.Leads w₁ ∧ b.WellFormed w₁.current ∧
        Lists {v | v < a.stateCount ∧ keep.contains v w.current = .ok true} vs ∧
        b.stateCount = vs.length ∧
        ∀ (i p : Nat), vs[i]? = some p →
          SameFlags a w.current p b w₁.current i ∧
          ∀ (j q : Nat), vs[j]? = some q →
            (∀ x, b.HasEdge w₁.current i x j ↔ a.HasEdge w.current p x q) ∧
            ∀ w₂, w₁.Leads w₂ → ∃ on w₃, b.edge i j w₂ = .ok on w₃ ∧
              ∀ on', a.Found w₂ p q on' → on' = on) ∧
    ∀ f ∈ [filterLive, filterReachable, filterProductive],
      ∃ b w₁, f a w = .ok b w₁ ∧ w.Leads w₁ ∧ b.WellFormed w₁.current ∧
        ∀ u : Word, b.Accepts w₁.current u ↔ a.Accepts w.current u := by
  obtain ⟨g, h, hg⟩ := ha.shown
  have hc := hw.canonical
  constructor
  · intro keep K hkeep hend hlen
    obtain ⟨b, w₁, hrun, hl, vs, hvs, hcount, hflag, hb⟩ :=
      yields_iff.1 (filter_lists hw h hkeep hend hlen)
    have hc₁ := hl.after.canonical
    have hgb : Contained (renumber g vs) b.stateCount := hcount ▸ renumber_contained g vs
    have hnew : ∀ {i p : Nat}, vs[i]? = some p → i < b.stateCount := fun hp => by
      rw [hcount]
      exact (List.getElem?_eq_some_iff.1 hp).1
    refine ⟨b, w₁, vs, hrun, hl, ⟨⟨_, hb, hgb⟩, honest_of_unknown hflag⟩, hvs, hcount,
      fun i p hp => ?_⟩
    refine ⟨?flags, fun j q hq => ⟨fun x => ?edges, fun w₂ hl₂ => ?lookup⟩⟩
    case flags =>
      have hold : p < a.stateCount := ((hvs.mem_iff p).1 (List.mem_of_getElem? hp)).1
      exact h.sameFlags hb hc hc₁ hold (hnew hp) (mem_renumber_start hp) (mem_renumber_accept hp)
    case edges =>
      rw [hb.hasEdge_code_iff hc₁ hgb.toBounded, h.hasEdge_code_iff hc hg.toBounded]
      exact mem_renumber_step hp hq
    case lookup =>
      obtain ⟨on, w₃, hedge, -, -, hfound⟩ := (hb.later hl₂).edge_found (h.later (hl.trans hl₂))
        hl₂.after (hnew hp) (hnew hq) (p := p) (q := q) fun c _ => mem_renumber_step hp hq
      exact ⟨on, w₃, hedge, hfound⟩
  · have hgk := hg.bounded
    simp only [List.forall_mem_cons, List.not_mem_nil, false_implies, implies_true, and_true]
    refine ⟨?_, ?_, ?_⟩
    · exact filter_accepts hw h hg (h.live_yields hw hgk) fun v hv => hv
    · exact filter_accepts hw h hg (h.reachable_yields hw hgk) fun v hv => hv.1
    · exact filter_accepts hw h hg (h.productive_yields hw hgk) fun v hv => hv.2

/-- Of five states three are kept. They are named over a domain that shares no variable with that of
the states, and so is a number that is no state. The word of two letters leads through live states
only, and is still accepted where the other states are gone. -/
theorem filter_of_wellFormed_draw : ∃ m a w keep w₀ b w₁ c w₂, Manager.new 0 1 1 = .ok m ∧
    draw 5 [0] [3] [(0, 1), (1, 3), (3, 2), (4, 3)] ⟨m, []⟩ = .ok a w ∧
    ValueSet.ofList ⟨200, 64, by decide⟩ [3, 2 ^ 60, 1, 2] w = .ok keep w₀ ∧
    a.filter keep w₀ = .ok b w₁ ∧ b.stateCount = 3 ∧ b.HasEdge w₁.current 0 (fun _ => true) 2 ∧
    b.accepting.contains 2 w₁.current = .ok true ∧ a.filterLive w₀ = .ok c w₂ ∧
    c.Accepts w₂.current [fun _ => true, fun _ => true] := by
  obtain ⟨m, hm⟩ : ∃ m, Manager.new 0 1 1 = .ok m := ⟨_, rfl⟩
  obtain ⟨a, w, ha, hl, hcount, -, hshows, hcontained, hwell⟩ := draw_wellFormed 5 [0] [3]
    [(0, 1), (1, 3), (3, 2), (4, 3)] hm (by decide) (by decide) (by decide) (by decide)
  have hmake : ∀ (d : Domain) vs, d.len ≤ 64 → d.base + d.len ≤ 2 ^ 31 → (∀ v ∈ vs, v < 2 ^ d.len) →
      ∃ s w₁, ValueSet.ofList d vs w = .ok s w₁ ∧ w.Leads w₁ ∧ s.domain = d ∧
        s.Shows w₁.current (· ∈ vs) := fun d vs hlen hend hvs =>
    yields_iff.1 (ValueSet.ofList_yields hl.after hlen hend hvs)
  obtain ⟨keep, w₀, hmade, hl₀, hdomain, hkeep⟩ := hmake ⟨200, 64, by decide⟩ [3, 2 ^ 60, 1, 2]
    (by decide) (by decide) (by decide)
  have hend : keep.domain.base + keep.domain.len < 2 ^ 32 := by rw [hdomain]; decide
  have hlen : keep.domain.len ≤ 64 := by rw [hdomain]
  have h₀ := hshows.later hl₀
  have hc := hl₀.after.canonical
  have hedge : ∀ p q, (p, q) ∈ [(0, 1), (1, 3), (3, 2), (4, 3)] →
      a.HasEdge w₀.current p (fun _ => true) q := fun p q he =>
    (h₀.hasEdge_code_iff hc hcontained.toBounded).2 (mem_drawing_step.2 he)
  have haccept : a.accepting.contains 3 w₀.current = .ok true :=
    (h₀.accepts_state_iff hc (by omega)).2 (List.mem_singleton_self 3)
  obtain ⟨hfilter, hlanguage⟩ := filter_of_wellFormed hl₀.after (hwell.later hl₀)
  obtain ⟨b, w₁, vs, hb, -, -, hvs, hlength, hkept⟩ := hfilter keep _ hkeep hend hlen
  have hlists : Lists {v | v < a.stateCount ∧ keep.contains v w₀.current = .ok true} [1, 2, 3] := by
    refine ⟨by decide, fun v => ?_⟩
    have hfound : v < a.stateCount ∧ keep.contains v w₀.current = .ok true ↔
        v < a.stateCount ∧ v < 2 ^ keep.domain.len ∧ v ∈ [3, 2 ^ 60, 1, 2] :=
      and_congr_right fun hv => hkeep.contains_word_iff hc hend hlen (by omega)
    rw [Set.mem_ofPred_eq, hfound, hcount, hdomain]
    simp only [List.mem_cons, List.not_mem_nil, or_false]
    omega
  obtain rfl := hvs.unique hlists
  obtain ⟨⟨-, r, hr, hr'⟩, -⟩ := hkept 2 3 rfl
  obtain rfl : r = true := Except.ok.inj (hr.symm.trans haccept)
  obtain ⟨c, w₂, hlive, -, -, haccepts⟩ := hlanguage filterLive (List.mem_cons_self ..)
  refine ⟨m, a, w, keep, w₀, b, w₁, c, w₂, hm, ha, hmade, hb, hlength, ?_, hr', hlive, ?_⟩
  · exact (((hkept 0 1 rfl).2 2 3 rfl).1 _).2 (hedge 1 3 (by decide))
  · have hstart : a.starting.contains 0 w₀.current = .ok true :=
      (h₀.starts_iff hc hcontained.toBounded).2 (List.mem_singleton_self 0)
    have hrun : a.Run w₀.current 0 [fun _ => true, fun _ => true] 3 :=
      .cons (hedge 0 1 (by decide)) (.cons (hedge 1 3 (by decide)) (.nil 3))
    exact (haccepts _).2 ⟨0, 3, hstart, hrun, haccept⟩

end SymbolicAutomata.SymbolicNfa
