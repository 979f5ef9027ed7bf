import SymbolicAutomata.Proofs.Histories
/-!
# Complements

Where every word has exactly one run, the words that are not accepted are those whose run ends in
another state. In general they are the difference from all words. The difference exists if a
deterministic automaton of the language has numbers for its states; the result is again such an
automaton, or it has few power-states, so its complement exists as well.
-/
namespace SymbolicAutomata

open Manager Bdd Layout SymbolicNfa

variable {g : NFA Nat Nat} {n : Nat} {cs : List Nat}

def opposite (g : NFA Nat Nat) (n : Nat) : NFA Nat Nat :=
  { g with accept := {q | q < n ∧ q ∉ g.accept} }

theorem opposite_contained (hg : Contained g n) : Contained (opposite g n) n :=
  ⟨⟨hg.start, hg.source, hg.target⟩, fun _ hq => hq.1⟩

/-- The only run of a word ends in an accepting state or in another one. -/
theorem opposite_accepts (hdet : Deterministic g n) (hg : Bounded g n) (hcs : Lettered cs) :
    cs ∈ (opposite g n).accepts ↔ cs ∉ g.accepts := by
  obtain ⟨q, hq, hrun⟩ := hdet.run hg hcs
  have hrun' : (opposite g n).evalFrom (opposite g n).start cs = {q} := hrun
  rw [accepts_of_run hrun, accepts_of_run hrun']
  exact and_iff_right hq

theorem everything_run (hcs : Lettered cs) :
    everything.evalFrom everything.start cs = {0} := by
  obtain ⟨q, hq, hrun⟩ := everything_deterministic.run everything_contained.toBounded hcs
  obtain rfl : q = 0 := Nat.lt_one_iff.1 hq
  exact hrun

theorem everything_accepts (hcs : Lettered cs) : cs ∈ everything.accepts :=
  everything_deterministic.accepts_of_all everything_contained.toBounded
    (fun q hq => .inr ⟨rfl, q.zero_le, hq⟩) hcs

namespace SymbolicNfa

variable {w w' : Workspace} {a b : SymbolicNfa} {m : Manager}

/-- The pairs with the only state of the universal automaton have numbers if the states do. -/
theorem universal_pairable_iff {u : SymbolicNfa} (hm : m.Canonical) (hu : u.Shows m everything)
    (hcount : u.stateCount = 1) (hflag : u.determinism = .unknown) :
    u.Pairable a m ↔ a.deterministicCount m < 2 ^ 32 := by
  refine ⟨fun h => h.counts.2, fun hfew => ?_⟩
  obtain ⟨n, hn⟩ := ENat.ne_top_iff_exists.1 hfew.ne_top
  rw [← hn] at hfew
  have hlt : n < 2 ^ 32 := by exact_mod_cast hfew
  have hone : u.deterministicCount m = (1 : Nat) := by
    have hreached : u.reached m = fun _ => {0} := by
      funext v
      rw [hu.reached_eq hm (hcount ▸ everything_contained.toBounded), everything_run
        v.lettered_codes]
    rw [deterministicCount, if_neg (by simp [hflag]), powerStates, hreached, Set.range_const,
      Set.encard_singleton, Nat.cast_one]
  have hbits : bitsNeeded n ≤ 32 := bitsNeeded_le_iff.2 hlt.le
  have hzero : bitsNeeded 1 = 0 := rfl
  rw [pairable_iff hone hn.symm (by decide) hlt, hzero, Nat.pow_zero, Nat.mul_one]
  exact ⟨by omega, hlt⟩

theorem universal_sdiff_yieldsIff (hw : w.current.WellFormed) (ha : a.WellFormed w.current)
    (h : a.Shows w.current g) (hg : Contained g a.stateCount) :
    YieldsIff (a.deterministicCount w.current < 2 ^ 32) w (do (← universal).sdiff a) fun c m =>
      c.determinism = .unknown ∧ ∃ g', c.Shows m g' ∧ Contained g' c.stateCount ∧
        ¬ ManyReached g' (2 ^ 32) ∧ ∀ cs, Lettered cs → (cs ∈ g'.accepts ↔ cs ∉ g.accepts) := by
  apply Runs.bind (Runs.weaken (universal_yields hw))
  rintro u w1 hl1 ⟨hcount, hflag, hu⟩
  have hcontained : Contained everything u.stateCount := hcount ▸ everything_contained
  have hproduct := combine_deterministic_yieldsIff (f := fun x y => x && !y) hl1.after
    ⟨⟨_, hu, hcontained⟩, honest_of_unknown hflag⟩ (ha.later hl1) hu hcontained (h.later hl1) hg rfl
  rw [universal_pairable_iff hl1.after.canonical hu hcount hflag,
    ha.deterministicCount_later hl1] at hproduct
  apply hproduct.imp
  rintro c w2 - ⟨hflag', g', hc, hg', hfew', hlang⟩
  refine ⟨hflag', g', hc, hg', hfew', fun cs hcs => ?_⟩
  rw [hlang cs hcs]
  simp [everything_accepts hcs]

theorem negate_yields (hw : w.current.WellFormed) (h : a.Shows w.current g)
    (hg : Contained g a.stateCount) (hhonest : a.Honest w.current)
    (hfew : ¬ ManyReached g (2 ^ 32)) :
    Yields w a.negate fun b m => b.WellFormed m ∧
      ∃ g', b.Shows m g' ∧ Contained g' b.stateCount ∧ ¬ ManyReached g' (2 ^ 32) ∧
        (∀ cs, Lettered cs → (cs ∈ g'.accepts ↔ cs ∉ g.accepts)) ∧
        (Deterministic g a.stateCount → b.determinism = .complete ∧
          b.stateCount = a.stateCount ∧ b.starting = a.starting ∧ b.edges = a.edges ∧
          g' = opposite g a.stateCount) := by
  apply Runs.bind (h.classify_yields hw hg.toBounded hhonest)
  rintro _ w1 hl1 ⟨f, rfl, hf, hhonest1⟩
  have h1 := (h.later hl1).flagged f
  have hm1 := hl1.after.canonical
  have hdet : Deterministic g a.stateCount ↔ f = .complete := by
    rw [← h1.isDeterministic_iff hm1 hg.toBounded]
    exact (hhonest1.complete_iff hf).symm
  rw [hdet]
  by_cases hflag : f = .complete
  · subst hflag
    rw [if_pos rfl]
    apply Runs.bind (ValueSet.sdiff_yields h1.states.2 h1.accepting.2
      (h1.states.1.trans h1.accepting.1.symm) hl1.after)
    rintro s w2 hl2 ⟨hsd, hs⟩
    have h2 := h1.later hl2
    have hcontained := opposite_contained hg
    have hothers : ({ a with determinism := .complete, accepting := s } : SymbolicNfa).Shows
        w2.current (opposite g a.stateCount) :=
      ⟨⟨h2.home, h2.states, h2.starting, ⟨hsd.trans h1.states.1, hs⟩, h2.edges⟩, h2.few⟩
    have hruns : Deterministic g a.stateCount := hdet.2 rfl
    have hhonest2 := (hothers.isDeterministic_iff hl2.after.canonical hcontained.toBounded).2
      ⟨hruns.start, hruns.successor⟩
    exact Runs.pure hl2.after ⟨⟨⟨_, hothers, hcontained⟩, hhonest2⟩, _, hothers, hcontained, hfew,
      fun cs hcs => opposite_accepts hruns hg.toBounded hcs, fun _ => ⟨rfl, rfl, rfl, rfl, rfl⟩⟩
  · rw [if_neg hflag]
    have hfew1 := (h1.deterministicCount_lt_iff hm1 hg.toBounded hhonest1).2 hfew
    apply ((universal_sdiff_yieldsIff hl1.after ⟨⟨g, h1, hg⟩, hhonest1⟩ h1 hg).yields hfew1).imp
    rintro c w2 - ⟨hflag', g', hc, hg', hfew', hlang⟩
    exact ⟨⟨⟨g', hc, hg'⟩, honest_of_unknown hflag'⟩, g', hc, hg', hfew', hlang,
      fun hcomplete => absurd hcomplete hflag⟩

theorem Shows.opposite_contains_iff {q : Nat} (h : a.Shows w.current g) (hw : w.current.WellFormed)
    (hb : b.Shows w'.current (opposite g a.stateCount)) (hcount : b.stateCount = a.stateCount)
    (hl : w.Leads w') : b.accepting.contains q w'.current = .ok true ↔
      q < a.stateCount ∧ ¬ a.accepting.contains q w.current = .ok true := by
  rw [contains_sourceBlock_iff hb.accepting hl.after.canonical hb.width_le]
  constructor
  · rintro ⟨-, hq, hacc⟩
    rw [h.accepts_state_iff hw.canonical hq]
    exact ⟨hq, hacc⟩
  · rintro ⟨hq, hacc⟩
    rw [h.accepts_state_iff hw.canonical hq] at hacc
    have hroom := b.count_le_two_pow_width
    exact ⟨by omega, hq, hacc⟩

/-- The complement accepts the words that are not accepted, as the difference from all words does,
which exists exactly if the states of a deterministic automaton have numbers. Where each word has
one run, the other states accept and nothing else changes. -/
theorem negate_of_wellFormed (hw : w.current.WellFormed) (ha : a.WellFormed w.current) :
    ((∃ d w₁, (do (← universal).sdiff a) w = .ok d w₁) ↔
      a.deterministicCount w.current < 2 ^ 32) ∧
    (a.deterministicCount w.current < 2 ^ 32 →
      ∃ d w₁ b w', (do (← universal).sdiff a) w = .ok d w₁ ∧ w.Leads w₁ ∧
      a.negate w = .ok b w' ∧ w.Leads w' ∧ b.WellFormed w'.current ∧
      (∀ u, b.Accepts w'.current u ↔ ¬ a.Accepts w.current u) ∧
      (∀ u, d.Accepts w₁.current u ↔ b.Accepts w'.current u) ∧
      (a.IsDeterministic w.current →
        b.determinism = .complete ∧ b.IsDeterministic w'.current ∧
        b.stateCount = a.stateCount ∧ b.starting = a.starting ∧ b.edges = a.edges ∧
        ∀ q, b.accepting.contains q w'.current = .ok true ↔
          q < a.stateCount ∧ ¬ a.accepting.contains q w.current = .ok true) ∧
      ∀ w₂, w'.Leads w₂ → ∃ c w₃, b.negate w₂ = .ok c w₃ ∧ w₂.Leads w₃ ∧
        c.WellFormed w₃.current ∧ ∀ u, c.Accepts w₃.current u ↔ a.Accepts w.current u) := by
  have hm := hw.canonical
  obtain ⟨g, h, hg⟩ := ha.shown
  have hdifference := universal_sdiff_yieldsIff hw ha h hg
  refine ⟨hdifference.exists_ok_iff, fun hcount => ?_⟩
  have hfew := (h.deterministicCount_lt_iff hm hg.toBounded ha.honest).1 hcount
  obtain ⟨d, w₁, hd, hld, -, gd, hshown, hgd, -, hlangd⟩ :=
    yields_iff.1 (hdifference.yields hcount)
  obtain ⟨b, w', hrun, hl, hb, g', hb', hg', hfew', hlang, hplace⟩ :=
    yields_iff.1 (negate_yields hw h hg ha.honest hfew)
  have hm' := hl.after.canonical
  have haccepts : ∀ u, b.Accepts w'.current u ↔ ¬ a.Accepts w.current u := fun u => by
    rw [h.accepts_iff hm hg.toBounded, hb'.accepts_iff hm' hg'.toBounded]
    exact hlang u.codes u.lettered_codes
  refine ⟨d, w₁, b, w', hd, hld, hrun, hl, hb, haccepts, fun u => ?_, fun hdet => ?_,
    fun w₂ hl2 => ?_⟩
  · rw [haccepts, hshown.accepts_iff hld.after.canonical hgd.toBounded,
      h.accepts_iff hm hg.toBounded]
    exact hlangd u.codes u.lettered_codes
  · obtain ⟨hflag, hstates, hstarting, hedges, rfl⟩ :=
      hplace ((h.isDeterministic_iff hm hg.toBounded).1 hdet)
    exact ⟨hflag, hb.honest.of_complete hflag, hstates, hstarting, hedges, fun q =>
      h.opposite_contains_iff hw hb' hstates hl⟩
  · obtain ⟨c, w₃, hrun', hl3, hc, g'', hc', hg'', -, hlang', -⟩ :=
      yields_iff.1 (negate_yields hl2.after (hb'.later hl2) hg' (hb.later hl2).honest hfew')
    refine ⟨c, w₃, hrun', hl3, hc, fun u => ?_⟩
    rw [hc'.accepts_iff hl3.after.canonical hg''.toBounded, hlang' _ u.lettered_codes,
      hlang _ u.lettered_codes, not_not, h.accepts_iff hm hg.toBounded]

/-- The automaton of all one-letter words has words without a run. Its complement accepts the empty
word, and the complement of that does not. -/
theorem negate_of_wellFormed_ofSymbols : ∃ m a w b w' c w'', Manager.new 0 1 1 = .ok m ∧
    ofSymbols (.universal 0) ⟨m, []⟩ = .ok a w ∧ a.negate w = .ok b w' ∧
    b.Accepts w'.current [] ∧ b.negate w' = .ok c w'' ∧ ¬ c.Accepts w''.current [] := by
  obtain ⟨m, hm⟩ : ∃ m, Manager.new 0 1 1 = .ok m := ⟨_, rfl⟩
  obtain ⟨a, w, ha, hl, hcount, hshows, hcontained, hwell⟩ := ofSymbols_wellFormed hm
  have hw := hl.after
  have hfew : a.deterministicCount w.current < 2 ^ 32 := by
    apply (hwell.deterministicCount_le hw.canonical).trans_lt
    rw [hcount]
    norm_num
  obtain ⟨-, -, b, w', -, -, hrun, hl', -, haccepts, -, -, hagain⟩ :=
    (negate_of_wellFormed hw hwell).2 hfew
  obtain ⟨c, w'', hrun', -, -, haccepts'⟩ := hagain w' (.refl hl'.after)
  have hempty : ¬ a.Accepts w.current [] := by
    rw [hshows.accepts_iff hw.canonical hcontained.toBounded]
    exact not_oneLetter_accepts_nil
  exact ⟨m, a, w, b, w', c, w'', hm, ha, hrun, (haccepts []).2 hempty, hrun', fun hc =>
    hempty ((haccepts' []).1 hc)⟩

end SymbolicNfa

end SymbolicAutomata
