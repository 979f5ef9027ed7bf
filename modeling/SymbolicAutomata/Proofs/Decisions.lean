import SymbolicAutomata.Decision
import SymbolicAutomata.Proofs.DeterministicProducts
/-!
# Decisions about languages

Whether every word is accepted is read off the reachable states of a deterministic automaton.
Inclusion and equality ask this of a product of deterministic automata, which has few power-states.
-/
namespace SymbolicAutomata

open Manager Bdd Layout SymbolicNfa

variable {g : NFA Nat Nat} {f : Connective}

namespace SymbolicNfa

variable {w w' : Workspace} {a b : SymbolicNfa} {m : Manager}

def language (a : SymbolicNfa) (m : Manager) : Set Word := {u | a.Accepts m u}

theorem WellFormed.home (h : a.WellFormed m) : a.manager = m.id := by
  obtain ⟨g, hg, -⟩ := h.shown
  exact hg.home

theorem WellFormed.language_later (h : a.WellFormed w.current) (hl : w.Leads w') :
    a.language w'.current = a.language w.current := by
  obtain ⟨g, hg, hb⟩ := h.shown
  ext u
  have hafter := (hg.later hl).accepts_iff (u := u) hl.after.canonical hb.toBounded
  exact hafter.trans (hg.accepts_iff hl.before.canonical hb.toBounded).symm

theorem WellFormed.accepts_later {u : Word} (h : a.WellFormed w.current) (hl : w.Leads w') :
    a.Accepts w'.current u ↔ a.Accepts w.current u := Set.ext_iff.1 (h.language_later hl) u

theorem acceptsNone_yields (hw : w.current.WellFormed) (h : a.Shows w.current g)
    (hg : Contained g a.stateCount) :
    Yields w a.acceptsNone fun r _ => r = true ↔ ∀ cs, Lettered cs → cs ∉ g.accepts := by
  refine .bind (h.live_yields hw hg.bounded) fun s w1 hl1 hs => Runs.pure hl1.after ?_
  rw [hs.2.isEmpty_iff hl1.after.canonical, hs.1]
  constructor
  · rintro hnone cs hcs ⟨q, hacc, hrun⟩
    have hq : q < 2 ^ a.width := Nat.lt_of_lt_of_le (hg.accept q hacc) a.count_le_two_pow_width
    exact hnone q hq ⟨⟨cs, hcs, hrun⟩, [], lettered_nil, q, hacc, rfl⟩
  · rintro hnone v - ⟨⟨cs, hcs, hv⟩, ds, hds, r, hacc, hr⟩
    refine hnone (cs ++ ds) (lettered_append.2 ⟨hcs, hds⟩) ⟨r, hacc, ?_⟩
    change r ∈ g.evalFrom g.start (cs ++ ds)
    rw [NFA.evalFrom_append, NFA.mem_evalFrom_iff_exists]
    exact ⟨v, hv, hr⟩

/-- The reachable states of a deterministic automaton all accept if every word is accepted. -/
theorem acceptsAll_runs (hw : w.current.WellFormed) (h : a.Shows w.current g)
    (hg : Contained g a.stateCount) (hhonest : a.Honest w.current) :
    Runs (ManyReached g (2 ^ 32)) w a.acceptsAll fun r _ =>
      r = true ↔ ∀ cs, Lettered cs → cs ∈ g.accepts := by
  refine .bind (determinize_shows hw h hg hhonest) fun d w1 hl1 hd => .weaken ?_
  obtain ⟨g', hd, hg', hlang, hcase⟩ := hd
  refine .bind (hd.reachable_yields hl1.after hg'.bounded) fun s w2 hl2 hs => ?_
  have hempty := hs.2.isEmpty_iff hl2.after.canonical
  have hreachable : ∀ v, Reachable g' v → v < 2 ^ d.width := fun v hv => by
    obtain ⟨cs, -, hv⟩ := hv
    exact hg'.bounded.eval hg'.bounded.start cs v hv
  rw [hs.1] at hempty
  by_cases hnone : s.isEmpty
  · -- without reachable states not even the empty word is accepted
    rw [if_pos hnone]
    refine Runs.pure hl2.after (iff_of_false Bool.false_ne_true fun hall => ?_)
    obtain ⟨q, -, hq⟩ := (hlang [] lettered_nil).2 (hall [] lettered_nil)
    have hq' : Reachable g' q := ⟨[], lettered_nil, hq⟩
    exact hempty.1 hnone q (hreachable q hq') hq'
  · rw [if_neg hnone]
    have hacc := (hd.later hl2).accepting
    apply (ValueSet.subset_yields hs.2 hacc.2 (hs.1.trans hacc.1.symm) hl2.after).imp
    intro r w3 _ hr
    rw [hr, hs.1]
    rcases hcase with ⟨-, hdet, -⟩ | ⟨-, hzero, -⟩
    · constructor
      · intro hsub cs hcs
        obtain ⟨q, hq, hrun⟩ := hdet.run hg'.toBounded hcs
        have hq' : Reachable g' q := ⟨cs, hcs, by rw [hrun]; rfl⟩
        exact (hlang cs hcs).1 ((accepts_of_run hrun).2 (hsub q (hreachable q hq') hq'))
      · rintro hall v - ⟨cs, hcs, hv⟩
        obtain ⟨q, hq, hrun⟩ := hdet.run hg'.toBounded hcs
        rw [hrun] at hv
        obtain rfl : v = q := hv
        exact (accepts_of_run hrun).1 ((hlang cs hcs).2 (hall cs hcs))
    · refine absurd (hempty.2 fun v _ hv => ?_) hnone
      obtain ⟨cs, -, hv⟩ := hv
      have := hg'.toBounded.eval hg'.start cs v hv
      omega

open Classical in
/-- Whether the connective holds of the two answers to every word. -/
theorem combine_acceptsAll (hw : w.current.WellFormed) (ha : a.WellFormed w.current)
    (hb : b.WellFormed w.current) (hf : f.monotone = false) (hpair : a.Pairable b w.current) :
    Yields w (do (← a.combine b f).acceptsAll) fun r _ => r = true ↔
      ∀ u, f (decide (u ∈ a.language w.current)) (decide (u ∈ b.language w.current)) = true := by
  have hm := hw.canonical
  obtain ⟨g₁, h₁, hg₁⟩ := ha.shown
  obtain ⟨g₂, h₂, hg₂⟩ := hb.shown
  refine .bind ((combine_deterministic_yieldsIff hw ha hb h₁ hg₁ h₂ hg₂ hf).yields hpair)
    fun c w1 hl1 hc => ?_
  obtain ⟨hflag, g, hc, hg, hfew, hlang⟩ := hc
  apply ((acceptsAll_runs hl1.after hc hg (honest_of_unknown hflag)).yields hfew).imp
  intro r w2 _ hr
  have hanswer₁ : ∀ u : Word, u ∈ a.language w.current ↔ u.codes ∈ g₁.accepts := fun u =>
    h₁.accepts_iff hm hg₁.toBounded
  have hanswer₂ : ∀ u : Word, u ∈ b.language w.current ↔ u.codes ∈ g₂.accepts := fun u =>
    h₂.accepts_iff hm hg₂.toBounded
  rw [hr]
  simp only [hanswer₁, hanswer₂]
  constructor
  · intro hall u
    exact (hlang _ u.lettered_codes).1 (hall _ u.lettered_codes)
  · intro hall cs hcs
    obtain ⟨u, rfl⟩ := hcs.exists_word
    exact (hlang _ hcs).2 (hall u)

theorem includedIn_yields (hw : w.current.WellFormed) (ha : a.WellFormed w.current)
    (hb : b.WellFormed w.current) (hpair : a.Pairable b w.current) :
    Yields w (a.includedIn b) fun r _ =>
      r = true ↔ a.language w.current ⊆ b.language w.current := by
  classical
  apply (combine_acceptsAll (f := fun x y => !x || y) hw ha hb rfl hpair).imp
  intro r w1 _ hr
  rw [hr]
  refine forall_congr' fun u => ?_
  by_cases hu : u ∈ a.language w.current <;> simp [hu]

theorem equivalent_yields (hw : w.current.WellFormed) (ha : a.WellFormed w.current)
    (hb : b.WellFormed w.current) (hpair : a.Pairable b w.current) :
    Yields w (a.equivalent b) fun r _ =>
      r = true ↔ a.language w.current = b.language w.current := by
  classical
  apply (combine_acceptsAll (f := fun x y => x == y) hw ha hb rfl hpair).imp
  intro r w1 _ hr
  rw [hr, Set.ext_iff]
  refine forall_congr' fun u => ?_
  simp

def OrderedBy (r : Option Ordering) (L M : Set Word) : Prop :=
  (r = some .eq ↔ L = M) ∧ (r = some .lt ↔ L ⊂ M) ∧ (r = some .gt ↔ M ⊂ L) ∧
    (r = none ↔ ¬ L ⊆ M ∧ ¬ M ⊆ L)

theorem compare_yields (hw : w.current.WellFormed) (ha : a.WellFormed w.current)
    (hb : b.WellFormed w.current) (hpair : a.Pairable b w.current)
    (hpair' : b.Pairable a w.current) :
    Yields w (a.compare? b) fun r _ =>
      OrderedBy r (a.language w.current) (b.language w.current) := by
  refine .bind (includedIn_yields hw ha hb hpair) fun below w1 hl1 hbelow => ?_
  refine .bind (includedIn_yields hl1.after (hb.later hl1) (ha.later hl1)
    (hpair'.later hb ha hl1)) fun above w2 hl2 habove => Runs.pure hl2.after ?_
  rw [ha.language_later hl1, hb.language_later hl1] at habove
  unfold OrderedBy
  rw [Set.Subset.antisymm_iff, ssubset_iff_subset_not_subset, ssubset_iff_subset_not_subset,
    ← hbelow, ← habove]
  cases below <;> cases above <;> simp

/-- Each question about languages is answered correctly. -/
theorem decisions_of_wellFormed (hw : w.current.WellFormed) (ha : a.WellFormed w.current)
    (hb : b.WellFormed w.current) :
    (Yields w a.acceptsNone fun r _ => r = true ↔ ∀ u, ¬ a.Accepts w.current u) ∧
    (a.deterministicCount w.current < 2 ^ 32 →
      Yields w a.acceptsAll fun r _ => r = true ↔ ∀ u, a.Accepts w.current u) ∧
    (a.Pairable b w.current →
      (Yields w (a.includedIn b) fun r _ =>
        r = true ↔ a.language w.current ⊆ b.language w.current) ∧
      Yields w (a.equivalent b) fun r _ =>
        r = true ↔ a.language w.current = b.language w.current) ∧
    (a.Pairable b w.current → b.Pairable a w.current →
      Yields w (a.compare? b) fun r _ =>
        OrderedBy r (a.language w.current) (b.language w.current)) := by
  have hm := hw.canonical
  obtain ⟨g, h, hg⟩ := ha.shown
  have haccepts : ∀ u : Word, a.Accepts w.current u ↔ u.codes ∈ g.accepts := fun u =>
    h.accepts_iff hm hg.toBounded
  refine ⟨?_, fun hfew => ?_, fun hpair => ⟨includedIn_yields hw ha hb hpair,
    equivalent_yields hw ha hb hpair⟩, compare_yields hw ha hb⟩
  · apply (acceptsNone_yields hw h hg).imp
    intro r w1 _ hr
    rw [hr]
    simp only [haccepts]
    constructor
    · exact fun hnone u => hnone _ u.lettered_codes
    · intro hnone cs hcs
      obtain ⟨u, rfl⟩ := hcs.exists_word
      exact hnone u
  · have hcount := (h.deterministicCount_lt_iff hm hg.toBounded ha.honest).1 hfew
    apply ((acceptsAll_runs hw h hg ha.honest).yields hcount).imp
    intro r w1 _ hr
    rw [hr]
    simp only [haccepts]
    constructor
    · exact fun hall u => hall _ u.lettered_codes
    · intro hall cs hcs
      obtain ⟨u, rfl⟩ := hcs.exists_word
      exact hall u

/-- The automaton of all one-letter words accepts some words and is equivalent to itself. -/
theorem decisions_of_wellFormed_ofSymbols : ∃ m a w, Manager.new 0 1 1 = .ok m ∧
    ofSymbols (.universal 0) ⟨m, []⟩ = .ok a w ∧ (∃ w', a.acceptsNone w = .ok false w') ∧
    (∃ w', a.acceptsAll w = .ok false w') ∧ (∃ w', a.includedIn a w = .ok true w') ∧
    (∃ w', a.equivalent a w = .ok true w') ∧ ∃ w', a.compare? a w = .ok (some .eq) w' := by
  obtain ⟨m, hm⟩ : ∃ m, Manager.new 0 1 1 = .ok m := ⟨_, rfl⟩
  obtain ⟨a, w, ha, hl, hcount, hshows, hcontained, hwell⟩ := ofSymbols_wellFormed hm
  have hw := hl.after
  have hfew : a.deterministicCount w.current < 2 ^ 32 := by
    apply (hwell.deterministicCount_le hw.canonical).trans_lt
    rw [hcount]
    norm_num
  have hpair : a.Pairable a w.current :=
    pairable_of_le hwell hwell hw.canonical (by omega) (by omega)
  obtain ⟨hnone, hall, hincl, hcompare⟩ := decisions_of_wellFormed hw hwell hwell
  obtain ⟨r₁, w₁, hrun₁, -, hr₁⟩ := yields_iff.1 hnone
  obtain ⟨r₂, w₂, hrun₂, -, hr₂⟩ := yields_iff.1 (hall hfew)
  obtain ⟨r₃, w₃, hrun₃, -, hr₃⟩ := yields_iff.1 (hincl hpair).1
  obtain ⟨r₄, w₄, hrun₄, -, hr₄⟩ := yields_iff.1 (hincl hpair).2
  obtain ⟨r₅, w₅, hrun₅, -, hr₅, -⟩ := yields_iff.1 (hcompare hpair hpair)
  have haccepts : ∀ u : Word, a.Accepts w.current u ↔ u.codes ∈ (oneLetter fun _ => True).accepts :=
    fun u => hshows.accepts_iff hw.canonical hcontained.toBounded
  have hsome : r₁ ≠ true := fun h => by
    exact hr₁.1 h [fun _ => false] ((haccepts _).2 (oneLetter_accepts trivial))
  have hempty : r₂ ≠ true := fun h => not_oneLetter_accepts_nil ((haccepts []).1 (hr₂.1 h []))
  rw [Bool.eq_false_of_not_eq_true hsome] at hrun₁
  rw [Bool.eq_false_of_not_eq_true hempty] at hrun₂
  rw [hr₃.2 subset_rfl] at hrun₃
  rw [hr₄.2 rfl] at hrun₄
  rw [hr₅.2 rfl] at hrun₅
  exact ⟨m, a, w, hm, ha, ⟨w₁, hrun₁⟩, ⟨w₂, hrun₂⟩, ⟨w₃, hrun₃⟩, ⟨w₄, hrun₄⟩, w₅, hrun₅⟩

end SymbolicNfa

end SymbolicAutomata
