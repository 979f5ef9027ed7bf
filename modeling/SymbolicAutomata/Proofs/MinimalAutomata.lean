import SymbolicAutomata.Proofs.Histories
import SymbolicAutomata.Proofs.Isomorphisms
import SymbolicAutomata.Proofs.Residuals
/-!
# Minimal automata

Minimization of a deterministic automaton all of whose states are reached by words leaves one state
for each residual of the language. Up to the numbers of the states the result depends on the
language alone, down to the label of every edge.
-/
namespace SymbolicAutomata

open Manager Bdd Layout SymbolicNfa

variable {w w' : Workspace} {m : Manager} {g g₁ g₂ : NFA Nat Nat}

namespace Automaton

variable {b c : Automaton}

/-- Two minimal automata are isomorphic if and only if they accept the same words. -/
theorem isomorphic_iff_of_minimal (hw : w.current.WellFormed) (hb : Shows w.current b g₁)
    (hc : Shows w.current c g₂) (h₁ : Minimal g₁ b.size) (h₂ : Minimal g₂ c.size) :
    (∃ σ, Isomorphism b c w σ) ↔ ∀ cs, Lettered cs → (cs ∈ g₁.accepts ↔ cs ∈ g₂.accepts) := by
  constructor
  · rintro ⟨σ, hiso⟩ cs hcs
    exact hiso.accepts_iff hw hb hc h₁.contained h₂.contained hcs
  · intro hlang
    obtain ⟨σ, hσ, hsame⟩ := h₁.exists_renaming h₂ hlang
    have hlt : ∀ i < b.size, σ i < c.size := fun i hi => hσ.mapsTo hi
    have hback : ∀ cs, Lettered cs → (cs ∈ g₂.accepts ↔ cs ∈ g₁.accepts) := fun cs hcs =>
      (hlang cs hcs).symm
    refine ⟨σ, isomorphism_of_shows hw hb hc h₁.contained h₂.contained hσ (fun dir i hi => ?_)
      fun i hi j hj x hx => ?_⟩
    · cases dir with
      | forward =>
        exact ⟨h₁.start_of_sameFuture h₂ hlang (hlt i hi) (hsame i hi),
          h₂.start_of_sameFuture h₁ hback hi (hsame i hi).symm⟩
      | backward => exact (hsame i hi).accept_iff
    · exact ⟨h₁.step_of_sameFuture h₂ hi (hlt i hi) (hlt j hj) hx (hsame i hi) (hsame j hj),
        h₂.step_of_sameFuture h₁ (hlt i hi) hi hj hx (hsame i hi).symm (hsame j hj).symm⟩

end Automaton

namespace SymbolicNfa

variable {a b a₁ a₂ : SymbolicNfa}

/-- The automaton is deterministic and has one state for each residual of the language. -/
structure IsMinimal (b : SymbolicNfa) (m : Manager) (L : Language Letter) : Prop where
  wellFormed : b.WellFormed m
  deterministic : b.IsDeterministic m
  accepts : ∀ u, b.Accepts m u ↔ u ∈ L
  count : (b.stateCount : ℕ∞) = (Set.range L.leftQuotient).encard

theorem isMinimal_of_shows {L : Language Letter} (h : b.Shows m g) (hm : m.Canonical)
    (hb : b.WellFormed m) (hg : Minimal g b.stateCount) (hL : ∀ u, b.Accepts m u ↔ u ∈ L) :
    b.IsMinimal m L where
  wellFormed := hb
  deterministic := (h.isDeterministic_iff hm hg.contained.toBounded).2 hg.deterministic
  accepts := hL
  count := (hg.encard_leftQuotient fun u =>
    (hL u).symm.trans (h.accepts_iff hm hg.contained.toBounded)).symm

theorem minimize_minimal (hw : w.current.WellFormed) (ha : a.WellFormed w.current)
    (hdet : a.IsDeterministic w.current) (hall : a.AllReached w.current) :
    Yields w a.minimize fun b m => b.IsMinimal m (a.language w.current) ∧
      ∃ g, b.Shows m g ∧ Minimal g b.stateCount := by
  have hm := hw.canonical
  obtain ⟨g, h, hg⟩ := ha.shown
  rw [h.isDeterministic_iff hm hg.toBounded] at hdet
  rw [h.allReached_iff hm hg.toBounded] at hall
  obtain ⟨p, hp, -⟩ := hdet.start
  have hpos : 0 < a.stateCount := Nat.zero_lt_of_lt (hg.start p hp)
  apply (minimize_merges hw ha h hg hpos).imp
  rintro b w1 hl ⟨hwell, haccepts, Bs, hBs, hstable, hcount, hb⟩
  have hminimal : Minimal (carry (joined g a.stateCount) (InBlock Bs)) b.stateCount :=
    hcount ▸ carry_minimal hBs hstable hg hdet hall
  exact ⟨isMinimal_of_shows hb hl.after.canonical hwell hminimal haccepts, _, hb, hminimal⟩

/-- Minimization gives deterministic automata with as many states as their languages have residuals.
They are isomorphic if and only if the languages are the same. -/
theorem minimize_of_allReached (hw : w.current.WellFormed) (ha₁ : a₁.WellFormed w.current)
    (ha₂ : a₂.WellFormed w.current) (hdet₁ : a₁.IsDeterministic w.current)
    (hdet₂ : a₂.IsDeterministic w.current) (hall₁ : a₁.AllReached w.current)
    (hall₂ : a₂.AllReached w.current) :
    ∃ b₁ w₁ b₂ w₂, a₁.minimize w = .ok b₁ w₁ ∧ a₂.minimize w₁ = .ok b₂ w₂ ∧ w.Leads w₁ ∧
      w₁.Leads w₂ ∧ b₁.IsMinimal w₁.current (a₁.language w.current) ∧
      b₂.IsMinimal w₂.current (a₂.language w.current) ∧
      ((∃ σ, Automaton.Isomorphism (.symbolic b₁) (.symbolic b₂) w₂ σ) ↔
        a₁.language w.current = a₂.language w.current) := by
  obtain ⟨b₁, w₁, hrun₁, hl₁, hminimal₁, g₁, hb₁, hg₁⟩ :=
    yields_iff.1 (minimize_minimal hw ha₁ hdet₁ hall₁)
  obtain ⟨g, h, hg⟩ := ha₂.shown
  have hdet₂' : a₂.IsDeterministic w₁.current := (h.isDeterministic_later hg.toBounded hl₁).2 hdet₂
  have hall₂' : a₂.AllReached w₁.current := by
    rwa [(h.later hl₁).allReached_iff hl₁.after.canonical hg.toBounded,
      ← h.allReached_iff hw.canonical hg.toBounded]
  obtain ⟨b₂, w₂, hrun₂, hl₂, hminimal₂, g₂, hb₂, hg₂⟩ :=
    yields_iff.1 (minimize_minimal hl₁.after (ha₂.later hl₁) hdet₂' hall₂')
  rw [ha₂.language_later hl₁] at hminimal₂
  refine ⟨b₁, w₁, b₂, w₂, hrun₁, hrun₂, hl₁, hl₂, hminimal₁, hminimal₂, ?_⟩
  rw [Automaton.isomorphic_iff_of_minimal hl₂.after (.symbolic (hb₁.later hl₂)) (.symbolic hb₂)
    hg₁ hg₂]
  have hlang₁ : ∀ u : Word, u ∈ a₁.language w.current ↔ u.codes ∈ g₁.accepts := fun u =>
    (hminimal₁.accepts u).symm.trans (hb₁.accepts_iff hl₁.after.canonical hg₁.contained.toBounded)
  have hlang₂ : ∀ u : Word, u ∈ a₂.language w.current ↔ u.codes ∈ g₂.accepts := fun u =>
    (hminimal₂.accepts u).symm.trans (hb₂.accepts_iff hl₂.after.canonical hg₂.contained.toBounded)
  constructor
  · intro hsame
    ext u
    rw [hlang₁, hlang₂]
    exact hsame u.codes u.lettered_codes
  · intro heq cs hcs
    obtain ⟨u, rfl⟩ := hcs.exists_word
    rw [← hlang₁, ← hlang₂, heq]

/-- Two states that lead to each other and a single state, all of them accepting, accept all words.
The two are merged into one. -/
theorem minimize_of_allReached_draw : ∃ m a₁ w₀ a₂ w b₁ w₁ b₂ w₂ σ, Manager.new 0 1 1 = .ok m ∧
    draw 2 [0] [0, 1] [(0, 1), (1, 0)] ⟨m, []⟩ = .ok a₁ w₀ ∧
    draw 1 [0] [0] [(0, 0)] w₀ = .ok a₂ w ∧ a₁.minimize w = .ok b₁ w₁ ∧
    a₂.minimize w₁ = .ok b₂ w₂ ∧ b₁.IsMinimal w₁.current (a₁.language w.current) ∧
    Automaton.Isomorphism (.symbolic b₁) (.symbolic b₂) w₂ σ := by
  obtain ⟨m, hm⟩ : ∃ m, Manager.new 0 1 1 = .ok m := ⟨_, rfl⟩
  obtain ⟨a₁, w₀, ha₁, hl₀, hcount₁, -, hshows₁, hcontained₁, hwell₁⟩ :=
    draw_wellFormed 2 [0] [0, 1] [(0, 1), (1, 0)] hm (by decide) (by decide) (by decide) (by decide)
  obtain ⟨a₂, w, ha₂, hl, hcount₂, hflag₂, hshows₂⟩ := yields_iff.1
    (draw_yields 1 [0] [0] [(0, 0)] hl₀.after (by decide) (by decide) (by decide) (by decide))
  have hm' := hl.after.canonical
  have hcontained₂ : Contained (drawing [0] [0] [(0, 0)]) a₂.stateCount :=
    hcount₂ ▸ drawing_contained (by decide) (by decide) (by decide)
  have hdet₁ : Deterministic (drawing [0] [0, 1] [(0, 1), (1, 0)]) a₁.stateCount :=
    hcount₁ ▸ drawing_deterministic (f := fun p => 1 - p) (by decide) (by decide)
  have hdet₂ : Deterministic (drawing [0] [0] [(0, 0)]) a₂.stateCount :=
    hcount₂ ▸ drawing_deterministic (f := id) (by decide) (by decide)
  have hshows₁' := hshows₁.later hl
  have hall₁ : a₁.AllReached w.current := by
    rw [hshows₁'.allReached_iff hm' hcontained₁.toBounded, hcount₁]
    have hzero : Reachable (drawing [0] [0, 1] [(0, 1), (1, 0)]) 0 :=
      reachable_of_start (List.mem_singleton_self 0)
    have hone : Reachable (drawing [0] [0, 1] [(0, 1), (1, 0)]) 1 :=
      hzero.step letterCount_pos (mem_drawing_step.2 (by decide))
    intro q hq
    obtain rfl | rfl : q = 0 ∨ q = 1 := by omega
    · exact hzero
    · exact hone
  have hall₂ : a₂.AllReached w.current := by
    rw [hshows₂.allReached_iff hm' hcontained₂.toBounded, hcount₂]
    intro q hq
    obtain rfl : q = 0 := by omega
    exact reachable_of_start (List.mem_singleton_self 0)
  have haccept₁ : ∀ q < 2, q ∈ [0, 1] := by decide
  have haccept₂ : ∀ q < 1, q ∈ [0] := by decide
  have hsame : a₁.language w.current = a₂.language w.current := by
    ext u
    have hu := u.lettered_codes
    refine iff_of_true ((hshows₁'.accepts_iff hm' hcontained₁.toBounded).2 ?_)
      ((hshows₂.accepts_iff hm' hcontained₂.toBounded).2 ?_)
    · exact hdet₁.accepts_of_all hcontained₁.toBounded (hcount₁ ▸ haccept₁) hu
    · exact hdet₂.accepts_of_all hcontained₂.toBounded (hcount₂ ▸ haccept₂) hu
  obtain ⟨b₁, w₁, b₂, w₂, hrun₁, hrun₂, -, -, hminimal, -, hiso⟩ := minimize_of_allReached hl.after
    (hwell₁.later hl) ⟨⟨_, hshows₂, hcontained₂⟩, honest_of_unknown hflag₂⟩
    ((hshows₁'.isDeterministic_iff hm' hcontained₁.toBounded).2 hdet₁)
    ((hshows₂.isDeterministic_iff hm' hcontained₂.toBounded).2 hdet₂) hall₁ hall₂
  obtain ⟨σ, hσ⟩ := hiso.2 hsame
  exact ⟨m, a₁, w₀, a₂, w, b₁, w₁, b₂, w₂, σ, hm, ha₁, ha₂, hrun₁, hrun₂, hminimal, hσ⟩

end SymbolicNfa

end SymbolicAutomata
