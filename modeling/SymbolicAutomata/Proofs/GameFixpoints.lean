import SymbolicAutomata.Proofs.Atoms
import SymbolicAutomata.Proofs.Simulations
/-!
# Fixpoints of the simulation game

Any nodes can be given to the game, also ones whose successors are not among them. A node survives
in a larger set if it does in a smaller one, so there is a greatest set of the given nodes in which
every node survives. It is what remains after rounds that remove all other nodes at once.
-/
namespace SymbolicAutomata

open Manager Bdd

namespace Game

variable {w : Workspace} {m : Manager} {a b : Automaton} {g₁ g₂ : NFA Nat Nat} {s₁ s₂ : ValueSet}
  {S₁ S₂ : Set Nat} {X : Set GameNode} {n : GameNode}

/-- A main node survives if for each state of `S₁` that an edge leads to, the challenge about all
letters on that edge is in the set. A challenge survives if each of its letters is on an edge to a
state of `S₂` whose main node is in the set. -/
def Survives (a b : Automaton) (m : Manager) (S₁ S₂ : Set Nat) (X : Set GameNode) :
    GameNode → Prop
  | .main p q => ∀ p' ∈ S₁, ∀ x, a.HasEdge m p x p' →
    ∃ on, .challenge p' q on ∈ X ∧ ∀ y, on.Has m y ↔ a.HasEdge m p y p'
  | .challenge p q on => ∀ x, on.Has m x → ∃ q' ∈ S₂, b.HasEdge m q x q' ∧ .main p q' ∈ X

theorem survives_iff (ha : Automaton.Shows m a g₁) (hb : Automaton.Shows m b g₂)
    (hm : m.Canonical) (hg₁ : Contained g₁ a.size) (hg₂ : Contained g₂ b.size) :
    Survives a b m S₁ S₂ X n ↔ Arena.Survives ⟨g₁, g₂, S₁, S₂⟩ m X n := by
  cases n with
  | main p q => simp only [Survives, Arena.Survives, ha.hasEdge_iff hm hg₁]
  | challenge p q on => simp only [Survives, Arena.Survives, hb.hasEdge_iff hm hg₂]

/-- What remains is the greatest set of the given nodes in which all survive. It depends neither on
their order nor on what the manager learns before. -/
theorem fixpoint_of_wellFormed (hw : w.current.WellFormed) (ha : a.WellFormed w.current)
    (hb : b.WellFormed w.current) (hs₁ : a.Selects w.current s₁ S₁)
    (hs₂ : b.Selects w.current s₂ S₂) :
    ∃ G w₁, Game.new a b s₁ s₂ w = .ok G w₁ ∧ w.Leads w₁ ∧ ∀ w₂, w₁.Leads w₂ →
      ∀ initial : List GameNode, (∀ n ∈ initial, n.OnStates a b w₂.current) →
      ∃ X, IsGreatest {X | X ⊆ {n | n ∈ initial} ∧
          ∀ n ∈ X, Survives a b w₂.current S₁ S₂ X n} X ∧
        ∀ w₃, w₂.Leads w₃ → ∀ l : List GameNode, (∀ n, n ∈ l ↔ n ∈ initial) →
          ∃ rs w₄, G.fixpoint l w₃ = .ok rs w₄ ∧ w₃.Leads w₄ ∧ ∀ n, n ∈ rs ↔ n ∈ X := by
  obtain ⟨g₁, hshows₁, hg₁⟩ := ha.exists_shows
  obtain ⟨g₂, hshows₂, hg₂⟩ := hb.exists_shows
  obtain ⟨G, w₁, hnew, hl₁, rfl, rfl, hplays⟩ := yields_iff.1
    (Automaton.newGame_yields .forward hw hshows₁ hshows₂ hg₁ hg₂ hs₁ hs₂)
  refine ⟨G, w₁, hnew, hl₁, fun w₂ hl₂ initial hinitial => ?_⟩
  have hl := hl₁.trans hl₂
  have hsurvives : ∀ X n, Survives G.first G.second w₂.current S₁ S₂ X n ↔
      Arena.Survives ⟨g₁, g₂, S₁, S₂⟩ w₂.current X n := fun X n =>
    survives_iff (hshows₁.later hl) (hshows₂.later hl) hl.after.canonical hg₁ hg₂
  simp only [hsurvives]
  obtain ⟨rs, -, -, -, hrs⟩ :=
    yields_iff.1 ((hplays.later hl₂).fixpoint_yields (.refl hl.after) hinitial)
  refine ⟨_, hrs, fun w₃ hl₃ l hsame => ?_⟩
  obtain ⟨rs', w₄, hrun, hl₄, hrs'⟩ := yields_iff.1
    ((hplays.later (hl₂.trans hl₃)).fixpoint_yields hl₃ fun n hn => hinitial n ((hsame n).1 hn))
  simp only [hsame] at hrs'
  exact ⟨rs', w₄, hrun, hl₄, fun n => Set.ext_iff.1 (hrs'.unique hrs) n⟩

/-- The challenge on a single edge has no answer among the given nodes. So it is removed, and after
it the main node that it belongs to; a main node without challenges remains. -/
theorem fixpoint_of_wellFormed_draw : ∃ m a w G w₁ rs w₂, Manager.new 0 1 1 = .ok m ∧
    SymbolicNfa.draw 2 [0] [1] [(0, 1)] ⟨m, []⟩ = .ok a w ∧
    Game.new (.symbolic a) (.symbolic a) a.states a.states w = .ok G w₁ ∧
    G.fixpoint [.main 0 0, .challenge 1 0 (.universal w₁.current.id), .main 1 0] w₁ = .ok rs w₂ ∧
    ∀ n, n ∈ rs ↔ n = .main 1 0 := by
  obtain ⟨m, hm⟩ : ∃ m, Manager.new 0 1 1 = .ok m := ⟨_, rfl⟩
  obtain ⟨a, w, ha, hl, hcount, -, hshows, hcontained, hwell⟩ :=
    SymbolicNfa.draw_wellFormed 2 [0] [1] [(0, 1)] hm (by decide) (by decide) (by decide)
      (by decide)
  have hselects := Automaton.states_selects hshows
  obtain ⟨G, w₁, hnew, hl₁, hgame⟩ := fixpoint_of_wellFormed (a := .symbolic a) (b := .symbolic a)
    hl.after hwell hwell hselects hselects
  have hc := hl₁.after.canonical
  have huniversal := SymbolSet.universal_shows hc
  have hedge : ∀ p x q, Automaton.HasEdge (.symbolic a) w₁.current p x q ↔ p = 0 ∧ q = 1 := by
    intro p x q
    rw [((Automaton.Shows.symbolic hshows).later hl₁).hasEdge_iff hc hcontained]
    simp
  have hnodes : ∀ n ∈ [GameNode.main 0 0, .challenge 1 0 (.universal w₁.current.id), .main 1 0],
      n.OnStates (.symbolic a) (.symbolic a) w₁.current := by
    have h1 : 1 < (Automaton.symbolic a).size := by
      change 1 < a.stateCount
      omega
    have h0 := Nat.zero_lt_of_lt h1
    simp only [List.mem_cons, List.not_mem_nil, or_false]
    rintro n (rfl | rfl | rfl)
    · exact ⟨h0, h0, trivial⟩
    · exact ⟨h1, h0, rfl, _, huniversal⟩
    · exact ⟨h1, h0, trivial⟩
  obtain ⟨X, ⟨⟨hsub, hsurvives⟩, hupper⟩, hrun⟩ := hgame w₁ (.refl hl₁.after) _ hnodes
  obtain ⟨rs, w₂, hfix, -, hrs⟩ := hrun w₁ (.refl hl₁.after) _ fun n => Iff.rfl
  refine ⟨m, a, w, G, w₁, rs, w₂, hm, ha, hnew, hfix, fun n => ?_⟩
  rw [hrs]
  have hlost : .challenge 1 0 (.universal w₁.current.id) ∉ X := by
    intro hmem
    obtain ⟨q', -, hmove, hmain⟩ := hsurvives _ hmem (fun _ => true)
      ((huniversal.has_iff hc).2 trivial)
    obtain ⟨-, rfl⟩ := (hedge _ _ _).1 hmove
    simpa using hsub hmain
  constructor
  · intro hn
    rcases List.mem_cons.1 (hsub hn) with rfl | hrest
    · obtain ⟨on, hon, -⟩ := hsurvives _ hn 1 (by simp [hcount]) (fun _ => true)
        ((hedge _ _ _).2 ⟨rfl, rfl⟩)
      obtain rfl : on = .universal w₁.current.id := by simpa using hsub hon
      exact absurd hon hlost
    · rcases List.mem_cons.1 hrest with rfl | hlast
      · exact absurd hn hlost
      · exact List.mem_singleton.1 hlast
  · rintro rfl
    refine hupper (a := {.main 1 0}) ⟨by simp, ?_⟩ rfl
    rintro n rfl p' - x hmove
    exact absurd ((hedge _ _ _).1 hmove).1 (by decide)

end Game
end SymbolicAutomata
