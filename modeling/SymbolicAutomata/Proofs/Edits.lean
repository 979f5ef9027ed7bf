import SymbolicAutomata.Proofs.Derivations
/-!
# Edits of an automaton

An automaton grows by states and edges. As long as the sets and relations of a call name states
only, all edges join states, and a state has no edges when it is made. Numbers from `n` on can be
written with the bits of the states, so a set can name them before they are states.
-/
namespace SymbolicAutomata

open Manager Bdd Layout

/-- A call that changes an automaton in place. -/
inductive Edit
  | addState (accepting starting : Bool)
  | increase (n : Nat) (accepting starting : Bool)
  | addEdge (p : Nat) (on : SymbolSet) (q : Nat)
  | addEdgeSets (s : ValueSet) (on : SymbolSet) (t : ValueSet)
  | addTransitions (r : Relation)

/-- The operation that the call is, on the automaton that it changes. -/
def Edit.of (a : SymbolicNfa) : Edit → Construction
  | addState accepting starting => .addState a accepting starting
  | increase n accepting starting => .increase a n accepting starting
  | addEdge p on q => .addEdge a p on q
  | addEdgeSets s on t => .addEdgeSets a s on t
  | addTransitions r => .addTransitions a r

theorem Edit.operands_of {a : SymbolicNfa} (e : Edit) : (e.of a).operands = [a] := by
  cases e <;> rfl

namespace SymbolicNfa

variable {w : Workspace} {m : Manager} {a : SymbolicNfa} {g : NFA Nat Nat} {p q : Nat} {x : Letter}

/-- A triple of the edge relation. Its numbers have the bits of state numbers, and need not be
states. -/
def HasTriple (a : SymbolicNfa) (m : Manager) (p : Nat) (x : Letter) (q : Nat) : Prop :=
  p < 2 ^ a.width ∧ q < 2 ^ a.width ∧ m.Evaluates (edgeAssignment p x q) a.edges.fn true

theorem Shows.hasTriple_iff (h : a.Shows m g) (hm : m.Canonical) :
    a.HasTriple m p x q ↔ p < 2 ^ a.width ∧ q < 2 ^ a.width ∧ q ∈ g.step p x.code := by
  refine and_congr_right fun hp => and_congr_right fun hq => ?_
  rw [← hm.eval_eq_iff h.edges.2.denotes.has, h.edges.2.denotes.holds, h.edges.1,
    reads_edgeAssignment h.width_le hp hq, edges_iff]

theorem Formed.lt_of_hasTriple (h : a.Formed m) (hm : m.Canonical) (ht : a.HasTriple m p x q) :
    p < a.stateCount ∧ q < a.stateCount := by
  obtain ⟨g, hg, hn⟩ := h
  obtain ⟨-, -, hstep⟩ := (hg.hasTriple_iff hm).1 ht
  exact ⟨hn.source _ _ _ hstep, hn.target _ _ _ hstep⟩

/-- The state that is made is the next number, and no triple has it. -/
theorem Formed.addState_bare {accepting starting : Bool} {r : Nat × SymbolicNfa} {w' : Workspace}
    (h : a.Formed w.current) (hw : w.current.WellFormed)
    (hrun : a.addState accepting starting w = .ok r w') :
    r.1 = a.stateCount ∧ r.2.stateCount = a.stateCount + 1 ∧ ∀ p x,
      ¬ r.2.HasTriple w'.current r.1 x p ∧ ¬ r.2.HasTriple w'.current p x r.1 := by
  obtain ⟨g, hg, hn⟩ := h
  by_cases hfew : a.stateCount + 1 < 2 ^ 32
  · obtain ⟨hl, hr, hcount, -, hshows⟩ := (addState_yields hw hg hn hfew).of_ok hrun
    refine ⟨hr, hcount, fun p x => ⟨fun ht => ?_, fun ht => ?_⟩⟩
    · have hstep := ((hshows.hasTriple_iff hl.after.canonical).1 ht).2.2
      have := hn.source _ _ _ hstep
      omega
    · have hstep := ((hshows.hasTriple_iff hl.after.canonical).1 ht).2.2
      have := hn.target _ _ _ hstep
      omega
  · exact ((addState_fails hw hfew).of_ok hrun).2.elim

end SymbolicNfa

structure Draft where
  workspace : Workspace
  automaton : SymbolicNfa

namespace Draft

variable {d d' : Draft}

inductive Begins : Draft → Prop
  | new {w w' : Workspace} {n : Nat} {a : SymbolicNfa} (ready : w.current.WellFormed)
      (fits : n < 2 ^ 32) (run : SymbolicNfa.ofCount n w = .ok a w') : Begins ⟨w', a⟩

/-- A call that returns, or other work with the manager. -/
inductive Step : Draft → Draft → Prop
  | edits {e : Edit} {w w' : Workspace} {a b : SymbolicNfa} (fair : (e.of a).Fair w.current)
      (run : (e.of a).run w = .ok b w') : Step ⟨w, a⟩ ⟨w', b⟩
  | works {w w' : Workspace} {a : SymbolicNfa} (leads : w.Leads w') : Step ⟨w, a⟩ ⟨w', a⟩

abbrev Later : Draft → Draft → Prop := Relation.ReflTransGen Step

def Reachable (d : Draft) : Prop := ∃ d₀, Begins d₀ ∧ Later d₀ d

structure Good (d : Draft) : Prop where
  ready : d.workspace.current.WellFormed
  formed : d.automaton.Formed d.workspace.current

theorem Begins.good (h : Begins d) : d.Good := by
  cases h with
  | new ready fits run =>
    obtain ⟨hl, hformed⟩ := (SymbolicNfa.ofCount_formed ready fits).of_ok run
    exact ⟨hl.after, hformed⟩

theorem Good.step (hd : d.Good) (h : Step d d') : d'.Good := by
  cases h with
  | @edits e w w' a b fair run =>
    have hoperands : ∀ x ∈ (e.of a).operands, x.Formed w.current := by
      intro x hx
      rw [e.operands_of] at hx
      obtain rfl := List.mem_singleton.1 hx
      exact hd.formed
    obtain ⟨hl, hformed⟩ := (Construction.formed_keeps hd.ready hoperands fair).of_ok run
    exact ⟨hl.after, hformed⟩
  | works leads => exact ⟨leads.after, hd.formed.later leads⟩

theorem Reachable.good (h : d.Reachable) : d.Good := by
  obtain ⟨d₀, hbegins, hlater⟩ := h
  induction hlater with
  | refl => exact hbegins.good
  | tail _ hstep ih => exact ih.step hstep

/-- Whatever calls were made, the edge relation has triples of states only, and a state that is
made has no edges yet. -/
theorem triples_of_reachable (h : d.Reachable) :
    (∀ p x q, d.automaton.HasTriple d.workspace.current p x q →
      p < d.automaton.stateCount ∧ q < d.automaton.stateCount) ∧
    ∀ accepting starting r w', d.automaton.addState accepting starting d.workspace = .ok r w' →
      r.1 = d.automaton.stateCount ∧ r.2.stateCount = d.automaton.stateCount + 1 ∧ ∀ p x,
        ¬ r.2.HasTriple w'.current r.1 x p ∧ ¬ r.2.HasTriple w'.current p x r.1 := by
  have hgood := h.good
  constructor
  · intro p x q ht
    exact hgood.formed.lt_of_hasTriple hgood.ready.canonical ht
  · intro accepting starting r w' hrun
    exact hgood.formed.addState_bare hgood.ready hrun

theorem triples_of_reachable_addEdge : ∃ d : Draft, d.Reachable ∧ d.automaton.stateCount = 2 ∧
    (∀ x, d.automaton.HasTriple d.workspace.current 0 x 1) ∧
    ∀ p x q, d.automaton.HasTriple d.workspace.current p x q → p < 2 ∧ q < 2 := by
  obtain ⟨m, hm⟩ : ∃ m, Manager.new 0 1 1 = .ok m := ⟨_, rfl⟩
  have hready := wellFormed_new hm
  obtain ⟨a, w, ha, hl, hcount, -, hshows⟩ := yields_iff.1
    (SymbolicNfa.ofCount_yields (w := ⟨m, []⟩) hready (by decide : 2 < 2 ^ 32))
  have hon : (SymbolSet.universal m.id).Shows w.current fun _ => True :=
    ⟨hl.grows.id.symm, SymbolicNfa.universal_denotes hl.after.canonical m.id⟩
  have hedge : Yields w (a.addEdge 0 (.universal m.id) 1) _ :=
    SymbolicNfa.addEdge_yields (L := fun _ => True) hl.after hshows hon.denotes (by omega)
      (by omega)
  obtain ⟨b, w', hb, hl', hcount', -, hshows'⟩ := yields_iff.1 hedge
  have hstep : Step ⟨w, a⟩ ⟨w', b⟩ :=
    .edits (e := .addEdge 0 (.universal m.id) 1) ⟨_, hon⟩ hb
  have hreachable : Reachable ⟨w', b⟩ := ⟨_, .new hready (by decide) ha, .single hstep⟩
  have htwo : b.stateCount = 2 := hcount'.trans hcount
  have hwidth : b.width = 1 := by rw [SymbolicNfa.width, htwo]; rfl
  refine ⟨⟨w', b⟩, hreachable, htwo, fun x => ?_, fun p x q ht => ?_⟩
  · refine (hshows'.hasTriple_iff hl'.after.canonical).2 ⟨?_, ?_, .inr ⟨rfl, trivial, rfl⟩⟩
    · rw [hwidth]
      decide
    · rw [hwidth]
      decide
  · have hlt := (triples_of_reachable hreachable).1 p x q ht
    rwa [htwo] at hlt

def strayEdge : BddM (Nat × SymbolSet) := do
  let a ← SymbolicNfa.ofCount 3
  let d ← a.stateDomain
  let stray ← ValueSet.singleton d 3
  let first ← ValueSet.singleton d 0
  let b ← a.addEdgeSets stray (.universal a.manager) first
  let (q, c) ← b.addState false false
  return (q, ← c.edge q 0)

/-- A set that names more than the states gives edges to a state that is made later. -/
theorem strayEdge_eq : ∃ m w, Manager.new 0 1 1 = .ok m ∧
    strayEdge ⟨m, []⟩ = .ok (3, .universal m.id) w := by
  have hcheck : ∃ m, Manager.new 0 1 1 = .ok m ∧ ∃ r w, strayEdge ⟨m, []⟩ = .ok r w ∧
      r = (3, .universal m.id) := by decide +kernel
  obtain ⟨m, hm, r, w, hrun, rfl⟩ := hcheck
  exact ⟨m, w, hm, hrun⟩

end Draft

end SymbolicAutomata
