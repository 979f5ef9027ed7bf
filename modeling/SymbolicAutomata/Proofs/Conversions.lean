import SymbolicAutomata.Conversion
import SymbolicAutomata.Proofs.Encodings
/-!
# Conversion to the symbolic encoding

An automaton in any encoding is converted by what it answers about its states and its edges. A
reversed view does not know its edges and cannot be converted.
-/
namespace SymbolicAutomata

open Manager Bdd Layout

variable {w w' : Workspace} {m : Manager} {g : NFA Nat Nat} {n : Nat}

namespace Automaton

/-- The answers that a conversion needs are those for the states and edges of `g`. -/
structure Answers (p : Prop) (w : Workspace) (a : Automaton) (g : NFA Nat Nat) (n : Nat) :
    Prop where
  count : Runs p w a.stateCount fun k _ => k = n
  states : Runs p w a.states fun s m =>
    s.domain = sourceBlock (bitsNeeded n) ∧ s.Shows m (· < n)
  ends : ∀ dir, Runs p w (a.ends dir) fun s m =>
    s.domain = sourceBlock (bitsNeeded n) ∧ s.Shows m (· ∈ endsOf g dir)
  edges : Runs p w a.edges fun r m =>
    r.domains = edgeBlocks (bitsNeeded n) ∧ r.Shows m (Edges g)

theorem answers_symbolic {a : SymbolicNfa} (h : a.Shows w.current g) (hw : w.current.WellFormed) :
    Answers False w (symbolic a) g a.stateCount where
  count := Runs.pure hw rfl
  states := Runs.pure hw h.states
  ends dir := by
    cases dir with
    | forward => exact Runs.pure hw h.starting
    | backward => exact Runs.pure hw h.accepting
  edges := Runs.pure hw h.edges

theorem answers_relational {a : SymbolicNfa} (h : a.Shows w.current g)
    (hw : w.current.WellFormed) : Answers False w (relational a) g a.stateCount where
  count := (Shows.relational h).count_yields hw
  states := Runs.pure hw h.states
  ends dir := by
    cases dir with
    | forward => exact Runs.pure hw h.starting
    | backward => exact Runs.pure hw h.accepting
  edges := Runs.pure hw h.edges

theorem answers_matrix {a : MatrixNfa} (h : a.Shows w.current g) (hg : Contained g a.stateCount)
    (hw : w.current.WellFormed) : Answers False w (matrix a) g a.stateCount where
  count := Runs.pure hw rfl
  states := h.states_yields hw
  ends _ := (Shows.matrix h).ends_yields hw hg
  edges := h.edges_yields hw hg

end Automaton

namespace SymbolicNfa

theorem ofAutomaton_runs {p : Prop} {a : Automaton} (hw : w.current.WellFormed)
    (hg : Contained g n) (hn : n < 2 ^ 32) (ha : ∀ w', w.Leads w' → a.Answers p w' g n) :
    Runs p w (ofAutomaton a) fun b m =>
      b.stateCount = n ∧ b.determinism = .unknown ∧ b.Shows m g := by
  have hk : bitsNeeded n ≤ 32 := bitsNeeded_le_iff.2 (Nat.le_of_lt hn)
  have hle : n ≤ 2 ^ bitsNeeded n := le_two_pow_bitsNeeded n
  have hgk := hg.mono hle
  apply Runs.bind (ha w (.refl hw)).count
  intro count w1 hl1 hcount
  subst count
  apply Runs.bind (Runs.weaken (ofCount_yields hl1.after hn))
  rintro b w2 hl2 ⟨hcount, hflag, hb⟩
  have hwidth : b.width = bitsNeeded n := by rw [width, hcount]
  have hl12 := hl1.trans hl2
  apply Runs.bind (ha w2 hl12).states
  rintro states w3 hl3 ⟨hsd, hs⟩
  have hb3 := hb.later hl3
  have hbd : b.states.domain = sourceBlock (bitsNeeded n) := by rw [hb.states.1, hwidth]
  have hdomain := hsd.trans hbd.symm
  apply Runs.bind (Runs.weaken (ValueSet.same_yields hs hb3.states.2 hdomain hl3.after))
  intro same w4 hl4 hsame
  obtain rfl : same = true := hsame.2 fun v _ => by rw [hcount]
  have hb4 := hb3.later hl4
  simp only [Bool.not_true, Bool.false_eq_true, ↓reduceIte]
  apply Runs.lift_bind hb4.stateDomain
  rw [hwidth]
  have hl14 := hl12.trans (hl3.trans hl4)
  have hmove : ∀ {w' : Workspace} {s : ValueSet} {S : Set Nat}, w'.current.WellFormed →
      s.domain = sourceBlock (bitsNeeded n) ∧ s.Shows w'.current (· ∈ S) →
      (∀ q ∈ S, q < 2 ^ bitsNeeded n) →
      Yields w' (s.withDomain (sourceBlock (bitsNeeded n))) fun r m =>
        r.domain = sourceBlock (bitsNeeded n) ∧ r.Shows m (· ∈ S) := by
    intro w' s S hw' hs hS
    apply hs.2.withDomain hw'
    rw [hs.1]
    exact fits_of_small hk hk sourceBlock_base_le sourceBlock_base_le fun v hv =>
      ⟨hS v hv, hS v hv⟩
  apply Runs.bind ((ha w4 hl14).ends .forward)
  intro s1 w5 hl5 hs1
  apply Runs.bind (Runs.weaken (hmove hl5.after hs1 hgk.start))
  intro starting w6 hl6 hstarting
  have hl16 := hl14.trans (hl5.trans hl6)
  apply Runs.bind ((ha w6 hl16).ends .backward)
  intro s2 w7 hl7 hs2
  apply Runs.bind (Runs.weaken (hmove hl7.after hs2 hgk.accept))
  intro accepting w8 hl8 haccepting
  have hl18 := hl16.trans (hl7.trans hl8)
  apply Runs.bind (ha w8 hl18).edges
  intro r w9 hl9 hr
  apply Runs.lift_bind (transitions_eq hk)
  apply Runs.bind (Runs.weaken (moveEdges_yields hl9.after hr hk hk hk (edgeBlocks_apart hk)
    (edgeBlocks_ends hk) hgk.toBounded hgk.source hgk.target))
  intro edges w10 hl10 hedges
  have hl68 := hl7.trans (hl8.trans (hl9.trans hl10))
  have hb10 := hb4.later (hl5.trans (hl6.trans hl68))
  rw [← hwidth] at hstarting haccepting
  refine Runs.pure hl10.after ⟨hcount, hflag, ⟨⟨hb10.home, hb10.states,
    ⟨hstarting.1, hstarting.2.later hl68⟩,
    ⟨haccepting.1, haccepting.2.later (hl9.trans hl10)⟩, ?_⟩, hb10.few⟩⟩
  change edges.domains = edgeBlocks b.width ∧ _
  rw [hwidth]
  exact hedges

theorem ofMatrix_yields {a : MatrixNfa} (hw : w.current.WellFormed) (h : a.Shows w.current g)
    (hg : Contained g a.stateCount) :
    Yields w (ofAutomaton (.matrix a)) fun b m =>
      b.stateCount = a.stateCount ∧ b.determinism = .unknown ∧ b.Shows m g :=
  ofAutomaton_runs hw hg h.few fun _ hl => Automaton.answers_matrix (h.later hl) hg hl.after

end SymbolicNfa

end SymbolicAutomata
