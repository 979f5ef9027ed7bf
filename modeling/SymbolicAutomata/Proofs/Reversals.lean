import SymbolicAutomata.Proofs.Landings
import SymbolicAutomata.Proofs.Questions
import SymbolicAutomata.Proofs.RationalOperations
/-!
# Reversal and the reversed view

The reversed automaton accepts the words read from the last letter to the first. It has other
diagrams than the automaton, and the reversed view has none of its own, but they are asked about the
same edges: every question is answered with the same value, or is refused by both.
-/
namespace SymbolicAutomata

open Manager Bdd Layout

variable {w w' : Workspace} {m : Manager} {g : NFA Nat Nat} {n : Nat}

@[simp]
theorem Word.codes_reverse (u : Word) : Word.codes u.reverse = u.codes.reverse := List.map_reverse

/-- The two computations return the same value, whichever of them is run first, or neither of them
returns one. -/
structure Bdd.Concur {α : Type} (w : Workspace) (x y : BddM α) : Prop where
  returns : (∃ v w', x w = .ok v w') ↔ ∃ v w', y w = .ok v w'
  left : ∀ v w', x w = .ok v w' → ∃ w'', y w' = .ok v w''
  right : ∀ v w', y w = .ok v w' → ∃ w'', x w' = .ok v w''

/-- What returns a value under the same condition, with a property that one value has. -/
theorem Bdd.concur_of_settled {α : Type} {x y : BddM α} {C : Prop} {Q : α → Manager → Prop}
    (hw : w.current.WellFormed) (hx : ∀ w', w.Leads w' → YieldsIff C w' x Q)
    (hy : ∀ w', w.Leads w' → YieldsIff C w' y Q)
    (hlater : ∀ v (w' w'' : Workspace), w'.Leads w'' → Q v w'.current → Q v w''.current)
    (hunique : ∀ u v m, m.Canonical → Q u m → Q v m → u = v) : Concur w x y := by
  have hsame : ∀ {x y : BddM α}, (∀ w', w.Leads w' → YieldsIff C w' x Q) →
      (∀ w', w.Leads w' → YieldsIff C w' y Q) →
      ∀ v w', x w = .ok v w' → ∃ w'', y w' = .ok v w'' := by
    intro x y hx hy v w' hrun
    obtain ⟨hl, hC, hv⟩ := Runs.of_ok (hx w (.refl hw)) hrun
    obtain ⟨u, w'', hrun', hl', hu⟩ := yields_iff.1 ((hy w' hl).yields hC)
    obtain rfl := hunique u v _ hl'.after.canonical hu (hlater v w' w'' hl' hv)
    exact ⟨w'', hrun'⟩
  exact ⟨(hx w (.refl hw)).exists_ok_iff.trans (hy w (.refl hw)).exists_ok_iff.symm,
    hsame hx hy, hsame hy hx⟩

namespace Question

variable {q : Question}

/-- The question can be put to a view: it names sets of numbers and of letters, over any domains,
and does not ask for the edge relation. -/
def Posed (m : Manager) : Question → Prop
  | labels s t => (∃ P, s.Shows m P) ∧ ∃ P, t.Shows m P
  | step _ s on | reach _ s on => (∃ P, s.Shows m P) ∧ ∃ L, on.Shows m L
  | edges => False
  | _ => True

/-- For the rest of the session the question is answered exactly if `C` holds, by whatever is
symbolic and shows the states and edges of `g`, and the answer says `M`. -/
def Settled (q : Question) (w : Workspace) (g : NFA Nat Nat) (n : Nat) (C : Prop) (M : Meaning) :
    Prop :=
  ∀ (a : Automaton) (w' : Workspace), w.Leads w' → a.Shows w'.current g → Contained g a.size →
    a.Symbolic → a.size = n → YieldsIff C w' (q.ask a) fun x m => x.Says m M

theorem Posed.settled (hq : q.Posed w.current) (g : NFA Nat Nat) (hn : n < 2 ^ 32) :
    ∃ (C : Prop) (M : Meaning), q.Settled w g n C M := by
  have hk : bitsNeeded n ≤ 32 := bitsNeeded_le_iff.2 (Nat.le_of_lt hn)
  have hplain : (∀ m a, q.Fair m a) → (∀ m, q.meaning m ⟨n, g⟩ = q.meaning w.current ⟨n, g⟩) →
      q ≠ edges → ∃ (C : Prop) (M : Meaning), q.Settled w g n C M := by
    intro hfair hmeaning hedges
    refine ⟨True, q.meaning w.current ⟨n, g⟩, fun a w' hl h hg _ hsize => ?_⟩
    subst hsize
    rw [← hmeaning w'.current]
    exact (ask_shown_yields h hg hl.after (hfair _ _) hedges).yieldsIff trivial
  cases q with
  | edge i j =>
    refine ⟨i < n ∧ j < n, .symbols (j ∈ g.step i ·), fun a w' hl h _ ha hsize => ?_⟩
    subst hsize
    exact (h.edge_yieldsIff ha hl.after).map fun on w1 _ hon => .symbols hon
  | labels s t =>
    obtain ⟨⟨P, hs⟩, Q, ht⟩ := hq
    obtain ⟨C, P', hC⟩ := hs.exists_lands hk
    obtain ⟨D, Q', hD⟩ := ht.exists_lands hk
    refine ⟨C ∧ D, .symbols fun c => ∃ p q, P' p ∧ Q' q ∧ q ∈ g.step p c,
      fun a w' hl h hg _ hsize => ?_⟩
    subst hsize
    exact (h.labels_yieldsIff hl.after hg (hC.later hl) (hD.later hl)).map
      fun on w1 _ hon => .symbols hon
  | edges => exact hq.elim
  | step dir s on =>
    obtain ⟨⟨P, hs⟩, L, hon⟩ := hq
    obtain ⟨C, P', hC⟩ := hs.exists_lands hk
    refine ⟨C, .set (sourceBlock (bitsNeeded n)) fun q => ∃ p, P' p ∧ Hop g L dir p q,
      fun a w' hl h hg _ hsize => ?_⟩
    subst hsize
    exact (h.step_yieldsIff hl.after hg (hC.later hl) (hl.denotes hon.denotes)).map
      fun u w1 _ hu => .set hu.1 hu.2
  | reach dir s on =>
    obtain ⟨⟨P, hs⟩, L, hon⟩ := hq
    obtain ⟨C, P', hC⟩ := hs.exists_lands hk
    refine ⟨C, .set (sourceBlock (bitsNeeded n)) (ValueSet.Closure (Hop g L dir) P'),
      fun a w' hl h hg _ hsize => ?_⟩
    subst hsize
    exact (h.reach_yieldsIff hl.after hg (hC.later hl) (hl.denotes hon.denotes)).map
      fun u w1 _ hu => .set hu.1 hu.2
  | count | states | ends | reachable | productive | live =>
    exact hplain (fun _ _ => trivial) (fun _ => rfl) nofun

/-- Two symbolic automata with the same states and edges answer the same. -/
theorem Posed.concur {a b : Automaton} (hq : q.Posed w.current) (hw : w.current.WellFormed)
    (ha : a.Shows w.current g) (hb : b.Shows w.current g) (hg : Contained g a.size)
    (hasym : a.Symbolic) (hbsym : b.Symbolic) (hsize : a.size = b.size) :
    Concur w (q.ask a) (q.ask b) := by
  obtain ⟨C, M, hsettled⟩ := hq.settled g ha.few
  refine concur_of_settled hw (fun w' hl => hsettled a w' hl (ha.later hl) hg hasym rfl)
    (fun w' hl => hsettled b w' hl (hb.later hl) (hsize ▸ hg) hbsym hsize.symm) ?_ ?_
  · exact fun x w' w'' hl hx => hx.later hl
  · exact fun x y m hm hx hy => hx.unique hy hm

end Question

/-- An automaton that is known by its edge relation alone is asked every question with the same
result as the symbolic automaton that it stands for. -/
theorem Question.relational_concur {q : Question} {a : SymbolicNfa} (hw : w.current.WellFormed)
    (h : a.WellFormed w.current) (hq : q.Fair w.current (.symbolic a)) :
    Concur w (q.ask (.relational a)) (q.ask (.symbolic a)) := by
  obtain ⟨g, hg, hcontained⟩ := h.shown
  have hq' : q.Fair w.current (.relational a) := hq.of_size rfl
  apply concur_of_settled (C := True)
    (Q := fun x m => x.Says m (q.meaning w.current ⟨a.stateCount, g⟩)) hw
  · intro w' hl
    have hg' := hg.later hl
    rw [← hq.meaning_later hl]
    exact (ask_answered_yields (.relational hg') hcontained hl.after
      (Automaton.answers_relational hg' hl.after) (hq'.later hl)).yieldsIff trivial
  · intro w' hl
    have hg' := hg.later hl
    rw [← hq.meaning_later hl]
    exact (ask_answered_yields (.symbolic hg') hcontained hl.after
      (Automaton.answers_symbolic hg' hl.after) (hq.later hl)).yieldsIff trivial
  · exact fun x w' w'' hl hx => hx.later hl
  · exact fun x y m hm hx hy => hx.unique hy hm

/-- One matrix of labels is made of any two automata with the same states and edges. -/
theorem MatrixNfa.ofAutomaton_concur {a b : Automaton} (hw : w.current.WellFormed)
    (ha : a.Shows w.current g) (hb : b.Shows w.current g) (hg : Contained g a.size)
    (hsize : a.size = b.size) : Concur w (ofAutomaton a) (ofAutomaton b) := by
  refine concur_of_settled (C := True) hw
    (fun w' hl => (ofAutomaton_yields hl.after (ha.later hl) hg).yieldsIff trivial)
    (fun w' hl => ?_) ?_ ?_
  · rw [hsize] at hg ⊢
    exact (ofAutomaton_yields hl.after (hb.later hl) hg).yieldsIff trivial
  · exact fun c w' w'' hl hc => ⟨hc.1, hc.2.1, hc.2.2.later hl⟩
  · exact fun c d m hm hc hd =>
      hc.2.2.unique hd.2.2 hc.2.1 hd.2.1 (hc.1.trans hd.1.symm) hm

namespace SymbolicNfa

variable {a : SymbolicNfa}

/-- A well-formed automaton reversed accepts the reversed words. The reversed view of the automaton
and the reversed automaton are asked any question with the same result, and are converted to the
same matrix of labels. -/
theorem reverse_of_wellFormed (hw : w.current.WellFormed) (h : a.WellFormed w.current) :
    ∃ b w₁, a.reverse w = .ok b w₁ ∧ w.Leads w₁ ∧ b.WellFormed w₁.current ∧
      (∀ u : Word, b.Accepts w₁.current u ↔ a.Accepts w.current u.reverse) ∧
      ∀ w₂, w₁.Leads w₂ →
        (∀ q : Question, q.Posed w₂.current →
          Concur w₂ (q.ask (.reversed (.symbolic a))) (q.ask (.symbolic b))) ∧
        (∀ q : Question, q.Fair w₂.current (.symbolic a) → q ≠ .edges →
          ∃ x w₃, q.ask (.reversed (.symbolic a)) w₂ = .ok x w₃) ∧
        Concur w₂ (MatrixNfa.ofAutomaton (.reversed (.symbolic a)))
          (MatrixNfa.ofAutomaton (.symbolic b)) ∧
        ∃ c w₃, MatrixNfa.ofAutomaton (.reversed (.symbolic a)) w₂ = .ok c w₃ := by
  obtain ⟨g, hg, hcontained⟩ := h.shown
  obtain ⟨b, w₁, hb, hl, hcount, hflag, hshows⟩ := yields_iff.1 (reverse_yields hw hg)
  have hturned : Contained g.reverse b.stateCount := hcount ▸ hcontained.reverse
  refine ⟨b, w₁, hb, hl, ⟨⟨_, hshows, hturned⟩, honest_of_unknown hflag⟩, fun u => ?_,
    fun w₂ hl₂ => ?_⟩
  · rw [hshows.accepts_iff hl.after.canonical hturned.toBounded, NFA.mem_accepts_reverse,
      hg.accepts_iff hw.canonical hcontained.toBounded, Word.codes_reverse]
  · have hview : Automaton.Shows w₂.current (.reversed (.symbolic a)) g.reverse :=
      .reversed (.symbolic (hg.later (hl.trans hl₂)))
    have hsymbolic : Automaton.Shows w₂.current (.symbolic b) g.reverse :=
      .symbolic (hshows.later hl₂)
    have hsize : (Automaton.reversed (.symbolic a)).size = (Automaton.symbolic b).size :=
      hcount.symm
    refine ⟨fun q hq => ?_, fun q hq hedges => ?_, ?_, ?_⟩
    · exact hq.concur hl₂.after hview hsymbolic hcontained.reverse trivial trivial hsize
    · obtain ⟨x, w₃, hx, -⟩ := yields_iff.1 (Question.ask_shown_yields hview hcontained.reverse
        hl₂.after (hq.of_size rfl) hedges)
      exact ⟨x, w₃, hx⟩
    · exact MatrixNfa.ofAutomaton_concur hl₂.after hview hsymbolic hcontained.reverse hsize
    · obtain ⟨c, w₃, hc, -⟩ := yields_iff.1
        (MatrixNfa.ofAutomaton_yields hl₂.after hview hcontained.reverse)
      exact ⟨c, w₃, hc⟩

/-- The automaton of all one-letter words has no edge from its second state to its first one, and
its reversed view has one on all letters. -/
theorem reverse_of_wellFormed_ofSymbols : ∃ m a w b w', Manager.new 0 1 1 = .ok m ∧
    ofSymbols (.universal 0) ⟨m, []⟩ = .ok a w ∧ a.reverse w = .ok b w' ∧
    b.Accepts w'.current [fun _ => true] ∧
    (∃ on w₁ w₂, (Question.edge 1 0).ask (.reversed (.symbolic a)) w' = .ok (.symbols on) w₁ ∧
      (Question.edge 1 0).ask (.symbolic b) w₁ = .ok (.symbols on) w₂ ∧ on.isEmpty = false) ∧
    ∃ c w₁ w₂, MatrixNfa.ofAutomaton (.reversed (.symbolic a)) w' = .ok c w₁ ∧
      MatrixNfa.ofAutomaton (.symbolic b) w₁ = .ok c w₂ := by
  obtain ⟨m, hm⟩ : ∃ m, Manager.new 0 1 1 = .ok m := ⟨_, rfl⟩
  obtain ⟨a, w, ha, hl, hcount, hshows, hcontained, hwell⟩ := ofSymbols_wellFormed hm
  obtain ⟨b, w', hb, hl', -, haccepts, hsame⟩ := reverse_of_wellFormed hl.after hwell
  obtain ⟨hconcur, -, hmatrix, c, w₂, hc⟩ := hsame w' (.refl hl'.after)
  have hletter : a.Accepts w.current [fun _ => true] := by
    rw [hshows.accepts_iff hl.after.canonical hcontained.toBounded]
    exact oneLetter_accepts_iff.2 ⟨_, rfl, trivial⟩
  have hfair : (Question.edge 1 0).Fair w'.current (.reversed (.symbolic a)) := by
    change 1 < a.stateCount ∧ 0 < a.stateCount
    omega
  have hview : Automaton.Shows w'.current (.reversed (.symbolic a)) _ :=
    .reversed (.symbolic (hshows.later hl'))
  obtain ⟨x, w₁, hx, hl₁, hsays⟩ := yields_iff.1
    (Question.ask_shown_yields hview hcontained.reverse hl'.after hfair nofun)
  obtain ⟨on, hon⟩ : ∃ on : SymbolSet, x = .symbols on ∧
      on.Shows w₁.current fun c => 1 ∈ (oneLetter fun _ => True).step 0 c := by
    cases hsays with
    | @symbols on L hshown => exact ⟨on, rfl, hshown⟩
  obtain ⟨rfl, hon⟩ := hon
  have hnonempty : on.isEmpty = false := Bool.eq_false_of_not_eq_true fun hempty =>
    (hon.isEmpty_iff hl₁.after.canonical).1 hempty 0 letterCount_pos
      (mem_oneLetter_step.2 ⟨rfl, trivial, rfl⟩)
  obtain ⟨w₃, hx'⟩ := (hconcur (.edge 1 0) trivial).left _ w₁ hx
  obtain ⟨w₄, hc'⟩ := hmatrix.left c w₂ hc
  exact ⟨m, a, w, b, w', hm, ha, hb, (haccepts _).2 hletter, ⟨on, w₁, w₃, hx, hx', hnonempty⟩,
    c, w₂, w₄, hc, hc'⟩

end SymbolicNfa

end SymbolicAutomata
