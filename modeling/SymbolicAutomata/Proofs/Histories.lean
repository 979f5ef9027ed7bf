import SymbolicAutomata.Proofs.Decisions
import SymbolicAutomata.Proofs.Determinism
import SymbolicAutomata.Proofs.Operations
/-!
# Histories of automata

A client makes automata of one manager from those it has, in any order, and asks about their
determinism in between. An automaton that has been made stays as it is, so it can be used again. As
long as the automata are well-formed, the flag of each of them says the truth.
-/
namespace SymbolicAutomata

open Manager Bdd

/-- An operation that makes an automaton, with its operands and arguments. -/
inductive Construction
  | ofCount (n : Nat)
  | universal
  | epsilon
  | ofSymbols (on : SymbolSet)
  | ofAutomaton (a : Automaton)
  | addState (a : SymbolicNfa) (accepting starting : Bool)
  | increase (a : SymbolicNfa) (n : Nat) (accepting starting : Bool)
  | addEdge (a : SymbolicNfa) (p : Nat) (on : SymbolSet) (q : Nat)
  | addEdgeSets (a : SymbolicNfa) (s : ValueSet) (on : SymbolSet) (t : ValueSet)
  | addTransitions (a : SymbolicNfa) (r : Relation)
  | withStartingAccepting (a : SymbolicNfa) (starting accepting : ValueSet)
  | project (a : SymbolicNfa) (bits : Domain)
  | rename (a : SymbolicNfa) (names : Renaming)
  | filter (a : SymbolicNfa) (keep : ValueSet)
  | filterReachable (a : SymbolicNfa)
  | filterProductive (a : SymbolicNfa)
  | filterLive (a : SymbolicNfa)
  | star (a : SymbolicNfa)
  | concat (a b : SymbolicNfa)
  | reverse (a : SymbolicNfa)
  | negate (a : SymbolicNfa)
  | combine (a b : SymbolicNfa) (f : Connective)
  | minimize (a : SymbolicNfa)
  | determinize (a : SymbolicNfa)
  /-- The question whether it is deterministic, which leaves the answer in the flag. -/
  | classify (a : SymbolicNfa)

namespace Construction

def operands : Construction → List SymbolicNfa
  | ofCount _ | universal | epsilon | ofSymbols _ | ofAutomaton _ => []
  | addState a _ _ | increase a _ _ _ | addEdge a _ _ _ | addEdgeSets a _ _ _ | addTransitions a _
  | withStartingAccepting a _ _ | project a _ | rename a _ | filter a _ | filterReachable a
  | filterProductive a | filterLive a | star a | reverse a | negate a | minimize a
  | determinize a | classify a => [a]
  | concat a b | combine a b _ => [a, b]

/-- The sets, relations and other automata that come with the operation belong to the manager. -/
def Proper (m : Manager) : Construction → Prop
  | ofSymbols on => on.Belongs m
  | ofAutomaton a => a.Belongs m
  | addEdge _ _ on _ => on.Belongs m
  | addEdgeSets _ s on t => s.Belongs m ∧ on.Belongs m ∧ t.Belongs m
  | addTransitions _ r => r.Belongs m
  | withStartingAccepting _ s t => s.Belongs m ∧ t.Belongs m
  | filter _ s => s.Belongs m
  | _ => True

def run : Construction → BddM SymbolicNfa
  | ofCount n => SymbolicNfa.ofCount n
  | universal => SymbolicNfa.universal
  | epsilon => SymbolicNfa.epsilon
  | ofSymbols on => SymbolicNfa.ofSymbols on
  | ofAutomaton a => SymbolicNfa.ofAutomaton a
  | addState a accepting starting => do return (← a.addState accepting starting).2
  | increase a n accepting starting => a.increase n accepting starting
  | addEdge a p on q => a.addEdge p on q
  | addEdgeSets a s on t => a.addEdgeSets s on t
  | addTransitions a r => a.addTransitions r
  | withStartingAccepting a s t => a.withStartingAccepting s t
  | project a bits => a.project bits
  | rename a names => a.rename names
  | filter a s => a.filter s
  | filterReachable a => a.filterReachable
  | filterProductive a => a.filterProductive
  | filterLive a => a.filterLive
  | star a => a.star
  | concat a b => a.concat b
  | reverse a => a.reverse
  | negate a => a.negate
  | combine a b f => a.combine b f
  | minimize a => a.minimize
  | determinize a => a.determinize
  | classify a => a.classify

end Construction

namespace SymbolicNfa

variable {w : Workspace} {m : Manager} {a b : SymbolicNfa}

/-- The states are `0, …, n - 1`, the starting and the accepting states are among them, and every
edge joins two of them. -/
def Formed (a : SymbolicNfa) (m : Manager) : Prop := ∃ g, a.Shows m g ∧ Contained g a.stateCount

theorem WellFormed.belongs (h : a.WellFormed m) : a.Belongs m := by
  obtain ⟨g, hg, -⟩ := h.shown
  exact hg.toOver.belongs

theorem operand_keeps {f : Connective} (hw : w.current.WellFormed) (ha : a.WellFormed w.current) :
    Keeps w (a.operand f) fun b m => b.Belongs m := by
  obtain ⟨g, h, hg⟩ := ha.shown
  apply (operand_runs hw h hg ha.honest).keeps.imp
  rintro b w1 - ⟨-, g', hb, -, -⟩
  exact hb.toOver.belongs

theorem combine_keeps {f : Connective} (hw : w.current.WellFormed) (ha : a.WellFormed w.current)
    (hb : b.WellFormed w.current) : Keeps w (a.combine b f) fun c m => c.Fresh m := by
  rw [combine_eq]
  apply Runs.check_keeps hw
  intro _
  apply Runs.bind (operand_keeps hw ha)
  intro a' w1 hl1 ha'
  apply Runs.bind (operand_keeps hl1.after (hb.later hl1))
  intro b' w2 hl2 hb'
  exact pairs_keeps hl2.after (ha'.later hl2) hb'

theorem universal_wellFormed (hw : w.current.WellFormed) :
    Yields w universal fun b m => b.WellFormed m := by
  apply (universal_yields hw).imp
  rintro b w1 - ⟨hcount, hflag, hb⟩
  exact ⟨⟨everything, hb, hcount ▸ everything_contained⟩, honest_of_unknown hflag⟩

section Flags

variable (hw : w.current.WellFormed) (ha : a.WellFormed w.current)

include hw ha

theorem classify_keeps : Keeps w a.classify fun b m => b.WellFormed m := by
  obtain ⟨g, h, hg⟩ := ha.shown
  apply (h.classify_yields hw hg.toBounded ha.honest).keeps.imp
  rintro _ w1 hl1 ⟨f, rfl, -, hhonest⟩
  exact ⟨⟨g, (h.later hl1).flagged f, hg⟩, hhonest⟩

/-- Other accepting states do not change the answer. -/
theorem negate_keeps : Keeps w a.negate fun b m => b.Honest m := by
  apply Runs.bind (classify_keeps hw ha)
  intro b w1 hl1 hb
  split_ifs with hcomplete
  · apply Runs.bind (ValueSet.sdiff_keeps hl1.after hb.belongs.states hb.belongs.accepting)
    intro accepting w2 hl2 _
    have hhonest := (hb.later hl2).honest
    exact Runs.pure hl2.after (hhonest.of_iff rfl (isDeterministic_congr rfl rfl rfl))
  · apply Runs.bind (universal_wellFormed hl1.after).keeps
    intro u w2 hl2 hu
    apply (combine_keeps hl2.after hu (hb.later hl2)).imp
    exact fun c w3 _ hc => honest_of_unknown hc.unknown

theorem minimize_keeps : Keeps w a.minimize fun b m => b.Honest m := by
  obtain ⟨g, h, hg⟩ := ha.shown
  rcases Nat.eq_zero_or_pos a.stateCount with hzero | hpos
  · unfold minimize
    rw [if_pos hzero]
    exact Runs.pure hw ha.honest
  · exact (minimize_merges hw ha h hg hpos).keeps.imp fun b w1 _ hb => hb.1.honest

theorem determinize_keeps : Keeps w a.determinize fun b m => b.Honest m := by
  obtain ⟨g, h, hg⟩ := ha.shown
  apply (determinize_shows hw h hg ha.honest).keeps.imp
  rintro b w1 hl1 ⟨g', hb, hg', -, ⟨-, hdet, hflag⟩ | ⟨-, -, hflag⟩⟩
  · unfold Honest
    rw [hflag]
    exact (hb.isDeterministic_iff hl1.after.canonical hg'.toBounded).2 hdet
  · exact honest_of_unknown hflag

end Flags

end SymbolicNfa

namespace Construction

variable {w : Workspace} {c : Construction}

/-- An operation on well-formed automata returns one whose flag is honest, or fails. -/
theorem run_keeps (hw : w.current.WellFormed)
    (hoperands : ∀ a ∈ c.operands, a.WellFormed w.current) (hproper : c.Proper w.current) :
    Keeps w c.run fun b m => b.Honest m := by
  have hfresh : ∀ {x : BddM SymbolicNfa}, Keeps w x (fun b m => b.Fresh m) →
      Keeps w x fun b m => b.Honest m := fun hx =>
    hx.imp fun b w1 _ hb => SymbolicNfa.honest_of_unknown hb.unknown
  have hbelongs : ∀ a ∈ c.operands, a.Belongs w.current := fun a ha => (hoperands a ha).belongs
  cases c with
  | ofCount n => exact hfresh (SymbolicNfa.ofCount_keeps hw)
  | universal => exact hfresh (SymbolicNfa.universal_keeps hw)
  | epsilon => exact hfresh (SymbolicNfa.epsilon_keeps hw)
  | ofSymbols on => exact hfresh (SymbolicNfa.ofSymbols_keeps hw hproper)
  | ofAutomaton a => exact hfresh (SymbolicNfa.ofAutomaton_keeps hw hproper)
  | addState a accepting starting =>
    apply Runs.bind (SymbolicNfa.addState_keeps hw (hbelongs a (.head _)))
    intro r w1 hl1 hr
    exact Runs.pure hl1.after (SymbolicNfa.honest_of_unknown hr.unknown)
  | increase a n accepting starting =>
    have ha := hoperands a (.head _)
    apply (SymbolicNfa.increase_keeps hw ha.belongs).imp
    rintro b w1 hl1 (⟨-, rfl⟩ | hb)
    · exact (ha.later hl1).honest
    · exact SymbolicNfa.honest_of_unknown hb.unknown
  | addEdge a p on q =>
    exact hfresh (SymbolicNfa.addEdge_keeps hw (hbelongs a (.head _)) hproper)
  | addEdgeSets a s on t =>
    obtain ⟨hs, hon, ht⟩ := hproper
    exact hfresh (SymbolicNfa.addEdgeSets_keeps hw (hbelongs a (.head _)) hs hon ht)
  | addTransitions a r =>
    exact hfresh (SymbolicNfa.addTransitions_keeps hw (hbelongs a (.head _)) hproper)
  | withStartingAccepting a s t =>
    obtain ⟨hs, ht⟩ := hproper
    have ha := hbelongs a (.head _)
    exact hfresh (SymbolicNfa.withStartingAccepting_keeps hw ha hs ht)
  | project a bits => exact hfresh (SymbolicNfa.project_keeps hw (hbelongs a (.head _)))
  | rename a names => exact hfresh (SymbolicNfa.rename_keeps hw (hbelongs a (.head _)))
  | filter a s =>
    exact hfresh (SymbolicNfa.filter_keeps hw (hbelongs a (.head _)) hproper)
  | filterReachable a =>
    exact hfresh (SymbolicNfa.filterReachable_keeps hw (hbelongs a (.head _)))
  | filterProductive a =>
    exact hfresh (SymbolicNfa.filterProductive_keeps hw (hbelongs a (.head _)))
  | filterLive a =>
    exact hfresh (SymbolicNfa.filterLive_keeps hw (hbelongs a (.head _)))
  | star a => exact hfresh (SymbolicNfa.star_keeps hw (hbelongs a (.head _)))
  | concat a b =>
    have ha := hbelongs a (.head _)
    have hb := hbelongs b (.tail _ (.head _))
    exact hfresh (SymbolicNfa.concat_keeps hw ha hb)
  | reverse a => exact hfresh (SymbolicNfa.reverse_keeps hw (hbelongs a (.head _)))
  | negate a => exact SymbolicNfa.negate_keeps hw (hoperands a (.head _))
  | combine a b f =>
    have ha := hoperands a (.head _)
    have hb := hoperands b (.tail _ (.head _))
    exact hfresh (SymbolicNfa.combine_keeps hw ha hb)
  | minimize a => exact SymbolicNfa.minimize_keeps hw (hoperands a (.head _))
  | determinize a => exact SymbolicNfa.determinize_keeps hw (hoperands a (.head _))
  | classify a =>
    apply (SymbolicNfa.classify_keeps hw (hoperands a (.head _))).imp
    exact fun b w1 _ hb => hb.honest

end Construction

/-- A manager at work, and the automata made so far, last first. -/
structure History where
  workspace : Workspace
  automata : List SymbolicNfa

namespace History

variable {h h' : History}

inductive Begins : History → Prop
  | new {id storageBits cacheBits : Nat} {m : Manager} (parked : List Manager)
      (made : Manager.new id storageBits cacheBits = .ok m) : Begins ⟨⟨m, parked⟩, []⟩

/-- An operation on automata that were made before, or other work with the manager. An operation
that fails makes no automaton. -/
inductive Step : History → History → Prop
  | returns {c : Construction} {w w' : Workspace} {as : List SymbolicNfa} {b : SymbolicNfa}
      (known : ∀ a ∈ c.operands, a ∈ as) (proper : c.Proper w.current)
      (run : c.run w = .ok b w') (formed : b.Formed w'.current) : Step ⟨w, as⟩ ⟨w', b :: as⟩
  | fails {c : Construction} {w w' : Workspace} {as : List SymbolicNfa} {e : Failure}
      (known : ∀ a ∈ c.operands, a ∈ as) (proper : c.Proper w.current)
      (run : c.run w = .error e w') : Step ⟨w, as⟩ ⟨w', as⟩
  | works {w w' : Workspace} {as : List SymbolicNfa} (leads : w.Leads w') : Step ⟨w, as⟩ ⟨w', as⟩

abbrev Later : History → History → Prop := Relation.ReflTransGen Step

def Reachable (h : History) : Prop := ∃ h₀, Begins h₀ ∧ Later h₀ h

structure Good (h : History) : Prop where
  wellFormed : h.workspace.current.WellFormed
  automata : ∀ a ∈ h.automata, a.WellFormed h.workspace.current

theorem Begins.good (hb : Begins h) : h.Good := by
  cases hb with
  | new parked made => exact ⟨wellFormed_new made, by simp⟩

theorem Good.step (hg : h.Good) (hst : Step h h') : h'.Good := by
  cases hst with
  | @returns c w w' as b known proper run formed =>
    have hr := Construction.run_keeps hg.wellFormed (fun a ha => hg.automata a (known a ha)) proper
    obtain ⟨hl, hhonest⟩ := hr.of_ok run
    refine ⟨hl.after, ?_⟩
    rw [List.forall_mem_cons]
    exact ⟨⟨formed, hhonest⟩, fun a ha => (hg.automata a ha).later hl⟩
  | @fails c w w' as e known proper run =>
    have hr := Construction.run_keeps hg.wellFormed (fun a ha => hg.automata a (known a ha)) proper
    simp only [Keeps, Runs, run] at hr
    exact ⟨hr.2.after, fun a ha => (hg.automata a ha).later hr.2⟩
  | works leads => exact ⟨leads.after, fun a ha => (hg.automata a ha).later leads⟩

theorem Reachable.good (hr : h.Reachable) : h.Good := by
  obtain ⟨h₀, hb, hl⟩ := hr
  induction hl with
  | refl => exact hb.good
  | tail _ hst ih => exact ih.step hst

/-- Whatever has been done, the flag of every automaton says the truth, and so does the answer to
the question. -/
theorem honest_of_reachable (hr : h.Reachable) {a : SymbolicNfa} (ha : a ∈ h.automata) :
    (a.determinism = .complete → a.IsDeterministic h.workspace.current) ∧
    (a.determinism = .other → ¬ a.IsDeterministic h.workspace.current) ∧
    ∃ r w', a.isCompleteDeterministic h.workspace = .ok r w' ∧ h.workspace.Leads w' ∧
      (r = true ↔ a.IsDeterministic h.workspace.current) := by
  have hg := hr.good
  have hwell := hg.automata a ha
  refine ⟨hwell.honest.of_complete, hwell.honest.of_other, ?_⟩
  exact yields_iff.1 (hwell.isCompleteDeterministic_yields hg.wellFormed)

/-- The automaton of all words, once asked, knows that it is deterministic. -/
theorem honest_of_reachable_universal : ∃ (h : History) (a : SymbolicNfa) (w : Workspace),
    h.Reachable ∧ a ∈ h.automata ∧ a.determinism = .complete ∧
      a.IsDeterministic h.workspace.current ∧
      a.isCompleteDeterministic h.workspace = .ok true w := by
  obtain ⟨m, hm⟩ : ∃ m, Manager.new 0 1 1 = .ok m := ⟨_, rfl⟩
  obtain ⟨a, w1, ha, hl1, hcount, hunknown, hshows⟩ := yields_iff.1
    (SymbolicNfa.universal_yields (w := ⟨m, []⟩) (wellFormed_new hm))
  have hcontained : Contained SymbolicNfa.everything a.stateCount :=
    hcount ▸ SymbolicNfa.everything_contained
  obtain ⟨b, w2, hb, hl2, f, rfl, hf, -⟩ := yields_iff.1 (hshows.classify_yields hl1.after
    hcontained.toBounded (SymbolicNfa.honest_of_unknown hunknown))
  have hshows' := (hshows.later hl2).flagged f
  have hdet := (hshows'.isDeterministic_iff hl2.after.canonical hcontained.toBounded).2
    (hcount ▸ everything_deterministic)
  have hmade : Step ⟨⟨m, []⟩, []⟩ ⟨w1, [a]⟩ :=
    .returns (c := .universal) nofun trivial ha ⟨_, hshows, hcontained⟩
  have hasked : Step ⟨w1, [a]⟩ ⟨w2, [{ a with determinism := f }, a]⟩ :=
    .returns (c := .classify a) (fun _ h => h) trivial hb ⟨_, hshows', hcontained⟩
  have hreachable : Reachable ⟨w2, [{ a with determinism := f }, a]⟩ :=
    ⟨_, .new [] hm, .tail (.single hmade) hasked⟩
  obtain ⟨-, hother, r, w3, hrun, -, hr⟩ := honest_of_reachable hreachable (.head _)
  obtain rfl := hr.2 hdet
  refine ⟨_, _, w3, hreachable, .head _, ?_, hdet, hrun⟩
  cases f with
  | unknown => exact absurd rfl hf
  | complete => rfl
  | other => exact absurd hdet (hother rfl)

end History

end SymbolicAutomata
