import SymbolicAutomata.Conversion
import SymbolicAutomata.Product
import SymbolicAutomata.RationalOperations
import SymbolicAutomata.Proofs.Belonging
/-!
# Operations on automata

An operation on automata of a manager returns one of the manager or fails, whether or not its
operands are well-formed. After most operations nothing is known of the determinism of the result.
-/
namespace SymbolicAutomata

open Manager Bdd

namespace SymbolicNfa

variable {w w' : Workspace} {m : Manager} {a b : SymbolicNfa} {n p q : Nat} {s t : ValueSet}
  {on : SymbolSet} {r : Relation} {accepting starting : Bool} {dir : Direction}

structure Belongs (a : SymbolicNfa) (m : Manager) : Prop where
  home : a.manager = m.id
  states : a.states.Belongs m
  starting : a.starting.Belongs m
  accepting : a.accepting.Belongs m
  edges : a.edges.Belongs m

/-- An automaton of the manager whose flag says nothing. -/
structure Fresh (a : SymbolicNfa) (m : Manager) : Prop extends Belongs a m where
  unknown : a.determinism = .unknown

theorem Belongs.later (h : a.Belongs w.current) (hl : w.Leads w') : a.Belongs w'.current where
  home := h.home.trans hl.grows.id.symm
  states := h.states.later hl
  starting := h.starting.later hl
  accepting := h.accepting.later hl
  edges := h.edges.later hl

theorem Over.belongs {g : NFA Nat Nat} {k : Nat} (h : a.Over m k g) : a.Belongs m where
  home := h.home
  states := h.states.2.belongs
  starting := h.starting.2.belongs
  accepting := h.accepting.2.belongs
  edges := h.edges.2.belongs

theorem ofCount_keeps (hw : w.current.WellFormed) :
    Keeps w (ofCount n) fun b m => b.Fresh m := by
  apply Runs.lift_keeps hw
  intro d _
  apply Runs.bind (ValueSet.firstStates_keeps hw)
  intro states w1 hl1 hstates
  apply Runs.bind (ValueSet.empty_keeps hl1.after)
  intro noStates w2 hl2 hnone
  apply Runs.lift_keeps hl2.after
  intro ds _
  apply Runs.bind (Relation.ofFn_keeps hl2.after hl2.after.canonical.has_zero)
  intro edges w3 hl3 hedges
  have hnone := hnone.later hl3
  refine .ask_bind rfl (Runs.pure hl3.after ⟨⟨rfl, ?_, hnone, hnone, hedges⟩, rfl⟩)
  exact hstates.later (hl2.trans hl3)

theorem include_keeps {c : Bool} (hw : w.current.WellFormed) (hs : s.Belongs w.current)
    (ht : t.Belongs w.current) :
    Keeps w (if c then s.union t else pure s) fun r m => r.Belongs m := by
  split_ifs
  · exact ValueSet.union_keeps hw hs ht
  · exact Runs.pure hw hs

section Growth

variable (hw : w.current.WellFormed) (ha : a.Belongs w.current)

include hw ha

theorem resize_keeps : Keeps w (a.resize n) fun b m => b.Fresh m := by
  apply Runs.lift_keeps hw
  intro d _
  apply Runs.bind (ValueSet.withDomain_keeps hw ha.states)
  intro states w1 hl1 hstates
  have ha1 := ha.later hl1
  apply Runs.bind (ValueSet.withDomain_keeps hl1.after ha1.starting)
  intro starting w2 hl2 hstarting
  have ha2 := ha1.later hl2
  apply Runs.bind (ValueSet.withDomain_keeps hl2.after ha2.accepting)
  intro accepting w3 hl3 haccepting
  have ha3 := ha2.later hl3
  apply Runs.lift_keeps hl3.after
  intro ds _
  apply Runs.bind (Relation.withDomains_keeps hl3.after ha3.edges)
  intro edges w4 hl4 hedges
  refine Runs.pure hl4.after ⟨⟨(ha3.later hl4).home, ?_, ?_, haccepting.later hl4, hedges⟩, rfl⟩
  · exact hstates.later (hl2.trans (hl3.trans hl4))
  · exact hstarting.later (hl3.trans hl4)

theorem increase_keeps : Keeps w (a.increase n accepting starting) fun b m =>
    n ≤ a.stateCount ∧ b = a ∨ b.Fresh m := by
  unfold increase
  by_cases hn : n ≤ a.stateCount
  · rw [if_pos hn]
    exact Runs.pure hw (.inl ⟨hn, rfl⟩)
  rw [if_neg hn]
  apply Runs.branch (Q := fun (b : SymbolicNfa) m => b.Belongs m)
  · split_ifs
    · exact (resize_keeps hw ha).imp fun b w1 _ hb => hb.toBelongs
    · exact Runs.pure hw ha
  intro b w1 hl1 hb
  apply Runs.lift_keeps hl1.after
  intro d _
  apply Runs.bind (ValueSet.range_keeps hl1.after)
  intro added w2 hl2 hadded
  have hb2 := hb.later hl2
  apply Runs.bind (ValueSet.union_keeps hl2.after hb2.states hadded)
  intro states w3 hl3 hstates
  have hb3 := hb2.later hl3
  have hadded3 := hadded.later hl3
  apply Runs.branch (include_keeps hl3.after hb3.accepting hadded3)
  intro accepting w4 hl4 haccepting
  have hb4 := hb3.later hl4
  apply Runs.branch (include_keeps hl4.after hb4.starting (hadded3.later hl4))
  intro starting w5 hl5 hstarting
  have hb5 := hb4.later hl5
  refine Runs.pure hl5.after (.inr ⟨⟨hb5.home, ?_, hstarting, ?_, hb5.edges⟩, rfl⟩)
  · exact hstates.later (hl4.trans hl5)
  · exact haccepting.later hl5

theorem addState_keeps : Keeps w (a.addState accepting starting) fun r m => r.2.Fresh m := by
  apply Runs.lift_keeps hw
  intro k hk
  obtain ⟨-, rfl⟩ := fits_eq_ok_iff.1 hk
  apply Runs.bind (increase_keeps hw ha)
  intro b w1 hl1 hb
  rcases hb with ⟨hle, -⟩ | hb
  · omega
  · exact Runs.pure hl1.after hb

theorem addEdgeSets_keeps (hs : s.Belongs w.current) (hon : on.Belongs w.current)
    (ht : t.Belongs w.current) : Keeps w (a.addEdgeSets s on t) fun b m => b.Fresh m := by
  apply Runs.lift_keeps hw
  intro d _
  apply Runs.bind (ValueSet.moved_keeps hw hs)
  intro s' w1 hl1 hs'
  apply Runs.lift_keeps hl1.after
  intro e _
  apply Runs.bind (ValueSet.moved_keeps hl1.after (ht.later hl1))
  intro t' w2 hl2 ht'
  have hall : ∀ f ∈ [s'.fn, on.fn, t'.fn], w2.current.Has f := by
    simp only [List.forall_mem_cons]
    exact ⟨(hs'.later hl2).has, (hon.later (hl1.trans hl2)).has, ht'.has, by simp⟩
  apply Runs.bind (conjAll_keeps hl2.after hall)
  intro added w3 hl3 hadded
  have ha3 := ha.later (hl1.trans (hl2.trans hl3))
  apply Runs.bind (disj_keeps hl3.after ha3.edges.has hadded)
  intro f w4 hl4 hf
  apply Runs.bind (Relation.ofFn_keeps hl4.after hf)
  intro edges w5 hl5 hedges
  have ha5 := ha3.later (hl4.trans hl5)
  exact Runs.pure hl5.after ⟨⟨ha5.home, ha5.states, ha5.starting, ha5.accepting, hedges⟩, rfl⟩

theorem addEdge_keeps (hon : on.Belongs w.current) :
    Keeps w (a.addEdge p on q) fun b m => b.Fresh m := by
  apply Runs.lift_keeps hw
  intro _ _
  apply Runs.lift_keeps hw
  intro _ _
  apply Runs.lift_keeps hw
  intro d _
  apply Runs.bind (ValueSet.singleton_keeps hw)
  intro s w1 hl1 hs
  apply Runs.bind (ValueSet.singleton_keeps hl1.after)
  intro t w2 hl2 ht
  have hl := hl1.trans hl2
  exact addEdgeSets_keeps hl2.after (ha.later hl) (hs.later hl2) (hon.later hl) ht

theorem addTransitions_keeps (hr : r.Belongs w.current) :
    Keeps w (a.addTransitions r) fun b m => b.Fresh m := by
  unfold addTransitions
  apply Runs.check_keeps hw
  intro _
  apply Runs.lift_keeps hw
  intro ds _
  apply Runs.bind (Runs.within hr.home (Relation.withDomains_keeps hw hr))
  intro moved w1 hl1 hmoved
  have ha1 := ha.later hl1
  apply Runs.bind (Relation.union_keeps hl1.after ha1.edges hmoved)
  intro edges w2 hl2 hedges
  have ha2 := ha1.later hl2
  exact Runs.pure hl2.after ⟨⟨ha2.home, ha2.states, ha2.starting, ha2.accepting, hedges⟩, rfl⟩

end Growth

section Constructors

variable (hw : w.current.WellFormed)

include hw

theorem universal_keeps : Keeps w universal fun b m => b.Fresh m := by
  apply Runs.bind (ofCount_keeps hw)
  intro a w1 hl1 ha
  apply Runs.bind (addState_keeps hl1.after ha.toBelongs)
  rintro ⟨q, b⟩ w2 hl2 hb
  exact addEdge_keeps hl2.after hb.toBelongs ⟨hb.home, hl2.after.canonical.has_one⟩

theorem epsilon_keeps : Keeps w epsilon fun b m => b.Fresh m := by
  apply Runs.bind (ofCount_keeps hw)
  intro a w1 hl1 ha
  apply Runs.bind (addState_keeps hl1.after ha.toBelongs)
  intro r w2 hl2 hr
  exact Runs.pure hl2.after hr

theorem ofSymbols_keeps (hon : on.Belongs w.current) :
    Keeps w (ofSymbols on) fun b m => b.Fresh m := by
  apply Runs.bind (ofCount_keeps hw)
  intro a w1 hl1 ha
  apply Runs.bind (addState_keeps hl1.after ha.toBelongs)
  rintro ⟨p, b⟩ w2 hl2 hb
  apply Runs.bind (addState_keeps hl2.after hb.toBelongs)
  rintro ⟨q, c⟩ w3 hl3 hc
  exact addEdge_keeps hl3.after hc.toBelongs (hon.later (hl1.trans (hl2.trans hl3)))

end Constructors

theorem relabel_keeps (change : SymbolSet → BddM SymbolSet) (ha : a.Belongs w.current)
    (hchange : Keeps w (change ⟨a.manager, a.edges.fn⟩) fun r m => r.Belongs m) :
    Keeps w (do
      let labels ← change ⟨a.manager, a.edges.fn⟩
      return { a with
        edges := ← Relation.ofFn a.edges.domains labels.fn, determinism := .unknown })
      fun b m => b.Fresh m := by
  apply Runs.bind hchange
  intro labels w1 hl1 hlabels
  apply Runs.bind (Relation.ofFn_keeps hl1.after hlabels.has)
  intro edges w2 hl2 hedges
  have ha2 := ha.later (hl1.trans hl2)
  exact Runs.pure hl2.after ⟨⟨ha2.home, ha2.states, ha2.starting, ha2.accepting, hedges⟩, rfl⟩

section Changes

variable (hw : w.current.WellFormed) (ha : a.Belongs w.current)

include hw ha

theorem withStartingAccepting_keeps (hs : s.Belongs w.current) (ht : t.Belongs w.current) :
    Keeps w (a.withStartingAccepting s t) fun b m => b.Fresh m := by
  apply Runs.bind (ValueSet.inter_keeps hw hs ha.states)
  intro s1 w1 hl1 hs1
  apply Runs.lift_keeps hl1.after
  intro d _
  apply Runs.bind (ValueSet.withDomain_keeps hl1.after hs1)
  intro starting w2 hl2 hstarting
  have ha2 := ha.later (hl1.trans hl2)
  apply Runs.bind (ValueSet.inter_keeps hl2.after (ht.later (hl1.trans hl2)) ha2.states)
  intro t1 w3 hl3 ht1
  apply Runs.lift_keeps hl3.after
  intro e _
  apply Runs.bind (ValueSet.withDomain_keeps hl3.after ht1)
  intro accepting w4 hl4 haccepting
  have ha4 := ha2.later (hl3.trans hl4)
  exact Runs.pure hl4.after
    ⟨⟨ha4.home, ha4.states, hstarting.later (hl3.trans hl4), haccepting, ha4.edges⟩, rfl⟩

theorem project_keeps {bits : Domain} : Keeps w (a.project bits) fun b m => b.Fresh m :=
  relabel_keeps (·.project bits) ha (SymbolSet.project_keeps hw ⟨ha.home, ha.edges.has⟩)

theorem rename_keeps {names : Renaming} : Keeps w (a.rename names) fun b m => b.Fresh m :=
  relabel_keeps (·.rename names) ha (SymbolSet.rename_keeps hw ⟨ha.home, ha.edges.has⟩)

theorem reverse_keeps : Keeps w a.reverse fun b m => b.Fresh m := by
  apply Runs.bind (Relation.transpose_keeps hw ha.edges)
  intro edges w1 hl1 hedges
  have ha1 := ha.later hl1
  exact Runs.pure hl1.after ⟨⟨ha1.home, ha1.states, ha1.accepting, ha1.starting, hedges⟩, rfl⟩

theorem step_keeps (hs : s.Belongs w.current) (hon : on.Belongs w.current) :
    Keeps w (a.step dir s on) fun t m => t.Belongs m := by
  apply Runs.bind (Relation.step_keeps hw ha.edges hs hon)
  intro found w1 hl1 hfound
  cases dir with
  | forward =>
    apply Runs.lift_keeps hl1.after
    intro d _
    exact ValueSet.withDomain_keeps hl1.after hfound
  | backward => exact Runs.pure hl1.after hfound

theorem reach_keeps (hs : s.Belongs w.current) :
    Keeps w (a.reach dir s (.universal a.manager)) fun t m => t.Belongs m := by
  apply Runs.bind (ValueSet.moved_keeps hw hs)
  intro s' w1 hl1 hs'
  apply ValueSet.closeFrom_keeps hl1.after hs'
  intro w2 t hl2 ht
  have ha2 := ha.later (hl1.trans hl2)
  exact step_keeps hl2.after ha2 ht ⟨ha2.home, hl2.after.canonical.has_one⟩

theorem reachable_keeps : Keeps w a.reachable fun s m => s.Belongs m :=
  reach_keeps hw ha ha.starting

theorem productive_keeps : Keeps w a.productive fun s m => s.Belongs m :=
  reach_keeps hw ha ha.accepting

theorem live_keeps : Keeps w a.live fun s m => s.Belongs m := by
  apply Runs.bind (reachable_keeps hw ha)
  intro s w1 hl1 hs
  apply Runs.bind (productive_keeps hl1.after (ha.later hl1))
  intro t w2 hl2 ht
  exact ValueSet.inter_keeps hl2.after (hs.later hl2) ht

theorem mapStates_keeps (hr : r.Belongs w.current) :
    Keeps w (a.mapStates r n) fun b m => b.Fresh m := by
  apply Runs.bind (ofCount_keeps hw)
  intro b w1 hl1 hb
  apply Runs.bind (ValueSet.image_keeps hl1.after (ha.later hl1).starting (hr.later hl1))
  intro starting w2 hl2 hstarting
  have ha2 := ha.later (hl1.trans hl2)
  have hr2 := hr.later (hl1.trans hl2)
  apply Runs.bind (ValueSet.image_keeps hl2.after ha2.accepting hr2)
  intro accepting w3 hl3 haccepting
  have hr3 := hr2.later hl3
  apply Runs.bind (Relation.compose_keeps hl3.after (ha2.later hl3).edges hr3)
  intro half w4 hl4 hhalf
  apply Runs.bind (Relation.compose_keeps hl4.after hhalf (hr3.later hl4))
  intro edges w5 hl5 hedges
  have hb5 := hb.toBelongs.later (hl2.trans (hl3.trans (hl4.trans hl5)))
  refine Runs.pure hl5.after ⟨⟨hb5.home, hb5.states, ?_, ?_, hedges⟩, hb.unknown⟩
  · exact hstarting.later (hl3.trans (hl4.trans hl5))
  · exact haccepting.later (hl4.trans hl5)

theorem filter_keeps (hs : s.Belongs w.current) :
    Keeps w (a.filter s) fun b m => b.Fresh m := by
  apply Runs.bind (ValueSet.inter_keeps hw ha.states hs)
  intro kept w1 hl1 hkept
  apply Runs.lift_keeps hl1.after
  intro d _
  apply Runs.bind (ValueSet.withDomain_keeps hl1.after hkept)
  intro keep w2 hl2 hkeep
  by_cases hempty : keep.isEmpty = true
  · rw [if_pos hempty]
    exact ofCount_keeps hl2.after
  · rw [if_neg hempty]
    apply Runs.ask_keeps hl2.after
    intro n _
    apply Runs.bind (ValueSet.compress_keeps hl2.after)
    intro map w3 hl3 hmap
    exact mapStates_keeps hl3.after (ha.later (hl1.trans (hl2.trans hl3))) hmap

theorem filterReachable_keeps : Keeps w a.filterReachable fun b m => b.Fresh m :=
  .bind (reachable_keeps hw ha) fun _ _ hl hs => filter_keeps hl.after (ha.later hl) hs

theorem filterProductive_keeps : Keeps w a.filterProductive fun b m => b.Fresh m :=
  .bind (productive_keeps hw ha) fun _ _ hl hs => filter_keeps hl.after (ha.later hl) hs

theorem filterLive_keeps : Keeps w a.filterLive fun b m => b.Fresh m :=
  .bind (live_keeps hw ha) fun _ _ hl hs => filter_keeps hl.after (ha.later hl) hs

theorem star_keeps : Keeps w a.star fun b m => b.Fresh m := by
  apply Runs.bind (addState_keeps hw ha)
  rintro ⟨q, b⟩ w1 hl1 hb
  have hb1 := hb.toBelongs
  apply Runs.lift_keeps hl1.after
  intro d _
  apply Runs.bind (ValueSet.singleton_keeps hl1.after)
  intro fresh w2 hl2 hfresh
  have hb2 := hb1.later hl2
  apply Runs.bind (Relation.restrict_keeps hl2.after hb2.edges hb2.starting)
  intro out w3 hl3 hout
  apply Runs.bind (Relation.project_keeps hl3.after hout)
  intro first w4 hl4 hfirst
  have hb4 := hb2.later (hl3.trans hl4)
  apply Runs.bind (Relation.restrict_keeps hl4.after hfirst hb4.accepting)
  intro again w5 hl5 hagain
  have hb5 := hb4.later hl5
  apply Runs.bind (Relation.union_keeps hl5.after hb5.edges hagain)
  intro edges w6 hl6 hedges
  have hb6 := hb5.later hl6
  have hfresh6 := hfresh.later (hl3.trans (hl4.trans (hl5.trans hl6)))
  exact filterLive_keeps hl6.after ⟨hb6.home, hb6.states, hfresh6, hb6.accepting, hedges⟩

theorem colored_keeps {color : Bool} : Keeps w (a.colored n color) fun r m =>
    r.1.Belongs m ∧ r.2.1.Belongs m ∧ r.2.2.Belongs m := by
  apply Runs.lift_keeps hw
  intro narrow _
  apply Runs.lift_keeps hw
  intro d _
  apply Runs.lift_keeps hw
  intro ds _
  apply Runs.bind (Relation.withDomains_keeps hw ha.edges)
  intro e1 w1 hl1 he1
  apply Runs.bind (Relation.extend_keeps hl1.after he1)
  intro e2 w2 hl2 he2
  apply Runs.lift_keeps hl2.after
  intro dest _
  apply Runs.bind (Relation.extend_keeps hl2.after he2)
  intro edges w3 hl3 hedges
  have ha3 := ha.later (hl1.trans (hl2.trans hl3))
  apply Runs.bind (ValueSet.withDomain_keeps hl3.after ha3.starting)
  intro s1 w4 hl4 hs1
  apply Runs.bind (ValueSet.extend_keeps hl4.after hs1)
  intro starting w5 hl5 hstarting
  have ha5 := ha3.later (hl4.trans hl5)
  apply Runs.bind (ValueSet.withDomain_keeps hl5.after ha5.accepting)
  intro t1 w6 hl6 ht1
  apply Runs.bind (ValueSet.extend_keeps hl6.after ht1)
  intro accepting w7 hl7 haccepting
  refine Runs.pure hl7.after ⟨hstarting.later (hl6.trans hl7), haccepting, ?_⟩
  exact hedges.later (hl4.trans (hl5.trans (hl6.trans hl7)))

end Changes

/-- The moves out of the first states, from the second ones. -/
theorem bridge_keeps (hw : w.current.WellFormed) (hr : r.Belongs w.current)
    (hs : s.Belongs w.current) (ht : t.Belongs w.current) :
    Keeps w (do (← (← r.restrict 0 s).project 0).restrict 0 t) fun u m => u.Belongs m := by
  apply Runs.bind (Relation.restrict_keeps hw hr hs)
  intro out w1 hl1 hout
  apply Runs.bind (Relation.project_keeps hl1.after hout)
  intro first w2 hl2 hfirst
  exact Relation.restrict_keeps hl2.after hfirst (ht.later (hl1.trans hl2))

theorem concat_keeps (hw : w.current.WellFormed) (ha : a.Belongs w.current)
    (hb : b.Belongs w.current) : Keeps w (a.concat b) fun c m => c.Fresh m := by
  unfold concat
  by_cases hnone : a.stateCount = 0 ∨ b.stateCount = 0
  · rw [if_pos hnone]
    exact ofCount_keeps hw
  rw [if_neg hnone]
  apply Runs.check_keeps hw
  intro _
  apply Runs.bind (colored_keeps hw ha)
  rintro ⟨starting1, accepting1, edges1⟩ w1 hl1 ⟨hstarting1, haccepting1, hedges1⟩
  have hb1 := hb.later hl1
  apply Runs.bind (Runs.within hb1.home (colored_keeps hl1.after hb1))
  rintro ⟨starting2, accepting2, edges2⟩ w2 hl2 ⟨hstarting2, haccepting2, hedges2⟩
  have hb2 := hb1.later hl2
  apply Runs.check_keeps hl2.after
  intro _
  apply Runs.bind (ofCount_keeps hl2.after)
  intro c w3 hl3 hc
  have hb3 := hb2.later hl3
  apply Runs.bind (Runs.within hb3.home
    (ValueSet.intersects_keeps hl3.after hb3.starting hb3.accepting))
  intro acceptsEmpty w4 hl4 _
  have hb4 := hb3.later hl4
  have haccepting1 := haccepting1.later (hl2.trans (hl3.trans hl4))
  have haccepting2 := haccepting2.later (hl3.trans hl4)
  have hchoice : Keeps w4 (if acceptsEmpty then accepting1.union accepting2 else pure accepting2)
      fun r m => r.Belongs m := by
    split_ifs
    · exact ValueSet.union_keeps hl4.after haccepting1 haccepting2
    · exact Runs.pure hl4.after haccepting2
  apply Runs.branch hchoice
  intro accepting w5 hl5 haccepting
  have hb5 := hb4.later hl5
  have hedges2 := hedges2.later (hl3.trans (hl4.trans hl5))
  have hstarting2 := hstarting2.later (hl3.trans (hl4.trans hl5))
  apply Runs.bind (Runs.within hb5.home
    (bridge_keeps hl5.after hedges2 hstarting2 (haccepting1.later hl5)))
  intro bridge w6 hl6 hbridge
  have hl26 := hl3.trans (hl4.trans (hl5.trans hl6))
  apply Runs.bind (Relation.union_keeps hl6.after (hedges1.later (hl2.trans hl26))
    (hedges2.later hl6))
  intro both w7 hl7 hboth
  apply Runs.bind (Relation.union_keeps hl7.after hboth (hbridge.later hl7))
  intro edges w8 hl8 hedges
  have hc8 := hc.toBelongs.later (hl4.trans (hl5.trans (hl6.trans (hl7.trans hl8))))
  have hstarting8 := hstarting1.later (hl2.trans (hl26.trans (hl7.trans hl8)))
  have haccepting8 := haccepting.later (hl6.trans (hl7.trans hl8))
  exact filterLive_keeps hl8.after ⟨hc8.home, hc8.states, hstarting8, haccepting8, hedges⟩

theorem acceptingPairs_keeps {f : Connective} {x y : Ref} (hw : w.current.WellFormed)
    (hx : w.current.Has x) (hy : w.current.Has y) :
    Keeps w (acceptingPairs f x y) fun r m => m.Has r := by
  apply disjMap_keeps hw
  intro e _ w1 hl1
  have hm := hl1.after.canonical
  exact conj_keeps hl1.after (has_negIf.2 (hl1.grows.has hx)) (has_negIf.2 (hl1.grows.has hy))

theorem pairs_keeps {f : Connective} (hw : w.current.WellFormed) (ha : a.Belongs w.current)
    (hb : b.Belongs w.current) : Keeps w (a.pairs b f) fun c m => c.Fresh m := by
  unfold pairs
  apply Runs.check_keeps hw
  intro _
  apply Runs.check_keeps hw
  intro _
  apply Runs.lift_keeps hw
  intro low _
  apply Runs.lift_keeps hw
  intro stop _
  apply Runs.lift_keeps hw
  intro high _
  apply Runs.lift_keeps hw
  intro dests _
  apply Runs.lift_keeps hw
  intro destStop _
  apply Runs.lift_keeps hw
  intro destHigh _
  apply Runs.bind (ValueSet.withDomain_keeps hw hb.starting)
  intro starting2 w1 hl1 hstarting2
  have hb1 := hb.later hl1
  apply Runs.bind (ValueSet.withDomain_keeps hl1.after hb1.accepting)
  intro accepting2 w2 hl2 haccepting2
  have hb2 := hb1.later hl2
  apply Runs.lift_keeps hl2.after
  intro letters _
  apply Runs.bind (Relation.withDomains_keeps hl2.after hb2.edges)
  intro edges2 w3 hl3 hedges2
  apply Runs.bind (ofCount_keeps hl3.after)
  intro c w4 hl4 hc
  have ha4 := ha.later (hl1.trans (hl2.trans (hl3.trans hl4)))
  apply Runs.lift_keeps hl4.after
  intro d _
  have hstarting2 := hstarting2.later (hl2.trans (hl3.trans hl4))
  apply Runs.bind (conj_keeps hl4.after ha4.starting.has hstarting2.has)
  intro x w5 hl5 hx
  apply Runs.bind (ValueSet.ofFn_keeps hl5.after hx)
  intro starting w6 hl6 hstarting
  have ha6 := ha4.later (hl5.trans hl6)
  have haccepting2 := haccepting2.later (hl3.trans (hl4.trans (hl5.trans hl6)))
  apply Runs.bind (acceptingPairs_keeps hl6.after ha6.accepting.has haccepting2.has)
  intro y w7 hl7 hy
  apply Runs.bind (ValueSet.ofFn_keeps hl7.after hy)
  intro accepting w8 hl8 haccepting
  have ha8 := ha6.later (hl7.trans hl8)
  have hedges2 := hedges2.later (hl4.trans (hl5.trans (hl6.trans (hl7.trans hl8))))
  apply Runs.bind (conj_keeps hl8.after ha8.edges.has hedges2.has)
  intro z w9 hl9 hz
  apply Runs.lift_keeps hl9.after
  intro ds _
  apply Runs.bind (Relation.ofFn_keeps hl9.after hz)
  intro edges w10 hl10 hedges
  have hl810 := hl9.trans hl10
  have hc10 := hc.toBelongs.later (hl5.trans (hl6.trans (hl7.trans (hl8.trans hl810))))
  have hstarting10 := hstarting.later (hl7.trans (hl8.trans hl810))
  exact filterLive_keeps hl10.after
    ⟨hc10.home, hc10.states, hstarting10, haccepting.later hl810, hedges⟩

end SymbolicNfa

namespace MatrixNfa

variable {w w' : Workspace} {m : Manager} {a : MatrixNfa}

/-- All labels belong to the manager. -/
structure Belongs (a : MatrixNfa) (m : Manager) : Prop where
  home : a.manager = m.id
  labels : ∀ p q on, a.edge p q = .ok on → on.Belongs m

theorem Belongs.later (h : a.Belongs w.current) (hl : w.Leads w') : a.Belongs w'.current where
  home := h.home.trans hl.grows.id.symm
  labels p q on hon := (h.labels p q on hon).later hl

theorem states_keeps (hw : w.current.WellFormed) : Keeps w a.states fun s m => s.Belongs m := by
  apply Runs.lift_keeps hw
  intro d _
  exact ValueSet.firstStates_keeps hw

theorem stateSet_keeps {qs : List Nat} (hw : w.current.WellFormed) :
    Keeps w (a.stateSet qs) fun s m => s.Belongs m := by
  apply Runs.bind (states_keeps hw)
  intro s w1 hl1 _
  exact ValueSet.ofList_keeps hl1.after

theorem edges_keeps (hw : w.current.WellFormed) (ha : a.Belongs w.current) :
    Keeps w a.edges fun r m => r.Belongs m := by
  apply Runs.bind (states_keeps hw)
  intro states w1 hl1 hstates
  apply Runs.lift_keeps hl1.after
  intro source _
  apply Runs.lift_keeps hl1.after
  intro dest _
  apply Runs.ask_keeps hl1.after
  intro qs _
  refine .bind (foldlM_keeps (S := fun f m => m.Has f) hl1.after hl1.after.canonical.has_zero ?_)
    fun f w2 hl2 hf => Relation.ofFn_keeps hl2.after hf
  intro p _ w2 f hl2 hf
  apply foldlM_keeps hl2.after hf
  intro q _ w3 f hl3 hf
  apply Runs.lift_keeps hl3.after
  intro on hon
  have hon3 := ((ha.later (hl1.trans (hl2.trans hl3))).labels p q on hon)
  split_ifs
  · exact Runs.pure hl3.after hf
  · apply Runs.bind (value_keeps hl3.after)
    intro x w4 hl4 hx
    apply Runs.bind (value_keeps hl4.after)
    intro y w5 hl5 hy
    have hall : ∀ g ∈ [x, on.fn, y], w5.current.Has g := by
      simp only [List.forall_mem_cons]
      exact ⟨hl5.grows.has hx, (hon3.later (hl4.trans hl5)).has, hy, by simp⟩
    apply Runs.bind (conjAll_keeps hl5.after hall)
    intro z w6 hl6 hz
    exact disj_keeps hl6.after ((hl4.trans (hl5.trans hl6)).grows.has hf) hz

end MatrixNfa

namespace Automaton

variable {w w' : Workspace} {m : Manager} {a : Automaton} {dir : Direction}

def Belongs : Automaton → Manager → Prop
  | symbolic a, m => a.Belongs m
  | matrix a, m => a.Belongs m
  | relational a, m => a.Belongs m
  | reversed a, m => a.Belongs m

theorem Belongs.later (h : a.Belongs w.current) (hl : w.Leads w') : a.Belongs w'.current := by
  induction a with
  | symbolic a => exact SymbolicNfa.Belongs.later h hl
  | matrix a => exact MatrixNfa.Belongs.later h hl
  | relational a => exact SymbolicNfa.Belongs.later h hl
  | reversed a ih => exact ih h

theorem stateCount_keeps (hw : w.current.WellFormed) : Keeps w a.stateCount fun _ _ => True := by
  induction a with
  | symbolic a => exact Runs.pure hw trivial
  | matrix a => exact Runs.pure hw trivial
  | relational a =>
    rw [stateCount, ← bind_pure (Bdd.ask _)]
    exact Runs.ask_keeps hw fun n _ => Runs.pure hw trivial
  | reversed a ih => exact ih

theorem states_keeps (hw : w.current.WellFormed) (ha : a.Belongs w.current) :
    Keeps w a.states fun s m => s.Belongs m := by
  induction a with
  | symbolic a => exact Runs.pure hw ha.states
  | matrix a => exact MatrixNfa.states_keeps hw
  | relational a => exact Runs.pure hw ha.states
  | reversed a ih => exact ih ha

theorem ends_keeps (hw : w.current.WellFormed) (ha : a.Belongs w.current) :
    Keeps w (a.ends dir) fun s m => s.Belongs m := by
  induction a generalizing dir with
  | symbolic a =>
    cases dir with
    | forward => exact Runs.pure hw ha.starting
    | backward => exact Runs.pure hw ha.accepting
  | matrix a =>
    cases dir with
    | forward => exact MatrixNfa.stateSet_keeps hw
    | backward => exact MatrixNfa.stateSet_keeps hw
  | relational a =>
    cases dir with
    | forward => exact Runs.pure hw ha.starting
    | backward => exact Runs.pure hw ha.accepting
  | reversed a ih => exact ih ha

theorem edges_keeps (hw : w.current.WellFormed) (ha : a.Belongs w.current) :
    Keeps w a.edges fun r m => r.Belongs m := by
  cases a with
  | symbolic a => exact Runs.pure hw ha.edges
  | matrix a => exact MatrixNfa.edges_keeps hw ha
  | relational a => exact Runs.pure hw ha.edges
  | reversed a => exact Runs.throw hw trivial

end Automaton

namespace SymbolicNfa

theorem ofAutomaton_keeps {w : Workspace} {a : Automaton} (hw : w.current.WellFormed)
    (ha : a.Belongs w.current) : Keeps w (ofAutomaton a) fun b m => b.Fresh m := by
  apply Runs.bind (Automaton.stateCount_keeps hw)
  intro n w1 hl1 _
  apply Runs.bind (ofCount_keeps hl1.after)
  intro b w2 hl2 hb
  have ha2 := ha.later (hl1.trans hl2)
  apply Runs.bind (Automaton.states_keeps hl2.after ha2)
  intro states w3 hl3 hstates
  have hb3 := hb.toBelongs.later hl3
  apply Runs.bind (ValueSet.same_keeps hl3.after hstates hb3.states)
  intro dense w4 hl4 _
  have ha4 := ha2.later (hl3.trans hl4)
  cases dense with
  | false =>
    apply Runs.bind (Automaton.states_keeps hl4.after ha4)
    intro states w5 hl5 hstates
    apply Runs.ask_keeps hl5.after
    intro vs _
    exact Runs.throw_keeps hl5.after
  | true =>
    apply Runs.lift_keeps hl4.after
    intro d _
    apply Runs.bind (Automaton.ends_keeps hl4.after ha4)
    intro s w5 hl5 hs
    apply Runs.bind (ValueSet.withDomain_keeps hl5.after hs)
    intro starting w6 hl6 hstarting
    have ha6 := ha4.later (hl5.trans hl6)
    apply Runs.bind (Automaton.ends_keeps hl6.after ha6)
    intro t w7 hl7 ht
    apply Runs.bind (ValueSet.withDomain_keeps hl7.after ht)
    intro accepting w8 hl8 haccepting
    apply Runs.bind (Automaton.edges_keeps hl8.after (ha6.later (hl7.trans hl8)))
    intro r w9 hl9 hr
    apply Runs.lift_keeps hl9.after
    intro ds _
    apply Runs.bind (Relation.withDomains_keeps hl9.after hr)
    intro edges w10 hl10 hedges
    have hl810 := hl9.trans hl10
    have hl410 := hl5.trans (hl6.trans (hl7.trans (hl8.trans hl810)))
    have hb10 := hb3.later (hl4.trans hl410)
    have hstarting10 := hstarting.later (hl7.trans (hl8.trans hl810))
    exact Runs.pure hl10.after
      ⟨⟨hb10.home, hb10.states, hstarting10, haccepting.later hl810, hedges⟩, hb.unknown⟩

end SymbolicNfa

end SymbolicAutomata
