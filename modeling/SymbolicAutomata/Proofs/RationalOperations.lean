import SymbolicAutomata.Proofs.Extensions
import SymbolicAutomata.Proofs.SubAutomata
import SymbolicAutomata.RationalOperations
/-!
# Star, concatenation and reversal of automata

A bridge gives the moves out of some states to other states as well. The star leads from the
accepting states back to the starting ones, the concatenation from the accepting states of one
automaton into the other. The states of the two are told apart by a bit above all others.
-/
namespace SymbolicAutomata

open Manager Bdd Layout

/-- The moves out of the states of `S`, from each state of `T`. -/
def bridge (g : NFA Nat Nat) (S T : Set Nat) : NFA Nat Nat :=
  ⟨fun p c => {q | p ∈ T ∧ q ∈ g.stepSet S c}, ∅, ∅⟩

/-- The edges of two automata together, with the given starting and accepting states. -/
def join (g h : NFA Nat Nat) (S T : Set Nat) : NFA Nat Nat :=
  ⟨fun p c => g.step p c ∪ h.step p c, S, T⟩

/-- A state is added that starts and accepts. It and the accepting states of the automaton have the
moves out of the starting states, and it alone starts. -/
def starred (g : NFA Nat Nat) (n : Nat) : NFA Nat Nat :=
  let e := enlarge g n (n + 1) true true
  join e (bridge e e.start e.accept) {n} e.accept

/-- The automaton on the numbers whose bits from `k` on are those of `b`. -/
def tinted (g : NFA Nat Nat) (k b : Nat) : NFA Nat Nat where
  step p c := {q | p / 2 ^ k = b ∧ q / 2 ^ k = b ∧ q % 2 ^ k ∈ g.step (p % 2 ^ k) c}
  start := {p | p / 2 ^ k = b ∧ p % 2 ^ k ∈ g.start}
  accept := {p | p / 2 ^ k = b ∧ p % 2 ^ k ∈ g.accept}

open Classical in
/-- The second automaton stands above the first one. The accepting states of the first one have the
moves out of the starting states of the second, and accept only if one of these does. -/
noncomputable def chained (g₁ g₂ : NFA Nat Nat) (k : Nat) : NFA Nat Nat :=
  let low := tinted g₁ k 0
  let high := tinted g₂ k 1
  join (join low high ∅ ∅) (bridge high high.start low.accept) low.start
    {q | q ∈ high.accept ∨ (∃ p ∈ g₂.start, p ∈ g₂.accept) ∧ q ∈ low.accept}

variable {g h g₁ g₂ : NFA Nat Nat} {n k p q : Nat} {S T : Set Nat}

theorem bridge_bounded (hg : Bounded g n) (hT : ∀ p ∈ T, p < n) : Bounded (bridge g S T) n where
  start _ h := h.elim
  source p c q hq := hT p hq.1
  target p c q hq := by
    obtain ⟨r, -, hr⟩ := NFA.mem_stepSet.1 hq.2
    exact hg.target r c q hr

theorem join_bounded (hg : Bounded g n) (hh : Bounded h n) (hS : ∀ p ∈ S, p < n) :
    Bounded (join g h S T) n where
  start := hS
  source p c q hq := hq.elim (hg.source p c q) (hh.source p c q)
  target p c q hq := hq.elim (hg.target p c q) (hh.target p c q)

theorem starred_bounded (hg : Contained g n) : Bounded (starred g n) (n + 1) := by
  have he : Contained (enlarge g n (n + 1) true true) (n + 1) := hg.enlarge (Nat.le_succ n)
  refine join_bounded he.toBounded (bridge_bounded he.toBounded he.accept) fun p hp => ?_
  obtain rfl : p = n := hp
  exact Nat.lt_succ_self p

theorem tinted_contained (hg : Contained g n) (b : Nat) :
    Contained (tinted g k b) (b * 2 ^ k + n) := by
  have hlt : ∀ p, p / 2 ^ k = b → p % 2 ^ k < n → p < b * 2 ^ k + n := by
    intro p hdiv hmod
    have := Nat.div_add_mod' p (2 ^ k)
    rw [hdiv] at this
    omega
  constructor
  · constructor
    · exact fun p hp => hlt p hp.1 (hg.start _ hp.2)
    · exact fun p c q hq => hlt p hq.1 (hg.source _ c _ hq.2.2)
    · exact fun p c q hq => hlt q hq.2.1 (hg.target _ c _ hq.2.2)
  · exact fun p hp => hlt p hp.1 (hg.accept _ hp.2)

theorem chained_bounded (hg₁ : Contained g₁ (2 ^ k)) (hg₂ : Contained g₂ n) :
    Bounded (chained g₁ g₂ k) (2 ^ k + n) := by
  have hlow : Contained (tinted g₁ k 0) (2 ^ k + n) := (tinted_contained hg₁ 0).mono (by omega)
  have hhigh : Contained (tinted g₂ k 1) (2 ^ k + n) := (tinted_contained hg₂ 1).mono (by omega)
  exact join_bounded (join_bounded hlow.toBounded hhigh.toBounded fun _ h => h.elim)
    (bridge_bounded hhigh.toBounded hlow.accept) hlow.start

namespace SymbolicNfa

variable {w : Workspace} {a b : SymbolicNfa} {r r' : Relation} {s t : ValueSet}

theorem union_edges_yields (hw : w.current.WellFormed)
    (hr : r.domains = edgeBlocks k ∧ r.Shows w.current (Edges g))
    (hr' : r'.domains = edgeBlocks k ∧ r'.Shows w.current (Edges h)) :
    Yields w (r.union r') fun u m =>
      u.domains = edgeBlocks k ∧ u.Shows m (Edges (join g h S T)) := by
  apply (Relation.union_yields hw hr.2 hr'.2 (hr.1.trans hr'.1.symm)).imp
  intro u w1 _ hu
  refine ⟨hu.1.trans hr.1, hu.2.congr fun ts hts => ?_⟩
  rw [hu.1, hr.1] at hts
  obtain ⟨p, c, q, rfl, -⟩ := forall₂_edgeBlocks.1 hts
  simp only [edges_iff]
  exact Iff.rfl

theorem restrict_sources_yields {R : List Nat → Prop} (hw : w.current.WellFormed) (hk : k ≤ 32)
    (hr : r.domains = edgeBlocks k ∧ r.Shows w.current R)
    (hs : s.domain = sourceBlock k ∧ s.Shows w.current (· ∈ S)) :
    Yields w (r.restrict 0 s) fun u m => u.domains = edgeBlocks k ∧
      u.Shows m fun ts => R ts ∧ ∀ v, ts[0]? = some v → v ∈ S := by
  have hbounded : s.Shows w.current fun v => v < 2 ^ k ∧ v ∈ S := by
    have := hs.2.bounded
    rwa [hs.1] at this
  have hfit : s.domain.Fits (sourceBlock k) fun v => v < 2 ^ k ∧ v ∈ S := by
    rw [hs.1]
    exact fits_of_small hk hk sourceBlock_base_le sourceBlock_base_le fun v hv => ⟨hv.1, hv.1⟩
  apply (Relation.restrict_yields hw hr.2 hbounded (by rw [hr.1]; rfl) hfit).imp
  intro u w1 _ hu
  refine ⟨hu.1.trans hr.1, hu.2.congr fun ts hts => ?_⟩
  rw [hu.1, hr.1] at hts
  obtain ⟨p, c, q, rfl, hp, -⟩ := forall₂_edgeBlocks.1 hts
  simp [hp]

theorem bridge_yields (hw : w.current.WellFormed) (hk : k ≤ 32) (hg : Bounded g (2 ^ k))
    (hr : r.domains = edgeBlocks k ∧ r.Shows w.current (Edges g))
    (hs : s.domain = sourceBlock k ∧ s.Shows w.current (· ∈ S))
    (ht : t.domain = sourceBlock k ∧ t.Shows w.current (· ∈ T)) :
    Yields w (do (← (← r.restrict 0 s).project 0).restrict 0 t) fun u m =>
      u.domains = edgeBlocks k ∧ u.Shows m (Edges (bridge g S T)) := by
  apply Runs.bind (restrict_sources_yields hw hk hr hs)
  intro out w1 hl1 hout
  apply Runs.bind (Relation.project_yields hl1.after hout.2 (by rw [hout.1]; rfl))
  intro first w2 hl2 hfirst
  apply (restrict_sources_yields hl2.after hk ⟨hfirst.1.trans hout.1, hfirst.2⟩
    ⟨ht.1, ht.2.later (hl1.trans hl2)⟩).imp
  intro u w3 _ hu
  refine ⟨hu.1, hu.2.congr fun ts hts => ?_⟩
  rw [hu.1] at hts
  obtain ⟨p, c, q, rfl, -⟩ := forall₂_edgeBlocks.1 hts
  simp only [List.set_cons_zero, edges_iff, List.getElem?_cons_zero, Option.some_inj, forall_eq']
  constructor
  · rintro ⟨⟨v, -, hstep, hv⟩, hp⟩
    exact ⟨hp, NFA.mem_stepSet.2 ⟨v, hv, hstep⟩⟩
  · rintro ⟨hp, hq⟩
    obtain ⟨v, hv, hstep⟩ := NFA.mem_stepSet.1 hq
    exact ⟨⟨v, hg.source v c q hstep, hstep, hv⟩, hp⟩

/-- The live states of the automaton with the added state are kept. -/
theorem star_shows (hw : w.current.WellFormed) (h : a.Shows w.current g)
    (hg : Contained g a.stateCount) (hn : a.stateCount + 1 < 2 ^ 32) :
    Yields w a.star fun b m => b.determinism = .unknown ∧ ∃ vs : List Nat, vs.Nodup ∧
      (∀ v, v ∈ vs ↔ Live (starred g a.stateCount) v) ∧ b.stateCount = vs.length ∧
      b.Shows m (renumber (starred g a.stateCount) vs) := by
  apply Runs.bind (addState_yields hw h hg hn)
  rintro ⟨q, b⟩ w1 hl1 ⟨rfl, hcount, -, hb⟩
  simp only at hcount hb
  have hbn := b.count_le_two_pow_width
  have hk := hb.width_le
  have he : Contained (enlarge g a.stateCount (a.stateCount + 1) true true) b.stateCount := by
    rw [hcount]
    exact hg.enlarge (Nat.le_succ _)
  have hek := he.mono hbn
  apply Runs.lift_bind hb.stateDomain
  apply Runs.bind (ValueSet.singleton_yields hl1.after (by change b.width ≤ 64; omega)
    (source_end hk) (show a.stateCount < 2 ^ b.width by omega))
  intro fresh w2 hl2 hfresh
  have hb2 := hb.later hl2
  suffices hrest : Yields w2 ((do
      (← (← b.edges.restrict 0 b.starting).project 0).restrict 0 b.accepting) >>= fun again => do
      let edges ← b.edges.union again
      ({ b with edges := edges, starting := fresh, determinism := .unknown } :
        SymbolicNfa).filterLive) _ by
    simpa only [bind_assoc] using hrest
  apply Runs.bind (bridge_yields hl2.after hk hek.toBounded hb2.edges hb2.starting hb2.accepting)
  intro again w3 hl3 hagain
  have hb3 := hb2.later hl3
  apply Runs.bind (union_edges_yields hl3.after hb3.edges hagain)
  intro edges w4 hl4 hedges
  have hb4 := hb3.later hl4
  have hfresh4 := hfresh.2.later (hl3.trans hl4)
  have hshows : ({ b with edges := edges, starting := fresh, determinism := .unknown } :
      SymbolicNfa).Shows w4.current (starred g a.stateCount) :=
    ⟨⟨hb4.home, hb4.states, ⟨hfresh.1, hfresh4⟩, hb4.accepting, hedges⟩, hb4.few⟩
  have hbounded : Bounded (starred g a.stateCount) b.stateCount := hcount ▸ starred_bounded hg
  exact filterLive_shows hl4.after hshows hbounded

theorem colored_set_yields {j : Nat} {color : Bool} (hw : w.current.WellFormed) (hj : j ≤ k)
    (hk : k + 1 ≤ 32) (hs : s.domain = sourceBlock j ∧ s.Shows w.current (· ∈ S))
    (hS : ∀ p ∈ S, p < 2 ^ j) :
    Yields w (do (← s.withDomain (sourceBlock k)).extend (sourceBlock (k + 1)) color) fun u m =>
      u.domain = sourceBlock (k + 1) ∧
        u.Shows m fun v => v / 2 ^ k = color.toNat ∧ v % 2 ^ k ∈ S := by
  have hpow : 2 ^ j ≤ 2 ^ k := Nat.pow_le_pow_right (by decide) hj
  have hfit : s.domain.Fits (sourceBlock k) (· ∈ S) := by
    rw [hs.1]
    refine fits_of_small (by change j ≤ 32; omega) (by change k ≤ 32; omega) sourceBlock_base_le
      sourceBlock_base_le fun v hv => ⟨hS v hv, ?_⟩
    exact Nat.lt_of_lt_of_le (hS v hv) hpow
  apply Runs.bind (hs.2.withDomain hw hfit)
  rintro t w1 hl1 ⟨htd, ht⟩
  have hlen : t.domain.len = k := by rw [htd]; rfl
  have hfit' : t.domain.Fits ((sourceBlock (k + 1)).withLen t.domain.len) (· ∈ S) := by
    rw [htd]
    refine fits_of_small (by change k ≤ 32; omega) (by change k ≤ 32; omega) sourceBlock_base_le
      sourceBlock_base_le fun v hv => ?_
    have := Nat.lt_of_lt_of_le (hS v hv) hpow
    exact ⟨this, this⟩
  apply (ValueSet.extend_yields hl1.after ht (by rw [hlen]; exact Nat.le_succ k)
    (source_end hk) hfit').imp
  intro u w2 _ hu
  refine ⟨hu.1, hu.2.congr fun v hv => ?_⟩
  rw [hu.1] at hv
  rw [hlen]
  exact (and_congr_right fun _ => painted_succ_iff hv).trans and_comm

theorem colored_edges_yields {color : Bool} (hw : w.current.WellFormed) (hk : k + 1 ≤ 32)
    (hr : r.domains = edgeBlocks k ∧ r.Shows w.current (Edges g)) :
    Yields w (do
      let half ← r.extend 0 (sourceBlock (k + 1)) color
      half.extend 2 (← Layout.dests (k + 1)) color) fun u m =>
      u.domains = edgeBlocks (k + 1) ∧ u.Shows m (Edges (tinted g k color.toNat)) := by
  have hsources : r.domains[0]? = some (sourceBlock k) := by rw [hr.1]; rfl
  apply Runs.bind (Relation.extend_yields hw hr.2 hsources (rfl : _ = (sourceBlock (k + 1)).base)
    (Nat.le_succ k) (source_end hk) fun i e hi he => ?_)
  · rintro half w1 hl1 ⟨hhd, hhalf⟩
    apply Runs.lift_bind (dests_eq hk)
    have hhd' : half.domains = [sourceBlock (k + 1), alphabet, destBlock k] := by
      rw [hhd, hr.1]
      rfl
    have hdests : half.domains[2]? = some (destBlock k) := by rw [hhd']; rfl
    apply (Relation.extend_yields hl1.after hhalf hdests (rfl : _ = (destBlock (k + 1)).base)
      (Nat.le_succ k) (dest_end hk) fun i e hi he => ?_).imp
    · intro u w2 _ hu
      have hud : u.domains = edgeBlocks (k + 1) := by
        rw [hu.1, hhd']
        rfl
      refine ⟨hud, hu.2.congr fun ts hts => ?_⟩
      rw [hud] at hts
      obtain ⟨p, c, q, rfl, hp, -, hq⟩ := forall₂_edgeBlocks.1 hts
      simp only [List.getElem?_cons_succ, List.getElem?_cons_zero, Option.some_inj,
        exists_eq_left', List.set_cons_succ, List.set_cons_zero, edges_iff]
      change (q % 2 ^ k ∈ g.step (p % 2 ^ k) c ∧ Painted k (k + 1) color p) ∧
        Painted k (k + 1) color q ↔ _
      rw [painted_succ_iff hp, painted_succ_iff hq]
      constructor
      · rintro ⟨⟨hstep, hpk⟩, hqk⟩
        exact ⟨hpk, hqk, hstep⟩
      · rintro ⟨hpk, hqk, hstep⟩
        exact ⟨⟨hstep, hpk⟩, hqk⟩
    · rw [hhd'] at he
      rcases i with _ | _ | _ | i
      · cases he
        exact source_apart_dest hk
      · cases he
        exact (dest_apart_alphabet hk).symm
      · exact absurd rfl hi
      · cases he
  · rw [hr.1] at he
    rcases i with _ | _ | _ | i
    · exact absurd rfl hi
    · cases he
      exact (source_apart_alphabet hk).symm
    · cases he
      exact (source_apart_dest hk).symm
    · cases he

theorem colored_yields (color : Bool) (hw : w.current.WellFormed) (h : a.Shows w.current g)
    (hg : Contained g a.stateCount) (hj : a.width ≤ k) (hk : k + 1 ≤ 32) :
    Yields w (a.colored (k + 1) color) fun r m =>
      (r.1.domain = sourceBlock (k + 1) ∧
        r.1.Shows m (· ∈ (tinted g k color.toNat).start)) ∧
      (r.2.1.domain = sourceBlock (k + 1) ∧
        r.2.1.Shows m (· ∈ (tinted g k color.toNat).accept)) ∧
      r.2.2.domains = edgeBlocks (k + 1) ∧ r.2.2.Shows m (Edges (tinted g k color.toNat)) := by
  have hk' : k ≤ 32 := by omega
  have hga := hg.mono a.count_le_two_pow_width
  have hgk := hga.mono (Nat.pow_le_pow_right (by decide) hj)
  apply Runs.lift_bind (states_eq hk')
  apply Runs.lift_bind (states_eq hk)
  apply Runs.lift_bind (transitions_eq hk')
  apply Runs.bind (moveEdges_yields hw h.edges h.width_le hk' hk' (edgeBlocks_apart hk')
    (edgeBlocks_ends hk') hga.toBounded hgk.source hgk.target)
  intro moved w1 hl1 hmoved
  suffices hrest : Yields w1 ((do
      let half ← moved.extend 0 (sourceBlock (k + 1)) color
      half.extend 2 (← Layout.dests (k + 1)) color) >>= fun edges => (do
      (← a.starting.withDomain (sourceBlock k)).extend (sourceBlock (k + 1)) color) >>=
      fun starting => (do
      (← a.accepting.withDomain (sourceBlock k)).extend (sourceBlock (k + 1)) color) >>=
      fun accepting => pure (starting, accepting, edges)) _ by
    simpa only [bind_assoc] using hrest
  apply Runs.bind (colored_edges_yields hl1.after hk hmoved)
  intro edges w2 hl2 hedges
  have h2 := h.later (hl1.trans hl2)
  apply Runs.bind (colored_set_yields hl2.after hj hk h2.starting hga.start)
  intro starting w3 hl3 hstarting
  have h3 := h2.later hl3
  apply Runs.bind (colored_set_yields hl3.after hj hk h3.accepting hga.accept)
  intro accepting w4 hl4 haccepting
  refine Runs.pure hl4.after ⟨⟨hstarting.1, hstarting.2.later hl4⟩, haccepting, ?_⟩
  exact ⟨hedges.1, hedges.2.later (hl3.trans hl4)⟩

theorem bitsNeeded_above {n : Nat} (hpos : 0 < n) (hn : n ≤ 2 ^ k) :
    bitsNeeded (2 ^ k + n) = k + 1 := by
  apply Nat.le_antisymm
  · rw [bitsNeeded_le_iff, Nat.pow_eq, Nat.pow_succ]
    omega
  · by_contra hlt
    have hle : 2 ^ k + n ≤ 2 ^ k := bitsNeeded_le_iff.1 (show bitsNeeded (2 ^ k + n) ≤ k by omega)
    omega

/-- The second set, with the first one if there is reason to. -/
theorem join_yields {c : Bool} (hw : w.current.WellFormed)
    (hs : s.domain = sourceBlock k ∧ s.Shows w.current (· ∈ S))
    (ht : t.domain = sourceBlock k ∧ t.Shows w.current (· ∈ T)) :
    Yields w (if c then s.union t else pure t) fun u m =>
      u.domain = sourceBlock k ∧ u.Shows m fun v => v ∈ T ∨ c = true ∧ v ∈ S := by
  cases c with
  | true =>
    apply (ValueSet.union_yields hs.2 ht.2 (hs.1.trans ht.1.symm) hw).imp
    intro u w1 _ hu
    exact ⟨hu.1.trans hs.1, hu.2.congr fun v _ => by rw [or_comm]; simp⟩
  | false => exact Runs.pure hw ⟨ht.1, ht.2.congr fun v _ => by simp⟩

theorem Shows.intersects_yields (hw : w.current.WellFormed) (h : a.Shows w.current g)
    (hg : Bounded g a.stateCount) :
    Yields w (a.starting.intersects a.accepting) fun r _ =>
      r = true ↔ ∃ p ∈ g.start, p ∈ g.accept := by
  apply (ValueSet.intersects_yields h.starting.2 h.accepting.2
    (h.starting.1.trans h.accepting.1.symm) hw).imp
  intro r w1 _ hr
  rw [hr, h.starting.1]
  constructor
  · rintro ⟨v, -, hv⟩
    exact ⟨v, hv⟩
  · rintro ⟨v, hv⟩
    exact ⟨v, Nat.lt_of_lt_of_le (hg.start v hv.1) a.count_le_two_pow_width, hv⟩

/-- The live states of the two automata one above the other are kept. -/
theorem concat_shows (hw : w.current.WellFormed) (ha : a.Shows w.current g₁)
    (hb : b.Shows w.current g₂) (hg₁ : Contained g₁ a.stateCount)
    (hg₂ : Contained g₂ b.stateCount) (hapos : 0 < a.stateCount) (hbpos : 0 < b.stateCount)
    (hkmax : k = max a.width b.width) (hbits : k + 1 ≤ 32)
    (hcount : 2 ^ k + b.stateCount < 2 ^ 32) :
    Yields w (a.concat b) fun c m => c.determinism = .unknown ∧ ∃ vs : List Nat, vs.Nodup ∧
      (∀ v, v ∈ vs ↔ Live (chained g₁ g₂ k) v) ∧ c.stateCount = vs.length ∧
      c.Shows m (renumber (chained g₁ g₂ k) vs) := by
  classical
  have hak : a.width ≤ k := by omega
  have hbk : b.width ≤ k := by omega
  have hga := (hg₁.mono a.count_le_two_pow_width).mono (Nat.pow_le_pow_right (by decide) hak)
  have hbn : b.stateCount ≤ 2 ^ k :=
    b.count_le_two_pow_width.trans (Nat.pow_le_pow_right (by decide) hbk)
  have hbounded := chained_bounded hga hg₂
  have hpow : 2 ^ k + b.stateCount ≤ 2 ^ (k + 1) := by
    rw [Nat.pow_succ]
    omega
  have hlow : Contained (tinted g₁ k 0) (2 ^ (k + 1)) :=
    (tinted_contained hga 0).mono (by omega)
  have hhigh : Contained (tinted g₂ k 1) (2 ^ (k + 1)) :=
    (tinted_contained hg₂ 1).mono (by omega)
  unfold concat
  rw [if_neg (by omega)]
  simp only [← hkmax, Nat.add_sub_cancel]
  rw [if_neg (by change ¬ 32 < k + 1; omega)]
  apply Runs.bind (colored_yields false hw ha hg₁ hak hbits)
  rintro ⟨starting1, accepting1, edges1⟩ w1 hl1 ⟨hstarting1, haccepting1, hedges1⟩
  have hb1 := hb.later hl1
  apply Runs.bind (Runs.within hb1.home
    (colored_yields true hl1.after hb1 hg₂ hbk hbits))
  rintro ⟨starting2, accepting2, edges2⟩ w2 hl2 ⟨hstarting2, haccepting2, hedges2⟩
  simp only at hstarting1 haccepting1 hedges1 hstarting2 haccepting2 hedges2 ⊢
  rw [if_neg (by change ¬ 2 ^ 32 ≤ 2 ^ k + b.stateCount; omega)]
  apply Runs.bind (ofCount_yields hl2.after hcount)
  rintro c w3 hl3 ⟨hccount, -, hc⟩
  have hwidth : c.width = k + 1 := by
    rw [width, hccount]
    exact bitsNeeded_above hbpos hbn
  have hb3 := hb1.later (hl2.trans hl3)
  apply Runs.bind (Runs.within hb3.home (hb3.intersects_yields hl3.after hg₂.toBounded))
  intro acceptsEmpty w4 hl4 hempty
  have hl24 := hl2.trans (hl3.trans hl4)
  have haccepting1' := haccepting1.2.later hl24
  apply Runs.branch (join_yields (c := acceptsEmpty) hl4.after ⟨haccepting1.1, haccepting1'⟩
    ⟨haccepting2.1, haccepting2.2.later (hl3.trans hl4)⟩)
  rintro accepting w5 hl5 ⟨haccd, haccepting⟩
  have hl35 := hl3.trans (hl4.trans hl5)
  apply Runs.bind (Runs.within (hb3.later (hl4.trans hl5)).home (bridge_yields hl5.after hbits
    hhigh.toBounded ⟨hedges2.1, hedges2.2.later hl35⟩ ⟨hstarting2.1, hstarting2.2.later hl35⟩
    ⟨haccepting1.1, haccepting1'.later hl5⟩))
  intro bridge w6 hl6 hbridge
  have hl36 := hl35.trans hl6
  apply Runs.bind (union_edges_yields (S := ∅) (T := ∅) hl6.after
    ⟨hedges1.1, hedges1.2.later (hl2.trans hl36)⟩ ⟨hedges2.1, hedges2.2.later hl36⟩)
  intro both w7 hl7 hboth
  apply Runs.bind (union_edges_yields hl7.after hboth ⟨hbridge.1, hbridge.2.later hl7⟩)
  intro edges w8 hl8 hedges
  have hl58 := hl6.trans (hl7.trans hl8)
  have hc8 := hc.later (hl4.trans (hl5.trans hl58))
  rw [← hwidth] at hstarting1 haccd hedges
  have hshows : ({ c with starting := starting1, accepting := accepting, edges := edges } :
      SymbolicNfa).Shows w8.current (chained g₁ g₂ k) := by
    refine ⟨⟨hc8.home, hc8.states, ⟨hstarting1.1, hstarting1.2.later (hl24.trans (hl5.trans hl58))⟩,
      ⟨haccd, (haccepting.later hl58).congr fun v _ => ?_⟩, hedges⟩, hc8.few⟩
    rw [hempty]
    exact Iff.rfl
  exact filterLive_shows hl8.after hshows (hccount ▸ hbounded)

theorem reverse_yields (hw : w.current.WellFormed) (h : a.Shows w.current g) :
    Yields w a.reverse fun b m => b.stateCount = a.stateCount ∧ b.determinism = .unknown ∧
      b.Shows m g.reverse := by
  apply Runs.bind (Relation.transpose_yields (i := 0) (j := 2) (d := sourceBlock a.width)
    (e := destBlock a.width) hw h.edges.2 (by rw [h.edges.1]; rfl) (by rw [h.edges.1]; rfl)
    (by decide) rfl)
  rintro edges w1 hl1 ⟨hd, hedges⟩
  have h1 := h.later hl1
  have hed : edges.domains = edgeBlocks a.width := hd.trans h.edges.1
  refine Runs.pure hl1.after ⟨rfl, rfl, ⟨⟨h1.home, h1.states, h1.accepting, h1.starting, hed,
    hedges.congr fun ts hts => ?_⟩, h1.few⟩⟩
  rw [hed] at hts
  obtain ⟨p, c, q, rfl, -⟩ := forall₂_edgeBlocks.1 hts
  simp only [List.getElem?_cons_zero, List.getElem?_cons_succ, Option.some_inj, exists_and_left,
    exists_eq_left', List.set_cons_zero, List.set_cons_succ, edges_iff]
  exact Iff.rfl

end SymbolicNfa

end SymbolicAutomata
