import SymbolicAutomata.Proofs.Determinization
import SymbolicAutomata.Proofs.Matrices
/-!
# Explicit power-states

The subset construction on a matrix of labels holds a power-state as an ascending list and follows
it atom by atom. When the search ends, its matrix shows the sets of states that it found.
-/
namespace SymbolicAutomata

open Manager Bdd Layout SymbolicNfa

variable {w w' : Workspace} {m : Manager} {g : NFA Nat Nat} {n i j c : Nat} {S T : Set Nat}
  {Ss : List (Set Nat)} {D D' : Nat → Nat → Prop} {qs rs : List Nat}

/-- The list holds the numbers of the set, in ascending order. -/
structure Lists (S : Set Nat) (qs : List Nat) : Prop where
  ascending : qs.Pairwise (· < ·)
  mem_iff : ∀ q, q ∈ qs ↔ q ∈ S

theorem Lists.unique (h : Lists S qs) (h' : Lists S rs) : qs = rs := by
  have hnodup : ∀ {qs : List Nat}, Lists S qs → qs.Nodup := fun h =>
    h.ascending.imp fun hlt => Nat.ne_of_lt hlt
  have hperm := (List.perm_ext_iff_of_nodup (hnodup h) (hnodup h')).2 fun q =>
    (h.mem_iff q).trans (h'.mem_iff q).symm
  exact hperm.eq_of_pairwise (fun a b _ _ hab hba => by omega) h.ascending h'.ascending

theorem Lists.injective (h : Lists S qs) (h' : Lists T qs) : S = T := by
  ext q
  exact (h.mem_iff q).symm.trans (h'.mem_iff q)

def traced (g : NFA Nat Nat) (Ss : List (Set Nat)) (D : Nat → Nat → Prop) : NFA Nat Nat where
  step i c := {j | D i c ∧ j ∈ (subsets g Ss).step i c}
  start := (subsets g Ss).start
  accept := (subsets g Ss).accept

theorem traced_contained (hfirst : Ss[0]? = some S) : Contained (traced g Ss D) Ss.length where
  start i hi := by
    obtain rfl : i = 0 := hi
    exact (List.getElem?_eq_some_iff.1 hfirst).1
  source i c j := by
    rintro ⟨-, S, hS, -⟩
    exact (List.getElem?_eq_some_iff.1 hS).1
  target _ c j := by
    rintro ⟨-, S, -, hT⟩
    exact (List.getElem?_eq_some_iff.1 hT).1
  accept i := by
    rintro ⟨S, hS, -⟩
    exact (List.getElem?_eq_some_iff.1 hS).1

theorem mem_traced_accept_append {i : Nat} :
    i ∈ (traced g (Ss ++ [T]) D).accept ↔
      i ∈ (traced g Ss D).accept ∨ i = Ss.length ∧ ∃ q ∈ T, q ∈ g.accept := by
  constructor
  · rintro ⟨S, hS, hq⟩
    rcases Nat.lt_or_ge i Ss.length with hlt | hge
    · rw [List.getElem?_append_left hlt] at hS
      exact .inl ⟨S, hS, hq⟩
    · have hlast := (List.getElem?_eq_some_iff.1 hS).1
      rw [List.length_append, List.length_singleton] at hlast
      rw [List.getElem?_append_right hge] at hS
      obtain rfl := List.mem_singleton.1 (List.mem_of_getElem? hS)
      exact .inr ⟨by omega, hq⟩
  · rintro (⟨S, hS, hq⟩ | ⟨rfl, hq⟩)
    · have hi := (List.getElem?_eq_some_iff.1 hS).1
      exact ⟨S, by rwa [List.getElem?_append_left hi], hq⟩
    · exact ⟨T, by simp, hq⟩

/-- What the search keeps: the lists stand for different reached sets, the first for the starting
states, and the matrix has the moves of `D` between them. -/
structure Searched (m : Manager) (g : NFA Nat Nat) (Ss : List (Set Nat)) (D : Nat → Nat → Prop)
    (s : MatrixNfa.PowerSearch) : Prop where
  listed : List.Forall₂ Lists Ss s.found
  distinct : Ss.Nodup
  first : Ss[0]? = some g.start
  reached : ∀ S ∈ Ss, Reached g S
  followed_lt : ∀ i c, D i c → i < Ss.length
  closed : ∀ i S c, Ss[i]? = some S → c < letterCount → D i c → g.stepSet S c ∈ Ss
  count : s.automaton.stateCount = Ss.length
  square : s.automaton.Square
  shows : s.automaton.Shows m (traced g Ss D)

namespace Searched

variable {s : MatrixNfa.PowerSearch} {a b : MatrixNfa} {on : SymbolSet} {A : Nat → Prop}

theorem later (h : Searched w.current g Ss D s) (hl : w.Leads w') :
    Searched w'.current g Ss D s := { h with shows := h.shows.later hl }

theorem congr (h : Searched m g Ss D s) (hlt : ∀ i c, D' i c → i < Ss.length)
    (hD : ∀ i c, c < letterCount → (D i c ↔ D' i c)) : Searched m g Ss D' s where
  listed := h.listed
  distinct := h.distinct
  first := h.first
  reached := h.reached
  followed_lt := hlt
  closed i S c hS hc hD' := h.closed i S c hS hc ((hD i c hc).2 hD')
  count := h.count
  square := h.square
  shows := h.shows.congr (fun i _ c hc => and_congr_left fun _ => hD i c hc) rfl rfl

theorem length_eq (h : Searched m g Ss D s) : s.found.length = Ss.length :=
  h.listed.length_eq.symm

/-- The search holds fewer sets than there are. -/
theorem length_lt (h : Searched m g Ss D s) (hfew : ¬ ManyReached g n) : Ss.length < n := by
  by_contra hmany
  exact hfew ⟨Ss, h.distinct, h.reached, Nat.le_of_not_lt hmany⟩

theorem room (h : Searched m g Ss D s) (hT : T ∉ Ss) (hreached : Reached g T)
    (hfew : ¬ ManyReached g n) : Ss.length + 1 < n := by
  by_contra hmany
  refine hfew ⟨T :: Ss, List.nodup_cons.2 ⟨hT, h.distinct⟩,
    List.forall_mem_cons.2 ⟨hreached, h.reached⟩, ?_⟩
  rw [List.length_cons]
  omega

/-- The moves that have been followed lead to the old sets. -/
theorem mem_traced_step_append (h : Searched m g Ss D s) (hT : T ∉ Ss) (hc : c < letterCount) :
    j ∈ (traced g (Ss ++ [T]) D).step i c ↔ j ∈ (traced g Ss D).step i c := by
  refine and_congr_right fun hD => exists_congr fun S => ?_
  have hi := h.followed_lt i c hD
  rw [List.getElem?_append_left hi]
  refine and_congr_right fun hS => ?_
  have hmem := h.closed i S c hS hc hD
  constructor
  · intro hj
    by_cases hlt : j < Ss.length
    · rwa [List.getElem?_append_left hlt] at hj
    · rw [List.getElem?_append_right (by omega)] at hj
      have := List.mem_singleton.1 (List.mem_of_getElem? hj)
      exact absurd (this ▸ hmem) hT
  · intro hj
    rwa [List.getElem?_append_left (List.getElem?_eq_some_iff.1 hj).1]

theorem extend (h : Searched m g Ss D s) (hm : m.Canonical) (hT : T ∉ Ss) (hreached : Reached g T)
    (hqs : Lists T qs) (hfew : Ss.length + 1 < 2 ^ 32) {acc : Bool}
    (hacc : acc = true ↔ ∃ q ∈ T, q ∈ g.accept) :
    Searched m g (Ss ++ [T]) D ⟨s.found ++ [qs], (s.automaton.addState acc false).2⟩ where
  listed := List.rel_append h.listed (.cons hqs .nil)
  distinct := by
    rw [List.nodup_append_comm]
    exact List.nodup_cons.2 ⟨hT, h.distinct⟩
  first := by
    rw [List.getElem?_append_left (List.getElem?_eq_some_iff.1 h.first).1]
    exact h.first
  reached S hS := by
    rcases List.mem_append.1 hS with hS | hS
    · exact h.reached S hS
    · exact List.mem_singleton.1 hS ▸ hreached
  followed_lt i c hD := by
    rw [List.length_append]
    exact Nat.lt_add_right _ (h.followed_lt i c hD)
  closed i S c hS hc hD := by
    rw [List.getElem?_append_left (h.followed_lt i c hD)] at hS
    exact List.mem_append_left _ (h.closed i S c hS hc hD)
  count := by
    rw [MatrixNfa.stateCount_addState, h.count, List.length_append, List.length_singleton]
  square := h.square.addState
  shows := by
    have hcontained : Contained (traced g Ss D) s.automaton.stateCount := by
      rw [h.count]
      exact traced_contained h.first
    refine (MatrixNfa.addState_shows acc false h.shows hm h.square hcontained
      (by rw [h.count]; exact hfew)).congr (fun i j c hc => ?_) ?_ ?_
    · exact (h.mem_traced_step_append hT hc).symm
    · change {p | p ∈ (traced g Ss D).start ∨ false = true ∧ _} = (traced g Ss D).start
      ext i
      simp
    · ext i
      rw [mem_traced_accept_append, ← hacc]
      change (_ ∨ acc = true ∧ s.automaton.stateCount ≤ i ∧ i < s.automaton.stateCount + 1) ↔ _
      rw [h.count]
      exact or_congr_right ⟨fun hi => ⟨by omega, hi.1⟩, fun hi => ⟨hi.2, by omega, by omega⟩⟩

theorem connect_yields (h : Searched w.current g Ss D s) (hw : w.current.WellFormed)
    (hS : Ss[i]? = some S) (hT : Ss[j]? = some T) (hon : on.Shows w.current A)
    (hstep : ∀ c < letterCount, A c → g.stepSet S c = T) :
    Yields w (s.automaton.addEdge i on j) fun b m =>
      Searched m g Ss (fun i' c => D i' c ∨ i' = i ∧ A c) { s with automaton := b } := by
  have hi := (List.getElem?_eq_some_iff.1 hS).1
  have hj := (List.getElem?_eq_some_iff.1 hT).1
  apply (MatrixNfa.addEdge_yields hw h.shows h.square (by rw [h.count]; exact hi)
    (by rw [h.count]; exact hj) hon).imp
  rintro b w1 - ⟨hcount, -, -, hsquare, hb⟩
  refine ⟨h.listed, h.distinct, h.first, h.reached, ?_, ?_, hcount.trans h.count, hsquare,
    hb.congr (fun i' j' c hc => ?_) rfl rfl⟩
  · rintro i' c (hD | ⟨rfl, -⟩)
    · exact h.followed_lt i' c hD
    · exact hi
  · rintro i' S' c hS' hc (hD | ⟨rfl, hA⟩)
    · exact h.closed i' S' c hS' hc hD
    · obtain rfl := Option.some.inj (hS.symm.trans hS')
      rw [hstep c hc hA]
      exact List.mem_of_getElem? hT
  · constructor
    · rintro (⟨hD, hmove⟩ | ⟨rfl, hA, rfl⟩)
      · exact ⟨.inl hD, hmove⟩
      · exact ⟨.inr ⟨rfl, hA⟩, S, hS, by rw [hstep c hc hA]; exact hT⟩
    · rintro ⟨hD | ⟨rfl, hA⟩, S', hS', hj'⟩
      · exact .inl ⟨hD, S', hS', hj'⟩
      · obtain rfl := Option.some.inj (hS.symm.trans hS')
        rw [hstep c hc hA] at hj'
        exact .inr ⟨rfl, hA, (List.getElem?_inj hj h.distinct).1 (hT.trans hj'.symm) |>.symm⟩

end Searched

namespace MatrixNfa

variable {a : MatrixNfa} {s : PowerSearch} {on : SymbolSet} {atoms : List SymbolSet}
  {A : Nat → Prop} {As : List (Nat → Prop)} {number : Nat}

theorem Shows.meetsAccepting_iff (h : a.Shows m g) (hqs : Lists S qs) :
    a.meetsAccepting qs = true ↔ ∃ q ∈ S, q ∈ g.accept := by
  simp only [meetsAccepting, List.any_eq_true, List.contains_iff_mem, hqs.mem_iff, h.accepting]

section Search

variable (hw : w.current.WellFormed) (h : a.Shows w.current g) (hsquare : a.Square)
  (hg : Contained g a.stateCount)

include hw h hsquare hg

/-- From a reached set an atom leads where any of its letters leads. -/
theorem successors_lists (hS : Reached g S) (hqs : Lists S qs) (hon : on.Shows w.current A)
    (hc : c < letterCount) (hA : A c)
    (hstep : ∀ d < letterCount, A d → g.stepSet S d = g.stepSet S c) :
    Yields w (a.successors qs on) fun ts _ => Lists (g.stepSet S c) ts := by
  have hlt : ∀ q ∈ qs, q < a.stateCount := fun q hq =>
    hS.lt hg.toBounded q ((hqs.mem_iff q).1 hq)
  apply (successors_yields hw h hsquare hlt hon).imp
  rintro ts w1 - ⟨hascending, hmem⟩
  refine ⟨hascending, fun q => ?_⟩
  rw [hmem, NFA.mem_stepSet]
  constructor
  · rintro ⟨-, p, hp, d, hd, hAd, hq⟩
    have hqd : q ∈ g.stepSet S d := NFA.mem_stepSet.2 ⟨p, (hqs.mem_iff p).1 hp, hq⟩
    rw [hstep d hd hAd] at hqd
    exact NFA.mem_stepSet.1 hqd
  · rintro ⟨p, hp, hq⟩
    exact ⟨hg.target p c q hq, p, (hqs.mem_iff p).2 hp, c, hc, hA, hq⟩

variable (hfew : ¬ ManyReached g (2 ^ 32))

include hfew

/-- The states that an atom leads to are found, now or before, and the move is entered. -/
theorem follow_yields (hs : Searched w.current g Ss D s) (hS : Ss[number]? = some S)
    (hqs : Lists S qs) (hon : on.Shows w.current A) (hsome : ∃ c < letterCount, A c)
    (hsame : ∀ c < letterCount, ∀ d < letterCount, A c → A d → g.stepSet S c = g.stepSet S d) :
    Yields w (a.follow number qs s on) fun s' m => ∃ Ts, Ts[number]? = some S ∧
      Searched m g Ts (fun i c => D i c ∨ i = number ∧ A c) s' := by
  obtain ⟨c, hc, hA⟩ := hsome
  have hreachedS := hs.reached S (List.mem_of_getElem? hS)
  have hreached := hreachedS.step hc
  have hstep : ∀ d < letterCount, A d → g.stepSet S d = g.stepSet S c := fun d hd hAd =>
    hsame d hd c hc hAd hA
  apply Runs.bind (successors_lists hw h hsquare hg hreachedS hqs hon hc hA hstep)
  intro ts w1 hl1 hlists
  have hs1 := hs.later hl1
  cases hfound : s.found.idxOf? ts with
  | some q =>
    obtain ⟨hq, hts, -⟩ := List.idxOf?_eq_some_iff.1 hfound
    obtain ⟨T, hT, hTs⟩ := getElem?_left_of_forall₂ hs.listed (List.getElem?_eq_getElem hq)
    rw [hts] at hTs
    obtain rfl := hTs.injective hlists
    apply Runs.bind (hs1.connect_yields hl1.after hS hT (hon.later hl1) hstep)
    intro b w2 hl2 hb
    exact Runs.pure hl2.after ⟨Ss, hS, hb⟩
  | none =>
    have hnew : g.stepSet S c ∉ Ss := by
      intro hold
      obtain ⟨rs, hrs, hlists'⟩ := exists_right_of_forall₂ hs.listed _ hold
      obtain rfl := hlists'.unique hlists
      exact List.idxOf?_eq_none_iff.1 hfound hrs
    have hext := hs1.extend hl1.after.canonical hnew hreached hlists
      (hs.room hnew hreached hfew) (h.meetsAccepting_iff hlists)
    have hSnew : (Ss ++ [g.stepSet S c])[number]? = some S := by
      rw [List.getElem?_append_left (List.getElem?_eq_some_iff.1 hS).1]
      exact hS
    have hTnew : (Ss ++ [g.stepSet S c])[s.automaton.stateCount]? = some (g.stepSet S c) := by
      rw [hs.count]
      simp
    apply Runs.bind (hext.connect_yields hl1.after hSnew hTnew (hon.later hl1) hstep)
    intro b w2 hl2 hb
    exact Runs.pure hl2.after ⟨_, hSnew, hb⟩

theorem followAll_yields (hs : Searched w.current g Ss D s) (hS : Ss[number]? = some S)
    (hqs : Lists S qs) (hatoms : Labelled w.current As atoms)
    (hsome : ∀ A ∈ As, ∃ c < letterCount, A c)
    (hsame : ∀ A ∈ As, ∀ c < letterCount, ∀ d < letterCount, A c → A d →
      g.stepSet S c = g.stepSet S d) :
    Yields w (atoms.foldlM (a.follow number qs) s) fun s' m => ∃ Ts, Ts[number]? = some S ∧
      Searched m g Ts (fun i c => D i c ∨ i = number ∧ ∃ A ∈ As, A c) s' := by
  induction atoms generalizing w As Ss D s with
  | nil =>
    cases hatoms
    exact Runs.pure hw ⟨Ss, hS, hs.congr (by simpa using hs.followed_lt) (by simp)⟩
  | cons on atoms ih =>
    cases hatoms with
    | @cons A _ As _ hon hatoms =>
      rw [List.foldlM_cons]
      apply Runs.bind (follow_yields hw h hsquare hg hfew hs hS hqs hon (hsome A (.head _))
        (hsame A (.head _)))
      rintro s1 w1 hl1 ⟨Ts, hT, hs1⟩
      apply (ih hl1.after (h.later hl1) hs1 hT (Labelled.later hatoms hl1)
        (fun B hB => hsome B (.tail _ hB)) fun B hB => hsame B (.tail _ hB)).imp
      rintro s2 w2 - ⟨Us, hU, hs2⟩
      refine ⟨Us, hU, hs2.congr (fun i c hD => ?_) fun i c _ => ?_⟩
      · rcases hD with hD | ⟨rfl, -⟩
        · exact hs2.followed_lt i c (.inl (.inl hD))
        · exact (List.getElem?_eq_some_iff.1 hU).1
      · simp only [List.mem_cons, exists_eq_or_imp, or_assoc, and_or_left]

/-- The search goes on until every found set has been followed. -/
theorem followFrom_yields {fuel : Nat} (hs : Searched w.current g Ss (fun i _ => i < number) s)
    (hle : number ≤ Ss.length) (hfuel : 2 ^ 32 ≤ fuel + number) :
    Yields w (a.followFrom fuel number s) fun s' m => ∃ Ts,
      Searched m g Ts (fun i _ => i < Ts.length) s' := by
  have hlt := hs.length_lt hfew
  induction fuel generalizing w Ss s number with
  | zero => omega
  | succ fuel ih =>
    unfold followFrom
    cases hnext : s.found[number]? with
    | none =>
      have hge := List.getElem?_eq_none_iff.1 hnext
      rw [hs.length_eq] at hge
      obtain rfl : number = Ss.length := Nat.le_antisymm hle hge
      exact Runs.pure hw ⟨Ss, hs⟩
    | some qs =>
      obtain ⟨S, hS, hqs⟩ := getElem?_left_of_forall₂ hs.listed hnext
      have hSlt : ∀ q ∈ qs, q < a.stateCount := fun q hq =>
        (hs.reached S (List.mem_of_getElem? hS)).lt hg.toBounded q ((hqs.mem_iff q).1 hq)
      obtain ⟨Ls, hLs, htell⟩ := labels_shown h hw.canonical hsquare hSlt hg.toBounded
      apply Runs.bind (atoms_yields hw hLs)
      rintro atoms w1 hl1 ⟨As, hAs, hatomic⟩
      have hsame : ∀ A ∈ As, ∀ c < letterCount, ∀ d < letterCount, A c → A d →
          g.stepSet S c = g.stepSet S d := fun A hA c hc d hd =>
        stepSet_eq_of_atomic hatomic hA
          (fun p hp => htell p ((hqs.mem_iff p).2 hp)) hc hd
      apply Runs.bind (followAll_yields hl1.after (h.later hl1) hsquare hg hfew (hs.later hl1) hS
        hqs hAs hatomic.inhabited hsame)
      rintro s1 w2 hl2 ⟨Ts, hT, hs1⟩
      have hTlt := (List.getElem?_eq_some_iff.1 hT).1
      have hs2 : Searched w2.current g Ts (fun i _ => i < number + 1) s1 := by
        refine hs1.congr (fun i _ hi => by omega) fun i c hc => ?_
        constructor
        · rintro (hi | ⟨rfl, -⟩) <;> omega
        · intro hi
          rcases Nat.lt_or_eq_of_le (Nat.le_of_lt_succ hi) with hi | rfl
          · exact .inl hi
          · exact .inr ⟨rfl, hatomic.covers c hc⟩
      exact ih hl2.after (h.later (hl1.trans hl2)) hs2 hTlt (by omega) (hs2.length_lt hfew)

end Search

theorem empty_yields (hw : w.current.WellFormed) :
    Yields w MatrixNfa.empty fun b m => b.stateCount = 0 ∧ b.starting = [] ∧ b.accepting = [] ∧
      b.Square ∧ b.Shows m bare := by
  refine .ask_bind rfl (Runs.pure hw ⟨rfl, rfl, rfl, fun p row hrow => by simp at hrow, rfl,
    Nat.two_pow_pos 32, ?_, ?_, ?_⟩)
  · intro p hp
    exact absurd hp (Nat.not_lt_zero p)
  · exact fun q => iff_of_false List.not_mem_nil id
  · exact fun q => iff_of_false List.not_mem_nil id

theorem searched_start {b : MatrixNfa} {acc : Bool} (hcount : b.stateCount = 0)
    (hsquare : b.Square) (hb : b.Shows m bare) (hm : m.Canonical) (hqs : Lists g.start qs)
    (hacc : acc = true ↔ ∃ q ∈ g.start, q ∈ g.accept) :
    Searched m g [g.start] (fun i _ => i < 0) ⟨[qs], (b.addState acc true).2⟩ where
  listed := .cons hqs .nil
  distinct := List.nodup_singleton _
  first := rfl
  reached S hS := List.mem_singleton.1 hS ▸ .start
  followed_lt i _ hi := absurd hi (Nat.not_lt_zero i)
  closed i _ _ _ _ hi := absurd hi (Nat.not_lt_zero i)
  count := by
    rw [stateCount_addState, hcount]
    rfl
  square := hsquare.addState
  shows := by
    refine (addState_shows acc true hb hm hsquare (bare_contained _)
      (by rw [hcount]; decide)).congr (fun i j c _ => ?_) ?_ ?_
    · exact iff_of_false id fun hmove => Nat.not_lt_zero i hmove.1
    · ext i
      change False ∨ true = true ∧ b.stateCount ≤ i ∧ i < b.stateCount + 1 ↔ i = 0
      rw [hcount, false_or, and_iff_right rfl]
      omega
    · ext i
      change False ∨ acc = true ∧ b.stateCount ≤ i ∧ i < b.stateCount + 1 ↔
        ∃ S, [g.start][i]? = some S ∧ ∃ q ∈ S, q ∈ g.accept
      rw [hcount, false_or]
      constructor
      · rintro ⟨hyes, -, hi⟩
        obtain rfl := Nat.lt_one_iff.1 hi
        exact ⟨g.start, rfl, hacc.1 hyes⟩
      · rintro ⟨S, hS, hq⟩
        have hi := (List.getElem?_eq_some_iff.1 hS).1
        obtain rfl := List.mem_singleton.1 (List.mem_of_getElem? hS)
        exact ⟨hacc.2 hq, Nat.zero_le i, hi⟩

/-- The subset construction numbers the reached sets in the order in which it finds them. -/
theorem determinize_yields (hw : w.current.WellFormed) (h : a.Shows w.current g)
    (hsquare : a.Square) (hascending : a.starting.Pairwise (· < ·))
    (hg : Contained g a.stateCount) (hfew : ¬ ManyReached g (2 ^ 32)) :
    Yields w a.determinize fun b m =>
      (∀ p, p ∉ g.start) ∧ b.stateCount = 0 ∧ b.Shows m bare ∨
      (∃ p, p ∈ g.start) ∧ ∃ Ss, Family g Ss ∧ (∀ S ∈ Ss, Reached g S) ∧
        b.stateCount = Ss.length ∧ b.Shows m (subsets g Ss) := by
  have hstart : Lists g.start a.starting := ⟨hascending, h.starting⟩
  apply Runs.bind (empty_yields hw)
  rintro blank w1 hl1 ⟨hcount, -, -, hblank, hbare⟩
  have h1 := h.later hl1
  by_cases hempty : a.starting.isEmpty = true
  · rw [if_pos hempty]
    refine Runs.pure hl1.after (.inl ⟨fun p hp => ?_, hcount, hbare⟩)
    rw [List.isEmpty_iff.1 hempty] at hstart
    exact List.not_mem_nil ((hstart.mem_iff p).2 hp)
  · rw [if_neg hempty]
    have hsome : ∃ p, p ∈ g.start := by
      obtain ⟨p, hp⟩ := List.exists_mem_of_ne_nil _ (mt List.isEmpty_iff.2 hempty)
      exact ⟨p, (hstart.mem_iff p).1 hp⟩
    have hs := searched_start hcount hblank hbare hl1.after.canonical hstart
      (h1.meetsAccepting_iff hstart)
    apply Runs.bind (followFrom_yields hl1.after h1 hsquare hg hfew hs (Nat.zero_le _) (by simp))
    rintro s w2 hl2 ⟨Ss, hs⟩
    refine Runs.pure hl2.after (.inr ⟨hsome, Ss, ⟨hs.first, hs.distinct, fun S hS c hc => ?_⟩,
      hs.reached, hs.count, hs.shows.congr (fun i j c _ => ?_) rfl rfl⟩)
    · obtain ⟨i, hi⟩ := List.mem_iff_getElem?.1 hS
      exact hs.closed i S c hi hc (List.getElem?_eq_some_iff.1 hi).1
    · refine and_iff_right_of_imp ?_
      rintro ⟨S, hS, -⟩
      exact (List.getElem?_eq_some_iff.1 hS).1

end MatrixNfa

end SymbolicAutomata
