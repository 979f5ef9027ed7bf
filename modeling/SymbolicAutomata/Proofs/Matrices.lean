import SymbolicAutomata.Proofs.Atoms
import SymbolicAutomata.Proofs.Growth
/-!
# Matrices of labels

A state added to a square matrix has no edges. The labels of some rows tell which states lie one
letter away from theirs, and no letter of an atom of these labels leads elsewhere than another one.
-/
namespace SymbolicAutomata

open Manager Bdd Layout SymbolicNfa

variable {w : Workspace} {m : Manager} {g : NFA Nat Nat} {p q i j : Nat} {S : Set Nat}
  {L : Nat → Prop}

namespace MatrixNfa

variable {a : MatrixNfa} {on : SymbolSet}

/-- Each row has one label for each state. -/
def Square (a : MatrixNfa) : Prop :=
  ∀ (p : Nat) (row : Array SymbolSet), a.rows[p]? = some row → row.size = a.stateCount

theorem Shows.congr {g' : NFA Nat Nat} (h : a.Shows m g)
    (hstep : ∀ p q c, c < letterCount → (q ∈ g.step p c ↔ q ∈ g'.step p c))
    (hstart : g.start = g'.start) (haccept : g.accept = g'.accept) : a.Shows m g' where
  home := h.home
  few := h.few
  labels p hp q hq := by
    obtain ⟨on, hedge, hon⟩ := h.labels p hp q hq
    exact ⟨on, hedge, hon.congr fun c hc => hstep p q c hc⟩
  starting := hstart ▸ h.starting
  accepting := haccept ▸ h.accepting

theorem edge_eq_ok_iff :
    a.edge p q = .ok on ↔ ∃ row, a.rows[p]? = some row ∧ row[q]? = some on := by
  unfold edge
  cases a.rows[p]? with
  | none => simp
  | some row => cases hq : row[q]? <;> simp [hq]

section AddState

variable {accepting starting : Bool}

theorem stateCount_addState : (a.addState accepting starting).2.stateCount = a.stateCount + 1 := by
  simp [addState, stateCount]

theorem rows_addState : (a.addState accepting starting).2.rows =
    (a.rows.map (·.push (.empty a.manager))).push
      (Array.replicate (a.stateCount + 1) (.empty a.manager)) := rfl

theorem Square.addState (h : a.Square) : (a.addState accepting starting).2.Square := by
  intro p row hrow
  rw [stateCount_addState]
  rw [rows_addState, Array.getElem?_push] at hrow
  split_ifs at hrow with hp
  · obtain rfl := Option.some.inj hrow
    exact Array.size_replicate
  · rw [Array.getElem?_map] at hrow
    obtain ⟨row', hrow', rfl⟩ := Option.map_eq_some_iff.1 hrow
    rw [Array.size_push, h p row' hrow']

theorem Square.edge_addState (h : a.Square) (hp : p ≤ a.stateCount) (hq : q ≤ a.stateCount) :
    (a.addState accepting starting).2.edge p q =
      if p < a.stateCount ∧ q < a.stateCount then a.edge p q else .ok (.empty a.manager) := by
  have hsize : a.rows.size = a.stateCount := rfl
  unfold edge
  rw [rows_addState, Array.getElem?_push, Array.size_map, hsize]
  rcases Nat.lt_or_eq_of_le hp with hlt | rfl
  · obtain ⟨row, hrow⟩ : ∃ row, a.rows[p]? = some row := ⟨_, Array.getElem?_eq_getElem hlt⟩
    have hlen := h p row hrow
    rw [if_neg (by omega), Array.getElem?_map, hrow]
    simp only [Option.map_some, Array.getElem?_push, hlen]
    rcases Nat.lt_or_eq_of_le hq with hlt' | rfl
    · rw [if_neg (by omega), if_pos ⟨hlt, hlt'⟩]
    · simp
  · rw [if_pos rfl, if_neg (by omega)]
    simp only [Array.getElem?_replicate]
    rw [if_pos (by omega)]

theorem addState_shows (accepting starting : Bool) (h : a.Shows m g) (hm : m.Canonical)
    (hsquare : a.Square) (hg : Contained g a.stateCount) (hfew : a.stateCount + 1 < 2 ^ 32) :
    (a.addState accepting starting).2.Shows m
      (enlarge g a.stateCount (a.stateCount + 1) accepting starting) where
  home := h.home
  few := stateCount_addState ▸ hfew
  labels p hp q hq := by
    rw [stateCount_addState] at hp hq
    rw [hsquare.edge_addState (by omega) (by omega)]
    split_ifs with hpq
    · exact h.labels p hpq.1 q hpq.2
    · refine ⟨_, rfl, ?_⟩
      rw [h.home]
      refine (SymbolSet.empty_shows hm).congr fun c _ => (iff_of_false id fun hstep => hpq ?_)
      exact ⟨hg.source p c q hstep, hg.target p c q hstep⟩
  starting q := by
    change q ∈ (if starting then a.starting ++ [a.stateCount] else a.starting) ↔
      q ∈ g.start ∨ starting = true ∧ a.stateCount ≤ q ∧ q < a.stateCount + 1
    cases starting with
    | true =>
      rw [if_pos rfl, List.mem_append, List.mem_singleton, h.starting]
      exact or_congr_right ⟨fun hq => ⟨rfl, by omega⟩, fun hq => by omega⟩
    | false => simp [h.starting]
  accepting q := by
    change q ∈ (if accepting then a.accepting ++ [a.stateCount] else a.accepting) ↔
      q ∈ g.accept ∨ accepting = true ∧ a.stateCount ≤ q ∧ q < a.stateCount + 1
    cases accepting with
    | true =>
      rw [if_pos rfl, List.mem_append, List.mem_singleton, h.accepting]
      exact or_congr_right ⟨fun hq => ⟨rfl, by omega⟩, fun hq => by omega⟩
    | false => simp [h.accepting]

end AddState

section AddEdge

variable {label : SymbolSet}

def relabel (a : MatrixNfa) (p q : Nat) (label : SymbolSet) : MatrixNfa :=
  { a with rows := a.rows.modify p (·.setIfInBounds q label) }

theorem stateCount_relabel : (a.relabel p q label).stateCount = a.stateCount := by
  simp [relabel, stateCount]

theorem Square.relabel (h : a.Square) : (a.relabel p q label).Square := by
  intro i row hrow
  rw [stateCount_relabel]
  simp only [MatrixNfa.relabel, Array.getElem?_modify] at hrow
  split_ifs at hrow with hp
  · obtain ⟨row', hrow', rfl⟩ := Option.map_eq_some_iff.1 hrow
    rw [Array.size_setIfInBounds, h i row' hrow']
  · exact h i row hrow

theorem Square.edge_relabel (h : a.Square) (hi : i < a.stateCount) (hj : j < a.stateCount) :
    (a.relabel p q label).edge i j = if i = p ∧ j = q then .ok label else a.edge i j := by
  obtain ⟨row, hrow⟩ : ∃ row, a.rows[i]? = some row := ⟨_, Array.getElem?_eq_getElem hi⟩
  have hlen := h i row hrow
  unfold edge
  simp only [MatrixNfa.relabel, Array.getElem?_modify]
  by_cases hp : p = i
  · subst hp
    by_cases hq : q = j
    · subst hq
      rw [if_pos rfl, if_pos ⟨rfl, rfl⟩, hrow]
      simp [hlen, hj]
    · rw [if_pos rfl, if_neg (by omega), hrow]
      simp [hq]
  · rw [if_neg hp, if_neg (by omega)]

theorem addEdge_yields (hw : w.current.WellFormed) (h : a.Shows w.current g) (hsquare : a.Square)
    (hp : p < a.stateCount) (hq : q < a.stateCount) (hon : on.Shows w.current L) :
    Yields w (a.addEdge p on q) fun b m => b.stateCount = a.stateCount ∧
      b.starting = a.starting ∧ b.accepting = a.accepting ∧ b.Square ∧
      b.Shows m (connect g (· = p) L (· = q)) := by
  obtain ⟨label, hedge, hlabel⟩ := h.labels p hp q hq
  unfold addEdge
  simp only []
  rw [if_neg (by omega)]
  apply Runs.lift_bind hedge
  apply Runs.bind (SymbolSet.union_yields hlabel hon hw)
  intro both w1 hl1 hboth
  have h1 := h.later hl1
  refine Runs.pure hl1.after ⟨stateCount_relabel, rfl, rfl, hsquare.relabel, ?_⟩
  change (a.relabel p q both).Shows w1.current (connect g (· = p) L (· = q))
  refine ⟨h1.home, ?_, fun i hi j hj => ?_, h1.starting, h1.accepting⟩
  · rw [stateCount_relabel]
    exact h1.few
  · rw [stateCount_relabel] at hi hj
    rw [hsquare.edge_relabel hi hj]
    split_ifs with hij
    · obtain ⟨rfl, rfl⟩ := hij
      refine ⟨_, rfl, hboth.congr fun c _ => or_congr_right ?_⟩
      exact ⟨fun hc => ⟨rfl, hc, rfl⟩, fun hc => hc.2.1⟩
    · obtain ⟨on', hedge', hon'⟩ := h1.labels i hi j hj
      refine ⟨on', hedge', hon'.congr fun c _ => (or_iff_left ?_).symm⟩
      exact fun hc => hij ⟨hc.1, hc.2.2⟩

end AddEdge

section Rows

variable {qs : List Nat} {atom : SymbolSet} {A : Nat → Prop}

theorem rowsOf_forall₂ (hqs : ∀ q ∈ qs, q < a.stateCount) :
    List.Forall₂ (fun p row => ∃ r, a.rows[p]? = some r ∧ row = r.toList) qs (a.rowsOf qs) := by
  induction qs with
  | nil => exact .nil
  | cons q qs ih =>
    obtain ⟨r, hr⟩ : ∃ r, a.rows[q]? = some r :=
      ⟨_, Array.getElem?_eq_getElem (hqs q (List.mem_cons_self ..))⟩
    have hrest := ih fun p hp => hqs p (List.mem_cons_of_mem _ hp)
    have hrows : a.rowsOf (q :: qs) = r.toList :: a.rowsOf qs := by simp [rowsOf, hr]
    rw [hrows]
    exact .cons ⟨r, hr, rfl⟩ hrest

theorem Shows.label_shows {r : Array SymbolSet} (h : a.Shows m g) (hsquare : a.Square)
    (hr : a.rows[p]? = some r) (hon : r[q]? = some on) :
    q < a.stateCount ∧ on.Shows m (q ∈ g.step p ·) := by
  have hp : p < a.stateCount := (Array.getElem?_eq_some_iff.1 hr).1
  have hq : q < a.stateCount := by
    rw [← hsquare p r hr]
    exact (Array.getElem?_eq_some_iff.1 hon).1
  obtain ⟨on', hedge, hon'⟩ := h.labels p hp q hq
  obtain rfl := Except.ok.inj ((edge_eq_ok_iff.2 ⟨r, hr, hon⟩).symm.trans hedge)
  exact ⟨hq, hon'⟩

theorem rowHits_yields {r : Array SymbolSet} (hw : w.current.WellFormed)
    (h : a.Shows w.current g) (hsquare : a.Square) (hr : a.rows[p]? = some r)
    (hatom : atom.Shows w.current A) :
    Yields w (r.toList.zipIdx.filterMapM fun (on, q) => do
      return if (← on.inter atom).isEmpty then none else some q) fun hs _ =>
        ∀ q, q ∈ hs ↔ q < a.stateCount ∧ Hop g A .forward p q := by
  classical
  rw [filterMapM_eq]
  apply Runs.bind (mapM_mem_yields (Q := fun (x : SymbolSet × Nat) o _ =>
    o = if Hop g A .forward p x.2 then some x.2 else none) hw ?_
    fun _ _ _ _ _ h => h)
  · rintro os w1 hl1 ⟨hto, hfrom⟩
    refine Runs.pure hl1.after fun q => ?_
    rw [List.reduceOption_mem_iff]
    constructor
    · intro hq
      obtain ⟨⟨on, q'⟩, hx, ho⟩ := hfrom _ hq
      split_ifs at ho with hc
      obtain rfl := Option.some.inj ho
      rw [List.mem_zipIdx_iff_getElem?, Array.getElem?_toList] at hx
      exact ⟨(h.label_shows hsquare hr hx).1, hc⟩
    · rintro ⟨hq, hc⟩
      obtain ⟨on, hon⟩ : ∃ on, r[q]? = some on :=
        ⟨_, Array.getElem?_eq_getElem (by rw [hsquare p r hr]; exact hq)⟩
      obtain ⟨o, ho, rfl⟩ := hto (on, q) (List.mem_zipIdx_iff_getElem?.2 (by simpa using hon))
      rwa [if_pos hc] at ho
  · rintro ⟨on, q⟩ hx w1 hl1
    rw [List.mem_zipIdx_iff_getElem?, Array.getElem?_toList] at hx
    have hon := ((h.later hl1).label_shows hsquare hr hx).2
    apply Runs.bind (SymbolSet.inter_yields hon (hatom.later hl1) hl1.after)
    intro both w2 hl2 hboth
    refine Runs.pure hl2.after ?_
    have hempty := hboth.isEmpty_iff hl2.after.canonical
    by_cases hc : Hop g A .forward p q
    · have hsome : ¬ both.isEmpty = true := by
        obtain ⟨c, hlt, hA, hstep⟩ := hc
        exact fun hnone => hempty.1 hnone c hlt ⟨hstep, hA⟩
      rw [if_neg hsome, if_pos hc]
    · have hnone : both.isEmpty = true := hempty.2 fun c hlt hboth =>
        hc ⟨c, hlt, hboth.2, hboth.1⟩
      rw [if_pos hnone, if_neg hc]

theorem successors_yields (hw : w.current.WellFormed) (h : a.Shows w.current g)
    (hsquare : a.Square) (hqs : ∀ q ∈ qs, q < a.stateCount) (hatom : atom.Shows w.current A) :
    Yields w (a.successors qs atom) fun ts _ => ts.Pairwise (· < ·) ∧
      ∀ q, q ∈ ts ↔ q < a.stateCount ∧ ∃ p ∈ qs, Hop g A .forward p q := by
  apply Runs.bind (mapM_yields (Q := fun p hs _ =>
    ∀ q, q ∈ hs ↔ q < a.stateCount ∧ Hop g A .forward p q) hw
    (List.Forall₂.imp ?_ (rowsOf_forall₂ hqs)) fun _ _ _ _ _ h => h)
  · intro hits w1 hl1 hhits
    refine Runs.pure hl1.after ⟨List.pairwise_lt_range.filter _, fun q => ?_⟩
    rw [List.mem_filter, List.mem_range, List.contains_iff_mem, List.mem_flatten]
    refine and_congr_right fun hq => ?_
    constructor
    · rintro ⟨hs, hmem, hqs'⟩
      obtain ⟨p, hp, hiff⟩ := exists_left_of_forall₂ hhits hs hmem
      exact ⟨p, hp, ((hiff q).1 hqs').2⟩
    · rintro ⟨p, hp, hc⟩
      obtain ⟨hs, hmem, hiff⟩ := exists_right_of_forall₂ hhits p hp
      exact ⟨hs, hmem, (hiff q).2 ⟨hq, hc⟩⟩
  · rintro p _ ⟨r, hr, rfl⟩ w1 hl1
    exact rowHits_yields hl1.after (h.later hl1) hsquare hr (hatom.later hl1)

/-- The labels that the atoms are made of tell the letters of every edge. -/
theorem labels_shown (h : a.Shows m g) (hm : m.Canonical) (hsquare : a.Square)
    (hqs : ∀ q ∈ qs, q < a.stateCount) (hg : Bounded g a.stateCount) :
    ∃ Ls, Labelled m Ls ((a.rowsOf qs).flatten.filter (!·.isEmpty)) ∧ ∀ p ∈ qs, ∀ q c,
      c < letterCount → q ∈ g.step p c →
        ∃ L ∈ Ls, ∀ d < letterCount, L d ↔ q ∈ g.step p d := by
  have hrows := rowsOf_forall₂ hqs
  have hshown : ∀ on ∈ (a.rowsOf qs).flatten.filter (!·.isEmpty), ∃ L, on.Shows m L := by
    intro on hon
    obtain ⟨row, hrow, hon⟩ := List.mem_flatten.1 (List.mem_filter.1 hon).1
    obtain ⟨p, -, r, hr, rfl⟩ := exists_left_of_forall₂ hrows row hrow
    obtain ⟨q, hq⟩ := List.mem_iff_getElem?.1 hon
    rw [Array.getElem?_toList] at hq
    exact ⟨_, (h.label_shows hsquare hr hq).2⟩
  obtain ⟨Ls, hLs⟩ := exists_labelled hshown
  refine ⟨Ls, hLs, fun p hp q c hc hstep => ?_⟩
  obtain ⟨on, hedge, hon⟩ := h.labels p (hqs p hp) q (hg.target p c q hstep)
  obtain ⟨r, hr, hrq⟩ := edge_eq_ok_iff.1 hedge
  have hmem : on ∈ (a.rowsOf qs).flatten.filter (!·.isEmpty) := by
    obtain ⟨row, hrow, r', hr', rfl⟩ := exists_right_of_forall₂ hrows p hp
    obtain rfl := Option.some.inj (hr.symm.trans hr')
    have hflat : on ∈ (a.rowsOf qs).flatten :=
      List.mem_flatten.2 ⟨_, hrow, List.mem_of_getElem? (by simpa using hrq)⟩
    refine List.mem_filter.2 ⟨hflat, ?_⟩
    rw [Bool.not_eq_true', ← Bool.not_eq_true, hon.isEmpty_iff hm]
    exact fun hnone => hnone c hc hstep
  obtain ⟨L, hL, hon'⟩ := exists_left_of_forall₂ hLs on hmem
  exact ⟨L, hL, fun d hd => hon'.letter_iff hon hd⟩

/-- All letters of an atom lead to the same states. -/
theorem stepSet_eq_of_atomic {Ls As : List (Nat → Prop)} {c d : Nat}
    (h : Atomic (Set.Iio letterCount) Ls As) (hA : A ∈ As)
    (htell : ∀ p ∈ S, ∀ q c, c < letterCount → q ∈ g.step p c →
      ∃ L ∈ Ls, ∀ d < letterCount, L d ↔ q ∈ g.step p d)
    (hc : c < letterCount) (hd : d < letterCount) (hAc : A c) (hAd : A d) :
    g.stepSet S c = g.stepSet S d := by
  have hsub : ∀ {c d : Nat}, c < letterCount → d < letterCount → A c → A d →
      g.stepSet S c ⊆ g.stepSet S d := by
    intro c d hc hd hAc hAd q hq
    obtain ⟨p, hp, hstep⟩ := NFA.mem_stepSet.1 hq
    obtain ⟨L, hL, hLd⟩ := htell p hp q c hc hstep
    have hiff := h.label_iff hA hL hc hd hAc hAd
    exact NFA.mem_stepSet.2 ⟨p, hp, (hLd d hd).1 (hiff.1 ((hLd c hc).2 hstep))⟩
  exact Set.Subset.antisymm (hsub hc hd hAc hAd) (hsub hd hc hAd hAc)

end Rows

end MatrixNfa

end SymbolicAutomata
