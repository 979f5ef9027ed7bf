import SymbolicAutomata.Proofs.Lookups
/-!
# Added states

When states are added the sets and the edges may get wider domains. The old states keep their edges
and their places in the sets, and the new states are in the sets that they were asked for and have
no edges.
-/
namespace SymbolicAutomata

open Manager Bdd Layout

variable {lo hi p : Nat} {S : Set Nat} {b : Bool}

theorem mem_or_added_of_lt (hp : p < lo) : (p ∈ S ∨ b = true ∧ lo ≤ p ∧ p < hi) ↔ p ∈ S :=
  or_iff_left fun h => Nat.not_lt_of_le h.2.1 hp

theorem mem_or_added_of_le (hS : ∀ p ∈ S, p < lo) (hlo : lo ≤ p) (hhi : p < hi) :
    (p ∈ S ∨ b = true ∧ lo ≤ p ∧ p < hi) ↔ b = true := by
  have hold : p ∉ S := fun h => Nat.not_lt_of_le hlo (hS p h)
  exact (or_iff_right hold).trans (and_iff_left ⟨hlo, hhi⟩)

namespace SymbolicNfa

variable {w w₁ : Workspace} {a b : SymbolicNfa} {m : Manager} {s : ValueSet} {k n v : Nat}
  {P : Nat → Prop} {accepting starting : Bool}

theorem contains_eq_ok (hs : s.domain = sourceBlock k ∧ s.Shows m P) (hm : m.Canonical)
    (hk : k ≤ 32) (hv : v < 2 ^ k) {r : Bool} (hP : P v ↔ r = true) :
    s.contains v m = .ok r := by
  obtain ⟨r', hr', hiff⟩ := contains_sourceBlock_spec hs hm hk hv
  have hsame : r' = r := Bool.eq_iff_iff.2 (hiff.trans hP)
  exact hsame ▸ hr'

/-- One state is added as several are. -/
theorem addState_of_increase (hn : a.stateCount + 1 < 2 ^ 32)
    (h : a.increase (a.stateCount + 1) accepting starting w = .ok b w₁) :
    a.addState accepting starting w = .ok (a.stateCount, b) w₁ := by
  have hfits : fits 32 (a.stateCount + 1) = .ok (a.stateCount + 1) := fits_eq_ok_iff.2 ⟨hn, rfl⟩
  unfold addState
  rw [hfits]
  exact bind_of_ok h

/-- States are added until there are `n`, with no regard to how many bits the state numbers need
before and after. The old states are in the same sets as before, the new ones in those that they
were asked for. The edges are the old ones: between old states a lookup returns what it has returned
before, and it finds no letter at a new state. -/
theorem increase_of_wellFormed (hw : w.current.WellFormed) (ha : a.WellFormed w.current)
    (hlt : a.stateCount < n) (hn : n < 2 ^ 32) (accepting starting : Bool) :
    ∃ b w₁, a.increase n accepting starting w = .ok b w₁ ∧ w.Leads w₁ ∧
      (n = a.stateCount + 1 → a.addState accepting starting w = .ok (a.stateCount, b) w₁) ∧
      b.stateCount = n ∧ b.WellFormed w₁.current ∧
      (∀ p < a.stateCount, SameFlags a w.current p b w₁.current p) ∧
      (∀ p, a.stateCount ≤ p → p < n → b.starting.contains p w₁.current = .ok starting ∧
        b.accepting.contains p w₁.current = .ok accepting) ∧
      (∀ p x q, b.HasEdge w₁.current p x q ↔ a.HasEdge w.current p x q) ∧
      ∀ w₂, w₁.Leads w₂ → ∀ p < n, ∀ q < n, ∃ on w₃, b.edge p q w₂ = .ok on w₃ ∧
        (∀ on', a.Found w₂ p q on' → on' = on) ∧
        (a.stateCount ≤ p ∨ a.stateCount ≤ q → on.isEmpty = true) := by
  obtain ⟨g, h, hg⟩ := ha.shown
  have hgb : Contained (enlarge g a.stateCount n accepting starting) n :=
    hg.enlarge (Nat.le_of_lt hlt)
  have hgrown : Yields w (a.increase n accepting starting) fun b m => b.stateCount = n ∧
      b.determinism = .unknown ∧ b.Shows m (enlarge g a.stateCount n accepting starting) :=
    increase_yields hw h hg hlt hn
  obtain ⟨b, w₁, hrun, hl, rfl, hflag, hb⟩ := yields_iff.1 hgrown
  have hc := hw.canonical
  have hc₁ := hl.after.canonical
  refine ⟨b, w₁, hrun, hl, fun hone => addState_of_increase (hone ▸ hn) (hone ▸ hrun), rfl,
    ⟨⟨_, hb, hgb⟩, honest_of_unknown hflag⟩, fun p hp => ?old, fun p hlo hhi => ?new,
    fun p x q => ?edges, fun w₂ hl₂ p hp q hq => ?lookup⟩
  case old =>
    exact h.sameFlags hb hc hc₁ hp (Nat.lt_trans hp hlt) (mem_or_added_of_lt hp)
      (mem_or_added_of_lt hp)
  case new =>
    have hroom : p < 2 ^ b.width := Nat.lt_of_lt_of_le hhi b.count_le_two_pow_width
    constructor
    · exact contains_eq_ok hb.starting hc₁ hb.width_le hroom (mem_or_added_of_le hg.start hlo hhi)
    · exact contains_eq_ok hb.accepting hc₁ hb.width_le hroom
        (mem_or_added_of_le hg.accept hlo hhi)
  case edges =>
    rw [hb.hasEdge_code_iff hc₁ hgb.toBounded, h.hasEdge_code_iff hc hg.toBounded]
    rfl
  case lookup =>
    obtain ⟨on, w₃, hedge, hl₃, hon, hfound⟩ := (hb.later hl₂).edge_found
      (h.later (hl.trans hl₂)) hl₂.after hp hq (p := p) (q := q) fun c _ => Iff.rfl
    refine ⟨on, w₃, hedge, hfound, fun hnew => ?_⟩
    refine (hon.isEmpty_iff hl₃.after.canonical).2 fun c _ hstep => ?_
    have hsource := hg.source p c q hstep
    have htarget := hg.target p c q hstep
    omega

/-- Two states become five, whose numbers need two bits more. The edge between the old ones was
looked up before. -/
theorem increase_of_wellFormed_draw : ∃ m a w on w₀ b w₁, Manager.new 0 1 1 = .ok m ∧
    draw 2 [0] [1] [(0, 1)] ⟨m, []⟩ = .ok a w ∧ a.edge 0 1 w = .ok on w₀ ∧
    a.increase 5 true false w₀ = .ok b w₁ ∧ b.stateCount = 5 ∧
    b.starting.contains 4 w₁.current = .ok false ∧ b.accepting.contains 4 w₁.current = .ok true ∧
    (∃ w₂, b.edge 0 1 w₁ = .ok on w₂) ∧
    ∃ on' w₂, b.edge 1 4 w₁ = .ok on' w₂ ∧ on'.isEmpty = true := by
  obtain ⟨m, hm⟩ : ∃ m, Manager.new 0 1 1 = .ok m := ⟨_, rfl⟩
  obtain ⟨a, w, ha, hl, hcount, -, hshows, -, hwell⟩ :=
    draw_wellFormed 2 [0] [1] [(0, 1)] hm (by decide) (by decide) (by decide) (by decide)
  obtain ⟨on, w₀, hedge, hl₀, -⟩ :=
    yields_iff.1 (hshows.edge_yields hl.after (p := 0) (q := 1) (by omega) (by omega))
  obtain ⟨b, w₁, hrun, hl₁, -, hn, -, -, hnew, -, hlookup⟩ := increase_of_wellFormed (n := 5)
    hl₀.after (hwell.later hl₀) (by omega) (by decide) true false
  obtain ⟨hstarting, haccepting⟩ := hnew 4 (by omega) (by decide)
  obtain ⟨on', w₂, hedge', hfound, -⟩ :=
    hlookup w₁ (.refl hl₁.after) 0 (by decide) 1 (by decide)
  obtain rfl : on = on' := hfound on ⟨w, w₀, hl.after, hwell, hedge, hl₁⟩
  obtain ⟨on', w₃, hnone, -, hempty⟩ := hlookup w₁ (.refl hl₁.after) 1 (by decide) 4 (by decide)
  exact ⟨m, a, w, on, w₀, b, w₁, hm, ha, hedge, hrun, hn, hstarting, haccepting, ⟨w₂, hedge'⟩,
    on', w₃, hnone, hempty (.inr (by omega))⟩

end SymbolicNfa

end SymbolicAutomata
