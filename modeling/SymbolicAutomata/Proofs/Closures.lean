import SymbolicAutomata.Proofs.Growth
import Mathlib.Logic.Relation
/-!
# Steps and closures

A step follows the edges shown. A closure repeats it until nothing is new; every round but the last
adds a number, so there are fewer rounds than numbers.
-/
namespace SymbolicAutomata

open Manager Bdd Layout

/-- From `p` one edge on a letter of `L` leads to `q` in the given direction. -/
def Hop (g : NFA Nat Nat) (L : Nat → Prop) : Direction → Nat → Nat → Prop
  | .forward, p, q => ∃ c < letterCount, L c ∧ q ∈ g.step p c
  | .backward, p, q => ∃ c < letterCount, L c ∧ p ∈ g.step q c

/-- The words of numbers of letters. -/
def Lettered (cs : List Nat) : Prop := ∀ c ∈ cs, c < letterCount

@[simp]
theorem lettered_nil : Lettered [] := List.forall_mem_nil _

@[simp]
theorem lettered_cons {c : Nat} {cs : List Nat} :
    Lettered (c :: cs) ↔ c < letterCount ∧ Lettered cs := List.forall_mem_cons

@[simp]
theorem lettered_append {cs ds : List Nat} : Lettered (cs ++ ds) ↔ Lettered cs ∧ Lettered ds :=
  List.forall_mem_append

@[simp]
theorem Word.codes_append (u v : Word) : Word.codes (u ++ v) = u.codes ++ v.codes :=
  List.map_append

theorem Word.lettered_codes (u : Word) : Lettered u.codes := by
  intro c hc
  obtain ⟨x, -, rfl⟩ := List.mem_map.1 hc
  exact x.code_lt

theorem Lettered.exists_word {cs : List Nat} (hcs : Lettered cs) : ∃ u : Word, u.codes = cs := by
  induction cs with
  | nil => exact ⟨[], rfl⟩
  | cons c cs ih =>
    obtain ⟨hc, hrest⟩ := lettered_cons.1 hcs
    obtain ⟨x, hx⟩ := Letter.exists_code hc
    obtain ⟨u, hu⟩ := ih hrest
    exact ⟨x :: u, by rw [← hx, ← hu]; rfl⟩

/-- Some word leads to the state. -/
def Reachable (g : NFA Nat Nat) (q : Nat) : Prop :=
  ∃ cs, Lettered cs ∧ q ∈ g.evalFrom g.start cs

/-- Some word leads on to an accepting state. -/
def Productive (g : NFA Nat Nat) (q : Nat) : Prop :=
  ∃ cs, Lettered cs ∧ ∃ r ∈ g.accept, r ∈ g.evalFrom {q} cs

def Live (g : NFA Nat Nat) (q : Nat) : Prop := Reachable g q ∧ Productive g q

theorem mem_accepts_iff_exists {g : NFA Nat Nat} {cs : List Nat} : cs ∈ g.accepts ↔
    ∃ p ∈ g.start, ∃ r ∈ g.accept, r ∈ g.evalFrom {p} cs := by
  constructor
  · rintro ⟨r, hacc, hrun⟩
    obtain ⟨p, hp, hrun⟩ := NFA.mem_evalFrom_iff_exists.1 hrun
    exact ⟨p, hp, r, hacc, hrun⟩
  · rintro ⟨p, hp, r, hacc, hrun⟩
    exact ⟨r, hacc, NFA.mem_evalFrom_iff_exists.2 ⟨p, hp, hrun⟩⟩

variable {g : NFA Nat Nat} {n k p q : Nat} {P L : Nat → Prop} {dir : Direction}

theorem reachable_of_start (hp : p ∈ g.start) : Reachable g p := ⟨[], lettered_nil, hp⟩

theorem Reachable.step {c : Nat} (h : Reachable g p) (hc : c < letterCount) (hq : q ∈ g.step p c) :
    Reachable g q := by
  obtain ⟨cs, hcs, hp⟩ := h
  refine ⟨cs ++ [c], by simp [hcs, hc], ?_⟩
  rw [NFA.evalFrom_append, NFA.evalFrom_singleton]
  exact NFA.mem_stepSet.2 ⟨p, hp, hq⟩

theorem Bounded.reachable_lt (h : Bounded g n) (hq : Reachable g q) : q < n := by
  obtain ⟨cs, -, hq⟩ := hq
  exact h.eval h.start cs q hq

theorem Bounded.hop_target (h : Bounded g n) (hpq : Hop g L dir p q) : q < n := by
  cases dir with
  | forward =>
    obtain ⟨c, -, -, hc⟩ := hpq
    exact h.target p c q hc
  | backward =>
    obtain ⟨c, -, -, hc⟩ := hpq
    exact h.source q c p hc

theorem Bounded.hop_source (h : Bounded g n) (hpq : Hop g L dir p q) : p < n := by
  cases dir with
  | forward =>
    obtain ⟨c, -, -, hc⟩ := hpq
    exact h.source p c q hc
  | backward =>
    obtain ⟨c, -, -, hc⟩ := hpq
    exact h.target q c p hc

def goalBlock : Direction → Nat → Domain
  | .forward, k => destBlock k
  | .backward, k => sourceBlock k

theorem goal_block (dir : Direction) (k : Nat) :
    (edgeBlocks k)[dir.goal]? = some (goalBlock dir k) := by cases dir <;> rfl

theorem start_block (dir : Direction) (k : Nat) :
    ∃ d, (edgeBlocks k)[dir.start]? = some d ∧ d.len = k ∧ d.base ≤ edgeEnd := by
  cases dir with
  | forward => exact ⟨sourceBlock k, rfl, rfl, sourceBlock_base_le⟩
  | backward => exact ⟨destBlock k, rfl, rfl, destBlock_base_le⟩

namespace ValueSet

variable {m : Manager} {w w' : Workspace} {s : ValueSet}

/-- The numbers of the set can be moved onto any block of `k` bits. -/
structure Movable (s : ValueSet) (m : Manager) (k : Nat) (P : Nat → Prop) : Prop where
  shows : s.Shows m P
  fits : ∀ e : Domain, e.len = k → e.base ≤ edgeEnd → s.domain.Fits e P

theorem movable_of_lt (hk : k ≤ 32) (hs : s.domain = sourceBlock k ∧ s.Shows m P)
    (hP : ∀ v, P v → v < 2 ^ k) : s.Movable m k P := by
  refine ⟨hs.2, fun e hlen hbase => ?_⟩
  rw [hs.1]
  refine fits_of_small hk (by omega) sourceBlock_base_le hbase fun v hv => ?_
  rw [hlen]
  exact ⟨hP v hv, hP v hv⟩

/-- A set on the block of the states is moved with the numbers that the block can carry. -/
theorem movable_block (hk : k ≤ 32) (hs : s.domain = sourceBlock k ∧ s.Shows m P) :
    s.Movable m k fun v => v < 2 ^ k ∧ P v := by
  have hbounded := hs.2.bounded
  rw [hs.1] at hbounded
  exact movable_of_lt hk ⟨hs.1, hbounded⟩ fun v hv => hv.1

theorem Movable.moved_yields (h : s.Movable w.current k P) (hw : w.current.WellFormed) :
    Yields w (s.moved (sourceBlock k)) fun r m => r.domain = sourceBlock k ∧ r.Shows m P :=
  h.shows.moved hw (h.fits _ rfl sourceBlock_base_le)

/-- For the rest of the session the set can be moved onto a block of `k` bits exactly if `C` holds,
whichever block it is, and shows `P` there. -/
def Lands (s : ValueSet) (w : Workspace) (k : Nat) (C : Prop) (P : Nat → Prop) : Prop :=
  ∀ e : Domain, e.len = k → e.base ≤ edgeEnd → ∀ w', w.Leads w' →
    YieldsIff C w' (s.moved e) fun r m => r.domain = e ∧ r.Shows m P

theorem Lands.later {C : Prop} (h : s.Lands w k C P) (hl : w.Leads w') : s.Lands w' k C P :=
  fun e hlen hbase w'' hl' => h e hlen hbase w'' (hl.trans hl')

theorem Movable.lands (h : s.Movable w.current k P) : s.Lands w k True P :=
  fun e hlen hbase _ hl =>
    ((h.shows.later hl).moved hl.after (h.fits e hlen hbase)).yieldsIff trivial

end ValueSet

/-- A step leaves from numbers of states only. -/
theorem exists_hop_iff (hg : Bounded g n) :
    (∃ p, (p < n ∧ P p) ∧ Hop g L dir p q) ↔ ∃ p, P p ∧ Hop g L dir p q :=
  exists_congr fun _ => and_congr_left fun hop => and_iff_right (hg.hop_source hop)

theorem hop_iff (hg : Bounded g (2 ^ k)) : (∃ p, P p ∧ Hop g L dir p q) ↔
    ∃ ts, List.Forall₂ (fun v d => v < 2 ^ d.len) ts (edgeBlocks k) ∧ ts[dir.goal]? = some q ∧
      Edges g ts ∧ (∀ v, ts[dir.start]? = some v → P v) ∧ ∀ c, ts[1]? = some c → L c := by
  have hfits : ∀ p c q, c < letterCount → q ∈ g.step p c →
      List.Forall₂ (fun v d => v < 2 ^ d.len) [p, c, q] (edgeBlocks k) := fun p c q hc h =>
    forall₂_edgeBlocks.2 ⟨p, c, q, rfl, hg.source p c q h, hc, hg.target p c q h⟩
  have hletter : ∀ p c q, List.Forall₂ (fun v d => v < 2 ^ d.len) [p, c, q] (edgeBlocks k) →
      c < letterCount := by
    intro p c q h
    obtain ⟨_, _, _, heq, -, hc, -⟩ := forall₂_edgeBlocks.1 h
    cases heq
    exact hc
  cases dir with
  | forward =>
    constructor
    · rintro ⟨p, hp, c, hc, hL, h⟩
      exact ⟨[p, c, q], hfits p c q hc h, rfl, ⟨p, c, q, rfl, h⟩,
        fun v hv => Option.some.inj hv ▸ hp, fun v hv => Option.some.inj hv ▸ hL⟩
    · rintro ⟨_, hts, hq, ⟨p, c, q', rfl, h⟩, hP, hL⟩
      obtain rfl : q' = q := Option.some.inj hq
      exact ⟨p, hP p rfl, c, hletter p c q' hts, hL c rfl, h⟩
  | backward =>
    constructor
    · rintro ⟨p, hp, c, hc, hL, h⟩
      exact ⟨[q, c, p], hfits q c p hc h, rfl, ⟨q, c, p, rfl, h⟩,
        fun v hv => Option.some.inj hv ▸ hp, fun v hv => Option.some.inj hv ▸ hL⟩
    · rintro ⟨_, hts, hq, ⟨q', c, p, rfl, h⟩, hP, hL⟩
      obtain rfl : q' = q := Option.some.inj hq
      exact ⟨p, hP p rfl, c, hletter q' c p hts, hL c rfl, h⟩

theorem walk_iff : Relation.ReflTransGen (Hop g (fun _ => True) .forward) p q ↔
    ∃ cs, Lettered cs ∧ q ∈ g.evalFrom {p} cs := by
  constructor
  · intro h
    induction h with
    | refl => exact ⟨[], lettered_nil, rfl⟩
    | tail _ hop ih =>
      obtain ⟨cs, hcs, hq⟩ := ih
      obtain ⟨c, hc, -, hr⟩ := hop
      refine ⟨cs ++ [c], by simp [hcs, hc], ?_⟩
      rw [NFA.evalFrom_append, NFA.evalFrom_singleton]
      exact NFA.mem_stepSet.2 ⟨_, hq, hr⟩
  · rintro ⟨cs, hcs, hq⟩
    induction cs generalizing p with
    | nil =>
      obtain rfl : q = p := hq
      exact .refl
    | cons c cs ih =>
      rw [NFA.evalFrom_cons, NFA.stepSet_singleton, NFA.mem_evalFrom_iff_exists] at hq
      obtain ⟨r, hr, hq⟩ := hq
      obtain ⟨hc, hrest⟩ := lettered_cons.1 hcs
      exact .head ⟨c, hc, trivial, hr⟩ (ih hrest hq)

namespace Relation

variable {w : Workspace} {r : Relation} {s : ValueSet} {R : List Nat → Prop} {pos : Nat}
  {on : SymbolSet}

theorem checkSymbols_eq (hd : r.domains[pos]? = some alphabet) : r.checkSymbols pos = .ok () := by
  simp only [checkSymbols, domain_eq hd, bind, Except.bind, ne_eq, not_true_eq_false, ↓reduceIte]
  rfl

theorem restrictSymbols_yields (hw : w.current.WellFormed) (h : r.Shows w.current R)
    (hon : w.current.Denotes on.fn fun t => L (alphabet.read t))
    (hd : r.domains[pos]? = some alphabet) :
    Yields w (r.restrictSymbols pos on) fun u m => u.domains = r.domains ∧
      u.Shows m fun ts => R ts ∧ ∀ c, ts[pos]? = some c → L c := by
  refine .lift_bind (checkSymbols_eq hd) ?_
  refine .bind (conj_yields hw h.denotes hon) fun f w1 hl1 hf => ?_
  refine Runs.pure hl1.after ⟨rfl, h.withFn hl1 (hf.congr fun t => ?_)⟩
  simp [Domain.getElem?_reads, hd]

theorem step_yieldsIff {C : Prop} (hw : w.current.WellFormed)
    (h : r.domains = edgeBlocks k ∧ r.Shows w.current (Edges g)) (hg : Bounded g (2 ^ k))
    (hs : s.Lands w k C P) (hon : w.current.Denotes on.fn fun t => L (alphabet.read t)) :
    YieldsIff C w (r.step dir s on) fun u m => u.domain = goalBlock dir k ∧
      u.Shows m fun q => ∃ p, P p ∧ Hop g L dir p q := by
  obtain ⟨hdom, hr⟩ := h
  obtain ⟨d, hd, hlen, hbase⟩ := start_block dir k
  have hrestrict : YieldsIff C w (r.restrict dir.start s) fun u m => u.domains = r.domains ∧
      u.Shows m fun ts => Edges g ts ∧ ∀ v, ts[dir.start]? = some v → P v :=
    restrict_runs hr (by rw [hdom]; exact hd) (hs d hlen hbase w (.refl hw))
  refine hrestrict.bind_yields fun r1 w1 hl1 hr1 => ?_
  refine .bind (restrictSymbols_yields hl1.after hr1.2 (hl1.denotes hon)
    (by rw [hr1.1, hdom]; rfl)) fun r2 w2 hl2 hr2 => ?_
  have hdom2 : r2.domains = edgeBlocks k := by rw [hr2.1, hr1.1, hdom]
  refine (projectOn_yields hl2.after hr2.2 (by rw [hdom2]; exact goal_block dir k)).imp
    fun u w3 _ hu => ⟨hu.1, hu.2.congr fun q _ => ?_⟩
  rw [hdom2, hop_iff hg]
  simp only [and_assoc]

end Relation

namespace ValueSet

variable {w : Workspace} {s : ValueSet} {d : Domain} {H : Nat → Nat → Prop}
  {step : ValueSet → BddM ValueSet}

/-- The numbers that walks from `P` lead to. -/
def Closure (H : Nat → Nat → Prop) (P : Nat → Prop) (q : Nat) : Prop :=
  ∃ p, P p ∧ Relation.ReflTransGen H p q

theorem closure_of_closed (h : ∀ p q, P p → H p q → P q) : Closure H P q ↔ P q := by
  constructor
  · rintro ⟨p, hp, hwalk⟩
    induction hwalk with
    | refl => exact hp
    | tail _ hop ih => exact h _ _ ih hop
  · exact fun hq => ⟨q, hq, .refl⟩

theorem closure_forward_iff :
    Closure (Hop g (fun _ => True) .forward) (· ∈ g.start) q ↔ Reachable g q := by
  constructor
  · rintro ⟨p, hp, hwalk⟩
    obtain ⟨cs, hcs, hq⟩ := walk_iff.1 hwalk
    exact ⟨cs, hcs, NFA.mem_evalFrom_iff_exists.2 ⟨p, hp, hq⟩⟩
  · rintro ⟨cs, hcs, hq⟩
    obtain ⟨p, hp, hq⟩ := NFA.mem_evalFrom_iff_exists.1 hq
    exact ⟨p, hp, walk_iff.2 ⟨cs, hcs, hq⟩⟩

theorem closure_backward_iff :
    Closure (Hop g (fun _ => True) .backward) (· ∈ g.accept) q ↔ Productive g q := by
  -- a walk backward is a walk forward from the other end
  have hswap : ∀ p, Relation.ReflTransGen (Hop g (fun _ => True) .backward) p q ↔
      Relation.ReflTransGen (Hop g (fun _ => True) .forward) q p := fun p =>
    Relation.reflTransGen_swap
  constructor
  · rintro ⟨p, hp, hwalk⟩
    obtain ⟨cs, hcs, hq⟩ := walk_iff.1 ((hswap p).1 hwalk)
    exact ⟨cs, hcs, p, hp, hq⟩
  · rintro ⟨cs, hcs, p, hp, hq⟩
    exact ⟨p, hp, (hswap p).2 (walk_iff.2 ⟨cs, hcs, hq⟩)⟩

/-- One step more from the start of the walks adds nothing. -/
theorem closure_step : Closure H (fun v => P v ∨ ∃ p, P p ∧ H p v) q ↔ Closure H P q := by
  constructor
  · rintro ⟨v, hv, hwalk⟩
    rcases hv with hv | ⟨p, hp, hop⟩
    · exact ⟨v, hv, hwalk⟩
    · exact ⟨p, hp, .head hop hwalk⟩
  · rintro ⟨p, hp, hwalk⟩
    exact ⟨p, .inl hp, hwalk⟩

open Classical in
noncomputable def missing (d : Domain) (P : Nat → Prop) : Finset Nat :=
  (Finset.range (2 ^ d.len)).filter fun v => ¬ P v

open Classical in
theorem card_missing_le (d : Domain) (P : Nat → Prop) : (missing d P).card ≤ 2 ^ d.len :=
  calc (missing d P).card ≤ (Finset.range (2 ^ d.len)).card := Finset.card_filter_le _ _
    _ = 2 ^ d.len := Finset.card_range _

open Classical in
theorem missing_lt {Q : Nat → Prop} (hPQ : ∀ v, P v → Q v) (hv : p < 2 ^ d.len) (hP : ¬ P p)
    (hQ : Q p) : (missing d Q).card < (missing d P).card := by
  apply Finset.card_lt_card
  rw [Finset.ssubset_iff_of_subset]
  · exact ⟨p, Finset.mem_filter.2 ⟨Finset.mem_range.2 hv, hP⟩,
      fun hmem => (Finset.mem_filter.1 hmem).2 hQ⟩
  · intro v hmem
    obtain ⟨hlt, hnot⟩ := Finset.mem_filter.1 hmem
    exact Finset.mem_filter.2 ⟨hlt, fun h => hnot (hPQ v h)⟩

theorem closeFrom_yields {fuel : Nat} (hw : w.current.WellFormed)
    (hstep : ∀ s P w', w.Leads w' → s.domain = d ∧ s.Shows w'.current P →
      Yields w' (step s) fun r m => r.domain = d ∧ r.Shows m fun q => ∃ p, P p ∧ H p q)
    (hs : s.domain = d ∧ s.Shows w.current P) (hH : ∀ p q, H p q → q < 2 ^ d.len)
    (hfuel : (missing d P).card < fuel) :
    Yields w (closeFrom step fuel s) fun r m => r.domain = d ∧ r.Shows m (Closure H P) := by
  induction fuel generalizing w s P with
  | zero => omega
  | succ fuel ih =>
    refine .bind (hstep s P w (.refl hw) hs) fun t w1 hl1 ht => ?_
    have hs1 := hs.2.later hl1
    refine .bind (union_yields hs1 ht.2 (hs.1.trans ht.1.symm) hl1.after) fun u w2 hl2 hu => ?_
    have hs2 := hs1.later hl2
    have hud : u.domain = d := hu.1.trans hs.1
    refine .bind (same_yields hu.2 hs2 hu.1 hl2.after) fun b w3 hl3 hb => ?_
    have hl := hl1.trans (hl2.trans hl3)
    rw [hud] at hb
    split_ifs with hsame
    · -- nothing was new, so the numbers are closed under steps
      have hclosed : ∀ p q, P p → H p q → P q := fun p q hp hop =>
        (hb.1 hsame q (hH p q hop)).1 (.inr ⟨p, hp, hop⟩)
      exact Runs.pure hl3.after ⟨hs.1, (hs2.later hl3).congr fun v _ =>
        (closure_of_closed hclosed).symm⟩
    · have hnew : ∃ v < 2 ^ d.len, ¬ P v ∧ ∃ p, P p ∧ H p v := by
        by_contra hnone
        push Not at hnone
        refine hsame (hb.2 fun v hv => ⟨fun h => ?_, .inl⟩)
        rcases h with h | ⟨p, hp, hop⟩
        · exact h
        · by_contra hP
          exact hnone v hv hP p hp hop
      obtain ⟨v, hv, hnot, hstepv⟩ := hnew
      have hless : (missing d fun v => P v ∨ ∃ p, P p ∧ H p v).card < (missing d P).card :=
        missing_lt (fun _ => .inl) hv hnot (.inr hstepv)
      refine (ih hl3.after (fun s P w' hl' => hstep s P w' (hl.trans hl'))
        ⟨hud, hu.2.later hl3⟩ (by omega)).imp fun r w4 _ hr => ?_
      exact ⟨hr.1, hr.2.congr fun v _ => closure_step⟩

theorem close_yields (hw : w.current.WellFormed) (hd : d.len ≤ 32)
    (hstep : ∀ s P w', w.Leads w' → s.domain = d ∧ s.Shows w'.current P →
      Yields w' (step s) fun r m => r.domain = d ∧ r.Shows m fun q => ∃ p, P p ∧ H p q)
    (hs : s.domain = d ∧ s.Shows w.current P) (hH : ∀ p q, H p q → q < 2 ^ d.len) :
    Yields w (close step s) fun r m => r.domain = d ∧ r.Shows m (Closure H P) := by
  refine closeFrom_yields hw hstep hs hH ?_
  have hcard := card_missing_le d P
  have hpow : 2 ^ d.len ≤ 2 ^ 32 := Nat.pow_le_pow_right (by decide) hd
  change _ < 2 ^ 32 + 2
  omega

end ValueSet

namespace SymbolicNfa

open ValueSet

variable {w : Workspace} {a : SymbolicNfa} {s : ValueSet} {on : SymbolSet}

theorem Shows.step_yieldsIff {C : Prop} (h : a.Shows w.current g) (hw : w.current.WellFormed)
    (hg : Bounded g (2 ^ a.width)) (hs : s.Lands w a.width C P)
    (hon : w.current.Denotes on.fn fun t => L (alphabet.read t)) :
    YieldsIff C w (a.step dir s on) fun u m => u.domain = sourceBlock a.width ∧
      u.Shows m fun q => ∃ p, P p ∧ Hop g L dir p q := by
  have hk := h.width_le
  refine (Relation.step_yieldsIff hw h.edges hg hs hon).bind_yields fun u w1 hl1 hu => ?_
  cases dir with
  | forward =>
    refine .lift_bind h.stateDomain (hu.2.withDomain hl1.after ?_)
    rw [hu.1]
    refine fits_of_small hk hk destBlock_base_le sourceBlock_base_le ?_
    rintro q ⟨p, -, hop⟩
    exact ⟨hg.hop_target hop, hg.hop_target hop⟩
  | backward => exact Runs.pure hl1.after hu

theorem Shows.step_yields (h : a.Shows w.current g) (hw : w.current.WellFormed)
    (hg : Bounded g (2 ^ a.width)) (hs : s.Movable w.current a.width P)
    (hon : w.current.Denotes on.fn fun t => L (alphabet.read t)) :
    Yields w (a.step dir s on) fun u m => u.domain = sourceBlock a.width ∧
      u.Shows m fun q => ∃ p, P p ∧ Hop g L dir p q :=
  (h.step_yieldsIff hw hg hs.lands hon).yields trivial

theorem Shows.reach_yields (h : a.Shows w.current g) (hw : w.current.WellFormed)
    (hg : Bounded g (2 ^ a.width)) (hs : s.domain = sourceBlock a.width ∧ s.Shows w.current P)
    (hon : w.current.Denotes on.fn fun t => L (alphabet.read t)) :
    Yields w (a.reach dir s on) fun u m => u.domain = sourceBlock a.width ∧
      u.Shows m (Closure (Hop g L dir) P) := by
  have hk := h.width_le
  have hmoved := (movable_block hk hs).moved_yields hw
  rw [← h.states.1] at hmoved
  refine .bind hmoved fun t w1 hl1 ht => ?_
  have ht' : t.domain = sourceBlock a.width ∧ t.Shows w1.current P := by
    refine ⟨ht.1.trans h.states.1, ht.2.congr fun v hv => ?_⟩
    rw [ht.1, h.states.1] at hv
    exact and_iff_right hv
  refine close_yields hl1.after hk (fun s P w' hl' hs' => ?_) ht' fun p q hop => hg.hop_target hop
  have hl := hl1.trans hl'
  refine ((h.later hl).step_yields hl'.after hg (movable_block hk hs') (hl.denotes hon)).imp
    fun u w2 _ hu => ⟨hu.1, hu.2.congr fun q _ => exists_hop_iff hg⟩

theorem Shows.reachable_yields (h : a.Shows w.current g) (hw : w.current.WellFormed)
    (hg : Bounded g (2 ^ a.width)) :
    Yields w a.reachable fun u m => u.domain = sourceBlock a.width ∧ u.Shows m (Reachable g) :=
  (h.reach_yields (L := fun _ => True) hw hg h.starting (universal_denotes hw.canonical _)).imp
    fun _ _ _ hu => ⟨hu.1, hu.2.congr fun _ _ => closure_forward_iff⟩

theorem Shows.productive_yields (h : a.Shows w.current g) (hw : w.current.WellFormed)
    (hg : Bounded g (2 ^ a.width)) :
    Yields w a.productive fun u m => u.domain = sourceBlock a.width ∧ u.Shows m (Productive g) :=
  (h.reach_yields (L := fun _ => True) hw hg h.accepting (universal_denotes hw.canonical _)).imp
    fun _ _ _ hu => ⟨hu.1, hu.2.congr fun _ _ => closure_backward_iff⟩

theorem Shows.live_yields (h : a.Shows w.current g) (hw : w.current.WellFormed)
    (hg : Bounded g (2 ^ a.width)) :
    Yields w a.live fun u m => u.domain = sourceBlock a.width ∧ u.Shows m (Live g) := by
  refine .bind (h.reachable_yields hw hg) fun s w1 hl1 hs => ?_
  refine .bind ((h.later hl1).productive_yields hl1.after hg) fun t w2 hl2 ht => ?_
  exact (inter_yields (hs.2.later hl2) ht.2 (hs.1.trans ht.1.symm) hl2.after).imp
    fun u w3 _ hu => ⟨hu.1.trans hs.1, hu.2⟩

end SymbolicNfa

end SymbolicAutomata
