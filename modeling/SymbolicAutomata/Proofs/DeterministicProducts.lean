import SymbolicAutomata.Proofs.Products
import Mathlib.Order.CompletePartialOrder
/-!
# Products of deterministic automata

A connective that is not monotone needs the only run of each word on both sides, so both operands
are made deterministic first. How many states that gives is settled by the power-states, and so is
whether the pairs of states have numbers. Every word leads to one pair, so a second determinization
finds no more power-states than there are pairs.
-/
namespace SymbolicAutomata

open Manager Bdd Layout SymbolicNfa

variable {g g₁ g₂ : NFA Nat Nat} {k l n n₁ n₂ p q : Nat} {f : Connective} {vs cs : List Nat}

theorem paired_singleton (hp : p < 2 ^ k) (q : Nat) : paired k {p} {q} = {p + 2 ^ k * q} := by
  ext v
  have hsplit := Nat.mod_add_div v (2 ^ k)
  constructor
  · rintro ⟨rfl, rfl⟩
    exact hsplit.symm
  · rintro rfl
    obtain ⟨u, hmod, hdiv⟩ := exists_pair hp q
    have hu := Nat.mod_add_div u (2 ^ k)
    rw [hmod, hdiv] at hu
    rw [hu]
    exact ⟨hmod, hdiv⟩

theorem product_run (h₁ : Deterministic g₁ n₁) (hg₁ : Bounded g₁ n₁) (hn : n₁ ≤ 2 ^ k)
    (h₂ : Deterministic g₂ n₂) (hg₂ : Bounded g₂ n₂) (hcs : Lettered cs) :
    ∃ v < n₂ * 2 ^ k,
      (product g₁ g₂ k f).evalFrom (product g₁ g₂ k f).start cs = {v} := by
  obtain ⟨p, hp, hrun₁⟩ := h₁.run hg₁ hcs
  obtain ⟨q, hq, hrun₂⟩ := h₂.run hg₂ hcs
  have hgk := hg₁.mono hn
  have heval : (product g₁ g₂ k f).evalFrom (product g₁ g₂ k f).start cs =
      paired k (g₁.evalFrom g₁.start cs) (g₂.evalFrom g₂.start cs) := evalFrom_product hgk hgk.start
  have hpk : p < 2 ^ k := Nat.lt_of_lt_of_le hp hn
  refine ⟨p + 2 ^ k * q, ?_, by rw [heval, hrun₁, hrun₂, paired_singleton hpk]⟩
  calc p + 2 ^ k * q < 2 ^ k + 2 ^ k * q := Nat.add_lt_add_right hpk _
    _ = (q + 1) * 2 ^ k := by rw [Nat.add_mul, Nat.one_mul, Nat.mul_comm q, Nat.add_comm]
    _ ≤ n₂ * 2 ^ k := Nat.mul_le_mul_right _ hq

/-- There are not more reached sets than there are numbers that determine them. -/
theorem ManyReached.le (h : ManyReached g l) {F : Nat → Set Nat}
    (hF : ∀ S, Reached g S → ∃ v < n, S = F v) : l ≤ n := by
  classical
  obtain ⟨Ts, hd, hTs, hl⟩ := h
  have hsub : Ts.toFinset ⊆ (Finset.range n).image F := by
    intro S hS
    obtain ⟨v, hv, rfl⟩ := hF S (hTs S (List.mem_toFinset.1 hS))
    exact Finset.mem_image_of_mem F (Finset.mem_range.2 hv)
  calc l ≤ Ts.length := hl
    _ = Ts.toFinset.card := (List.toFinset_card_of_nodup hd).symm
    _ ≤ ((Finset.range n).image F).card := Finset.card_le_card hsub
    _ ≤ (Finset.range n).card := Finset.card_image_le
    _ = n := Finset.card_range n

theorem ManyReached.le_of_deterministic (h : ManyReached g l) (hdet : Deterministic g n)
    (hg : Bounded g n) : l ≤ n := by
  refine h.le (F := fun q => {q}) fun S hS => ?_
  obtain ⟨cs, hcs, rfl⟩ := hS
  exact hdet.run hg hcs

/-- Trimming adds no reached sets where each word leads to one state. -/
theorem ManyReached.le_of_renumber (h : ManyReached (renumber g vs) l) (hd : vs.Nodup)
    (hvs : ∀ v, v ∈ vs ↔ Live g v)
    (hrun : ∀ cs, Lettered cs → ∃ v < n, g.evalFrom g.start cs = {v}) : l ≤ n := by
  refine h.le (F := fun v => {j | vs[j]? = some v}) fun S hS => ?_
  obtain ⟨cs, hcs, rfl⟩ := hS
  obtain ⟨v, hv, heq⟩ := hrun cs hcs
  refine ⟨v, hv, ?_⟩
  rw [evalFrom_renumber hd hvs hcs, heq]
  simp

theorem Family.eval_mem {Ss : List (Set Nat)} (h : Family g Ss) (hcs : Lettered cs) :
    g.evalFrom g.start cs ∈ Ss :=
  h.evalFrom_mem hcs (List.mem_of_getElem? h.first)

namespace SymbolicNfa

variable {w w' : Workspace} {a b : SymbolicNfa} {m : Manager}

/-- The number of states that making the automaton deterministic and total gives. -/
noncomputable def deterministicCount (a : SymbolicNfa) (m : Manager) : ℕ∞ :=
  if a.determinism = .complete then a.stateCount else (a.powerStates m).encard

/-- Deterministic automata of both languages have numbers for their pairs of states. -/
def Pairable (a b : SymbolicNfa) (m : Manager) : Prop :=
  ∃ n₁ n₂ : Nat, a.deterministicCount m = n₁ ∧ b.deterministicCount m = n₂ ∧ n₁ < 2 ^ 32 ∧
    n₂ < 2 ^ 32 ∧ bitsNeeded n₁ + bitsNeeded n₂ ≤ 32 ∧ n₂ * 2 ^ bitsNeeded n₁ < 2 ^ 32

theorem WellFormed.deterministicCount_later (h : a.WellFormed w.current) (hl : w.Leads w') :
    a.deterministicCount w'.current = a.deterministicCount w.current := by
  obtain ⟨g, hg, hb⟩ := h.shown
  have hreached : a.reached w'.current = a.reached w.current := by
    funext u
    rw [hg.reached_eq hl.before.canonical hb.toBounded,
      (hg.later hl).reached_eq hl.after.canonical hb.toBounded]
  unfold deterministicCount powerStates
  rw [hreached]

theorem Pairable.later (h : a.Pairable b w.current) (ha : a.WellFormed w.current)
    (hb : b.WellFormed w.current) (hl : w.Leads w') : a.Pairable b w'.current := by
  unfold Pairable
  rwa [ha.deterministicCount_later hl, hb.deterministicCount_later hl]

theorem WellFormed.deterministicCount_le (h : a.WellFormed m) (hm : m.Canonical) :
    a.deterministicCount m ≤ 2 ^ a.stateCount := by
  unfold deterministicCount
  split_ifs
  · exact_mod_cast Nat.lt_two_pow_self.le
  · exact h.encard_powerStates_le hm

/-- Where the flag promises it, every power-state is a single state. -/
theorem WellFormed.encard_powerStates_le_deterministicCount (h : a.WellFormed m)
    (hm : m.Canonical) : (a.powerStates m).encard ≤ a.deterministicCount m := by
  unfold deterministicCount
  split_ifs with hflag
  · obtain ⟨g, hg, hb⟩ := h.shown
    have hdet := (hg.isDeterministic_iff hm hb.toBounded).1 (h.honest.of_complete hflag)
    have hsub : a.powerStates m ⊆ (fun q => {q}) '' (Finset.range a.stateCount : Set Nat) := by
      rintro _ ⟨u, rfl⟩
      obtain ⟨q, hq, hrun⟩ := hdet.run hb.toBounded u.lettered_codes
      refine ⟨q, Finset.mem_coe.2 (Finset.mem_range.2 hq), ?_⟩
      rw [hg.reached_eq hm hb.toBounded, hrun]
    calc (a.powerStates m).encard
        ≤ ((fun q => {q}) '' (Finset.range a.stateCount : Set Nat)).encard :=
          Set.encard_le_encard hsub
      _ ≤ (Finset.range a.stateCount : Set Nat).encard := Set.encard_image_le _ _
      _ = a.stateCount := by rw [Set.encard_coe_eq_coe_finsetCard, Finset.card_range]
  · exact le_refl _

theorem Pairable.mono {b' : SymbolicNfa} {m' : Manager} (h : a.Pairable b m)
    (ha : a.deterministicCount m' = a.deterministicCount m)
    (hb : b'.deterministicCount m' ≤ b.deterministicCount m) : a.Pairable b' m' := by
  obtain ⟨n₁, n₂, h₁, h₂, hfew₁, hfew₂, hbits, hroom⟩ := h
  rw [h₂] at hb
  obtain ⟨n, hn⟩ := ENat.ne_top_iff_exists.1 (ne_top_of_le_ne_top (ENat.natCast_ne_top n₂) hb)
  have hle : n ≤ n₂ := by exact_mod_cast hn ▸ hb
  have hmono : bitsNeeded n ≤ bitsNeeded n₂ :=
    bitsNeeded_le_iff.2 (hle.trans (le_two_pow_bitsNeeded n₂))
  refine ⟨n₁, n, ha.trans h₁, hn.symm, hfew₁, by omega, by omega, ?_⟩
  exact (Nat.mul_le_mul_right _ hle).trans_lt hroom

/-- Few states have few power-states, and those few pairs. -/
theorem pairable_of_le (ha : a.WellFormed m) (hb : b.WellFormed m) (hm : m.Canonical)
    (hk : a.stateCount ≤ 4) (hl : b.stateCount ≤ 4) : a.Pairable b m := by
  have hfew : ∀ {c : SymbolicNfa}, c.WellFormed m → c.stateCount ≤ 4 →
      ∃ n : Nat, c.deterministicCount m = n ∧ n ≤ 2 ^ 4 := fun {c} hc hcount => by
    have hle : c.deterministicCount m ≤ ((2 ^ 4 : Nat) : ℕ∞) := (hc.deterministicCount_le hm).trans
      (by exact_mod_cast Nat.pow_le_pow_right (by decide) hcount)
    obtain ⟨n, hn⟩ := ENat.ne_top_iff_exists.1 (ne_top_of_le_ne_top (by decide) hle)
    exact ⟨n, hn.symm, by exact_mod_cast hn ▸ hle⟩
  obtain ⟨n₁, hn₁, hle₁⟩ := hfew ha hk
  obtain ⟨n₂, hn₂, hle₂⟩ := hfew hb hl
  have hbits₁ : bitsNeeded n₁ ≤ 4 := bitsNeeded_le_iff.2 hle₁
  have hbits₂ : bitsNeeded n₂ ≤ 4 := bitsNeeded_le_iff.2 hle₂
  refine ⟨n₁, n₂, hn₁, hn₂, by omega, by omega, by omega, ?_⟩
  calc n₂ * 2 ^ bitsNeeded n₁ ≤ 2 ^ 4 * 2 ^ 4 :=
        Nat.mul_le_mul hle₂ (Nat.pow_le_pow_right (by decide) hbits₁)
    _ < 2 ^ 32 := by decide

theorem Shows.encard_powerStates (h : a.Shows m g) (hm : m.Canonical)
    (hg : Bounded g a.stateCount) {Ss : List (Set Nat)} (hfamily : Family g Ss)
    (hreached : ∀ S ∈ Ss, Reached g S) : (a.powerStates m).encard = Ss.length := by
  classical
  have hset : a.powerStates m = (Ss.toFinset : Set (Set Nat)) := by
    ext S
    rw [Finset.mem_coe, List.mem_toFinset]
    constructor
    · rintro ⟨u, rfl⟩
      rw [h.reached_eq hm hg]
      exact hfamily.eval_mem u.lettered_codes
    · intro hS
      obtain ⟨cs, hcs, rfl⟩ := hreached S hS
      obtain ⟨u, rfl⟩ := hcs.exists_word
      exact ⟨u, h.reached_eq hm hg u⟩
  rw [hset, Set.encard_coe_eq_coe_finsetCard, List.toFinset_card_of_nodup hfamily.distinct]

theorem Shows.encard_powerStates_of_no_start (h : a.Shows m g) (hm : m.Canonical)
    (hg : Bounded g a.stateCount) (hnone : ∀ p, p ∉ g.start) : (a.powerStates m).encard = 1 := by
  have hset : a.powerStates m = {∅} := by
    refine Set.eq_singleton_iff_unique_mem.2 ⟨⟨[], ?_⟩, ?_⟩
    · rw [h.reached_eq hm hg]
      exact Set.eq_empty_of_forall_notMem hnone
    · rintro _ ⟨u, rfl⟩
      rw [h.reached_eq hm hg]
      refine Set.eq_empty_of_forall_notMem fun q hq => ?_
      obtain ⟨p, hp, -⟩ := NFA.mem_evalFrom_iff_exists.1 hq
      exact hnone p hp
  rw [hset, Set.encard_singleton]

theorem Shows.manyReached_iff (h : a.Shows m g) (hm : m.Canonical)
    (hg : Bounded g a.stateCount) : ManyReached g n ↔ (n : ℕ∞) ≤ (a.powerStates m).encard := by
  constructor
  · rintro ⟨Ts, hd, hTs, hn⟩
    have hn' : (n : ℕ∞) ≤ Ts.length := by exact_mod_cast hn
    exact hn'.trans (h.length_le_encard hm hg hd hTs)
  · intro hle
    obtain ⟨Ts, hsub, hcard⟩ := Set.exists_subset_encard_eq hle
    have hfinite : Ts.Finite := Set.finite_of_encard_eq_coe hcard
    refine ⟨hfinite.toFinset.toList, Finset.nodup_toList _, fun S hS => ?_, ?_⟩
    · obtain ⟨u, rfl⟩ := hsub (hfinite.mem_toFinset.1 (Finset.mem_toList.1 hS))
      exact ⟨u.codes, u.lettered_codes, h.reached_eq hm hg u⟩
    · rw [hfinite.encard_eq_coe_toFinset_card] at hcard
      rw [Finset.length_toList]
      exact_mod_cast hcard.ge

/-- Few reached sets are few states of a deterministic automaton. -/
theorem Shows.deterministicCount_lt_iff (h : a.Shows m g) (hm : m.Canonical)
    (hg : Bounded g a.stateCount) (hhonest : a.Honest m) :
    a.deterministicCount m < 2 ^ 32 ↔ ¬ ManyReached g (2 ^ 32) := by
  unfold deterministicCount
  split_ifs with hflag
  · have hdet := (h.isDeterministic_iff hm hg).1 (hhonest.of_complete hflag)
    have hlt := h.few
    refine iff_of_true (by exact_mod_cast hlt) fun hmany => ?_
    have hle := hmany.le_of_deterministic hdet hg
    omega
  · rw [h.manyReached_iff hm hg, not_le]
    norm_cast

/-- A deterministic automaton of the language is found exactly if its states have numbers. Without
starting states it has none. -/
theorem determinize_yieldsIff (hw : w.current.WellFormed) (h : a.Shows w.current g)
    (hg : Contained g a.stateCount) (hhonest : a.Honest w.current) :
    YieldsIff (a.deterministicCount w.current < 2 ^ 32) w a.determinize fun b m =>
      (∀ p, p ∉ g.start) ∧ b.stateCount = 0 ∧ a.deterministicCount w.current = 1 ∨
      0 < b.stateCount ∧ (b.stateCount : ℕ∞) = a.deterministicCount w.current ∧ ∃ g', b.Shows m g' ∧
        Contained g' b.stateCount ∧ Deterministic g' b.stateCount ∧
        ∀ cs, Lettered cs → (cs ∈ g'.accepts ↔ cs ∈ g.accepts) := by
  have hm := hw.canonical
  have hiff := h.deterministicCount_lt_iff hm hg.toBounded hhonest
  by_cases hflag : a.determinism = .complete
  · have hdet := (h.isDeterministic_iff hm hg.toBounded).1 (hhonest.of_complete hflag)
    obtain ⟨p, hp, -⟩ := hdet.start
    have hpos := hg.start p hp
    have hcount : a.deterministicCount w.current = a.stateCount := if_pos hflag
    unfold determinize
    rw [if_pos hflag, hcount]
    exact Runs.pure hw ⟨by exact_mod_cast h.few, .inr ⟨by omega, rfl, g, h, hg, hdet,
      fun _ _ => Iff.rfl⟩⟩
  · have hcount : a.deterministicCount w.current = (a.powerStates w.current).encard := if_neg hflag
    apply (determinize_runs hw h hg hflag).mono fun hmany hfew => hiff.1 hfew hmany
    rintro b w1 hl1 (⟨hnone, hzero, -, -⟩ | ⟨-, Ss, hfamily, hreached, hlen, -, hb⟩)
    · have hone := h.encard_powerStates_of_no_start hm hg.toBounded hnone
      rw [hcount, hone]
      exact ⟨by norm_num, .inl ⟨hnone, hzero, rfl⟩⟩
    · have hfirst := (List.getElem?_eq_some_iff.1 hfamily.first).1
      rw [hcount, h.encard_powerStates hm hg.toBounded hfamily hreached, ← hlen]
      exact ⟨by exact_mod_cast hb.few, .inr ⟨by omega, rfl, subsets g Ss, hb,
        hlen ▸ hfamily.contained, hlen ▸ hfamily.deterministic,
        fun cs hcs => hfamily.accepts_iff hcs⟩⟩

/-- An operand of a connective that is not monotone gets one state at least. -/
theorem operand_yieldsIff (hw : w.current.WellFormed) (h : a.Shows w.current g)
    (hg : Contained g a.stateCount) (hhonest : a.Honest w.current) (hf : f.monotone = false) :
    YieldsIff (a.deterministicCount w.current < 2 ^ 32) w (a.operand f) fun b m =>
      (b.stateCount : ℕ∞) = a.deterministicCount w.current ∧ 0 < b.stateCount ∧
      ∃ g', b.Shows m g' ∧ Contained g' b.stateCount ∧ Deterministic g' b.stateCount ∧
        ∀ cs, Lettered cs → (cs ∈ g'.accepts ↔ cs ∈ g.accepts) := by
  unfold operand
  rw [if_neg (by simp [hf])]
  apply (determinize_yieldsIff hw h hg hhonest).bind_yields
  intro b w1 hl1 hb
  apply (totalize_yields hl1.after).imp
  rintro c w2 hl2 ⟨hpos, ⟨hbpos, rfl⟩ | ⟨hbzero, hone, htrap⟩⟩
  · obtain ⟨-, hzero, -⟩ | ⟨-, hcount, g', hb, hg', hdet, hlang⟩ := hb
    · omega
    · exact ⟨hcount, hpos, g', hb.later hl2, hg', hdet, hlang⟩
  · obtain ⟨hnone, -, hcount⟩ | ⟨hbpos, -⟩ := hb
    · refine ⟨by rw [hone, hcount, Nat.cast_one], hpos, trap, htrap, hone ▸ trap_contained,
        hone ▸ trap_deterministic, fun cs _ => iff_of_false trap_accepts ?_⟩
      rintro ⟨q, -, hq⟩
      obtain ⟨p, hp, -⟩ := NFA.mem_evalFrom_iff_exists.1 hq
      exact hnone p hp
    · omega

theorem pairable_iff (h₁ : a.deterministicCount m = n₁) (h₂ : b.deterministicCount m = n₂)
    (hn₁ : n₁ < 2 ^ 32) (hn₂ : n₂ < 2 ^ 32) : a.Pairable b m ↔
      bitsNeeded n₁ + bitsNeeded n₂ ≤ 32 ∧ n₂ * 2 ^ bitsNeeded n₁ < 2 ^ 32 := by
  constructor
  · rintro ⟨k₁, k₂, hk₁, hk₂, -, -, hfits⟩
    obtain rfl : n₁ = k₁ := by exact_mod_cast h₁.symm.trans hk₁
    obtain rfl : n₂ = k₂ := by exact_mod_cast h₂.symm.trans hk₂
    exact hfits
  · exact fun hfits => ⟨n₁, n₂, h₁, h₂, hn₁, hn₂, hfits⟩

theorem Pairable.counts (h : a.Pairable b m) :
    a.deterministicCount m < 2 ^ 32 ∧ b.deterministicCount m < 2 ^ 32 := by
  obtain ⟨n₁, n₂, h₁, h₂, hn₁, hn₂, -⟩ := h
  rw [h₁, h₂]
  exact ⟨by exact_mod_cast hn₁, by exact_mod_cast hn₂⟩

open Classical in
/-- Such a product has few reached sets. -/
theorem combine_deterministic_yieldsIff (hw : w.current.WellFormed) (ha : a.WellFormed w.current)
    (hb : b.WellFormed w.current) (h₁ : a.Shows w.current g₁) (hg₁ : Contained g₁ a.stateCount)
    (h₂ : b.Shows w.current g₂) (hg₂ : Contained g₂ b.stateCount) (hf : f.monotone = false) :
    YieldsIff (a.Pairable b w.current) w (a.combine b f) fun c m => c.determinism = .unknown ∧
      ∃ g, c.Shows m g ∧ Contained g c.stateCount ∧ ¬ ManyReached g (2 ^ 32) ∧
        ∀ cs, Lettered cs →
          (cs ∈ g.accepts ↔ f (decide (cs ∈ g₁.accepts)) (decide (cs ∈ g₂.accepts)) = true) := by
  have hman : a.manager = b.manager := h₁.home.trans h₂.home.symm
  rw [combine_eq]
  simp only [hman, ne_eq, not_true_eq_false, ↓reduceIte]
  refine ((operand_yieldsIff hw h₁ hg₁ ha.honest hf).bind
    (D := b.deterministicCount w.current < 2 ^ 32 ∧ a.Pairable b w.current) ?_).congr
    ⟨fun h => h.2.2, fun h => ⟨h.counts.1, h.counts.2, h⟩⟩
  rintro a' w1 hl1 ⟨hcount₁, -, g₁', ha', hg₁', hdet₁, hlang₁⟩
  have hb1 := hb.later hl1
  rw [← hb.deterministicCount_later hl1]
  apply (operand_yieldsIff hl1.after (h₂.later hl1) hg₂ hb1.honest hf).bind
  rintro b' w2 hl2 ⟨hcount₂, hpos, g₂', hb', hg₂', hdet₂, hlang₂⟩
  rw [hb.deterministicCount_later hl1] at hcount₂
  rw [pairable_iff hcount₁.symm hcount₂.symm ha'.few hb'.few]
  apply Runs.imp (pairs_yieldsIff hl2.after (ha'.later hl2) hb' hg₂' hpos)
  rintro c w3 - ⟨hfits, hflag, vs, hd, hvs, hlen, hc⟩
  refine ⟨hfits, hflag, _, hc, hlen ▸ renumber_contained _ vs, fun hmany => ?_, fun cs hcs => ?_⟩
  · have hle := hmany.le_of_renumber hd hvs fun cs hcs =>
      product_run hdet₁ hg₁'.toBounded a'.count_le_two_pow_width hdet₂ hg₂'.toBounded hcs
    exact absurd hfits.2 (Nat.not_lt.2 hle)
  · rw [accepts_renumber (fun v => (hvs v).2) hcs]
    exact accepts_product_of_faithful hg₁'.bounded
      (hdet₁.faithful hg₁'.toBounded hf hlang₁) (hdet₂.faithful hg₂'.toBounded hf hlang₂) hcs

open Classical in
/-- A product of deterministic automata accepts a word if the connective holds of the answers. -/
theorem combine_pairable_yieldsIff (hw : w.current.WellFormed) (ha : a.WellFormed w.current)
    (hb : b.WellFormed w.current) (hf : f.monotone = false) :
    YieldsIff (a.Pairable b w.current) w (a.combine b f) fun c m => c.WellFormed m ∧
      ∀ u, c.Accepts m u ↔
        f (decide (a.Accepts w.current u)) (decide (b.Accepts w.current u)) = true := by
  obtain ⟨g₁, h₁, hg₁⟩ := ha.shown
  obtain ⟨g₂, h₂, hg₂⟩ := hb.shown
  apply (combine_deterministic_yieldsIff hw ha hb h₁ hg₁ h₂ hg₂ hf).imp
  rintro c w1 hl1 ⟨hflag, g, hc, hg, -, hlang⟩
  refine ⟨⟨⟨g, hc, hg⟩, honest_of_unknown hflag⟩, fun u => ?_⟩
  rw [hc.accepts_iff hl1.after.canonical hg.toBounded, hlang u.codes u.lettered_codes]
  simp only [h₁.accepts_iff hw.canonical hg₁.toBounded, h₂.accepts_iff hw.canonical hg₂.toBounded]

/-- There are numbers for the pairs that the product is about: pairs of states and sinks where the
connective is monotone, pairs of states of deterministic automata where it is not. -/
def Combinable (a b : SymbolicNfa) (f : Connective) (m : Manager) : Prop :=
  if f.monotone then a.Joinable b else a.Pairable b m

open Classical in
theorem combine_yieldsIff (hw : w.current.WellFormed) (ha : a.WellFormed w.current)
    (hb : b.WellFormed w.current) :
    YieldsIff (a.Combinable b f w.current) w (a.combine b f) fun c m => c.WellFormed m ∧
      ∀ u, c.Accepts m u ↔
        f (decide (a.Accepts w.current u)) (decide (b.Accepts w.current u)) = true := by
  unfold Combinable
  split_ifs with hf
  · exact combine_monotone_yieldsIff hw ha hb hf
  · exact combine_pairable_yieldsIff hw ha hb (Bool.not_eq_true _ ▸ hf)

open Classical in
/-- The product is found exactly if its pairs have numbers, and it accepts a word exactly if the
connective holds of the two answers. -/
theorem combine_of_wellFormed (hw : w.current.WellFormed) (ha : a.WellFormed w.current)
    (hb : b.WellFormed w.current) :
    ((∃ c w', a.combine b f w = .ok c w') ↔ a.Combinable b f w.current) ∧
    (a.Combinable b f w.current → ∃ c w', a.combine b f w = .ok c w' ∧ w.Leads w' ∧
      c.WellFormed w'.current ∧ ∀ u, c.Accepts w'.current u ↔
        f (decide (a.Accepts w.current u)) (decide (b.Accepts w.current u)) = true) := by
  have hproduct := combine_yieldsIff (f := f) hw ha hb
  exact ⟨hproduct.exists_ok_iff, fun hfits => yields_iff.1 (hproduct.yields hfits)⟩

/-- The words of one letter, with the sink that conjunction adds and with the other words that a
deterministic automaton for their complement needs. -/
theorem combine_of_wellFormed_ofSymbols : ∃ m a w, Manager.new 0 1 1 = .ok m ∧
    ofSymbols (.universal 0) ⟨m, []⟩ = .ok a w ∧
    (∃ c w', a.combine a (fun x y => x && y) w = .ok c w' ∧
      ∀ u, c.Accepts w'.current u ↔ a.Accepts w.current u) ∧
    ∃ c w', a.combine a (fun x y => !(x || y)) w = .ok c w' ∧
      c.Accepts w'.current [] ∧ ∀ x, ¬ c.Accepts w'.current [x] := by
  obtain ⟨m, hm⟩ : ∃ m, Manager.new 0 1 1 = .ok m := ⟨_, rfl⟩
  obtain ⟨a, w, ha, hl, hcount, hshows, hcontained, hwell⟩ := ofSymbols_wellFormed hm
  have hjoin : a.Joinable a := by
    rw [Joinable, hcount]
    decide
  have hpair : a.Pairable a w.current := pairable_of_le hwell hwell hl.after.canonical (by omega)
    (by omega)
  have haccepts : ∀ u : Word, a.Accepts w.current u ↔ u.codes ∈ (oneLetter fun _ => True).accepts :=
    fun u => hshows.accepts_iff hl.after.canonical hcontained.toBounded
  obtain ⟨c, w₁, hrun, -, -, hboth⟩ := (combine_of_wellFormed (f := fun x y => x && y)
    hl.after hwell hwell).2 hjoin
  obtain ⟨c', w₂, hrun', -, -, hneither⟩ := (combine_of_wellFormed (f := fun x y => !(x || y))
    hl.after hwell hwell).2 hpair
  refine ⟨m, a, w, hm, ha, ⟨c, w₁, hrun, fun u => by rw [hboth u]; simp⟩, c', w₂, hrun', ?_,
    fun x hx => ?_⟩
  · have hnil : Word.codes [] ∉ (oneLetter fun _ => True).accepts := not_oneLetter_accepts_nil
    rw [hneither, haccepts]
    simp [hnil]
  · rw [hneither, haccepts] at hx
    have hone : Word.codes [x] ∈ (oneLetter fun _ => True).accepts := oneLetter_accepts trivial
    simp [hone] at hx

end SymbolicNfa

end SymbolicAutomata
