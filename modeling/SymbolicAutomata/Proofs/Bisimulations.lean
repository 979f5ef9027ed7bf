import SymbolicAutomata.Proofs.SubAutomata
import Mathlib.Data.Fintype.Card
import Mathlib.Data.Set.Card
import Mathlib.Data.Set.Disjoint
import Mathlib.Order.CompletePartialOrder
/-!
# Bisimulation and partition refinement

A round of refinement separates states whose moves lead to different blocks. It never separates
bisimilar states, and when the number of blocks stays the same it separates no states at all, so the
blocks are the classes of bisimilar states. States without edges have no moves to tell their block
by. They do no harm because all of them accept once the states from which nothing is accepted have
been given edges to each other.
-/
namespace SymbolicAutomata

open Manager Bdd Layout

/-- Related states accept alike and match each other's moves. -/
structure Bisimulation (g : NFA Nat Nat) (R : Nat → Nat → Prop) : Prop where
  accept : ∀ p q, R p q → (p ∈ g.accept ↔ q ∈ g.accept)
  forth : ∀ p q c p', R p q → c < letterCount → p' ∈ g.step p c → ∃ q', q' ∈ g.step q c ∧ R p' q'
  back : ∀ p q c q', R p q → c < letterCount → q' ∈ g.step q c → ∃ p', p' ∈ g.step p c ∧ R p' q'

def InBlock (Bs : List (Set Nat)) (p i : Nat) : Prop := ∃ B, Bs[i]? = some B ∧ p ∈ B

def Together (Bs : List (Set Nat)) (p q : Nat) : Prop := ∃ B ∈ Bs, p ∈ B ∧ q ∈ B

/-- The blocks partition the states below `n`. -/
structure Blocks (n : Nat) (Bs : List (Set Nat)) : Prop where
  inhabited : ∀ B ∈ Bs, B.Nonempty
  within : ∀ B ∈ Bs, ∀ p ∈ B, p < n
  cover : ∀ p < n, ∃ B ∈ Bs, p ∈ B
  apart : Bs.Pairwise Disjoint

/-- The moves of a state: its own block, the letter and the block that the letter leads to. -/
def signature (g : NFA Nat Nat) (Bs : List (Set Nat)) (p : Nat) : Set (Nat × Nat × Nat) :=
  {x | InBlock Bs p x.1 ∧ x.2.1 < letterCount ∧ ∃ q ∈ g.step p x.2.1, InBlock Bs q x.2.2}

/-- The second blocks hold the states of equal moves between the first ones. -/
structure Refined (g : NFA Nat Nat) (n : Nat) (Bs Cs : List (Set Nat)) : Prop
    extends Blocks n Cs where
  together : ∀ p q, p < n → q < n →
    (Together Cs p q ↔ signature g Bs p = signature g Bs q)

/-- The blocks separate accepting states from the others, and no bisimilar states. -/
structure Coarse (g : NFA Nat Nat) (n : Nat) (Bs : List (Set Nat)) : Prop
    extends Blocks n Bs where
  accept : ∀ p q, Together Bs p q → (p ∈ g.accept ↔ q ∈ g.accept)
  bisimilar : ∀ R p q, Bisimulation g R → R p q → p < n → q < n → Together Bs p q

/-- States in one block have the same moves. -/
def Stable (g : NFA Nat Nat) (Bs : List (Set Nat)) : Prop :=
  ∀ p q, Together Bs p q → signature g Bs p = signature g Bs q

def Driven (g : NFA Nat Nat) (n : Nat) : Prop :=
  ∀ p < n, (∀ c < letterCount, ∀ q, q ∉ g.step p c) → p ∈ g.accept

variable {g : NFA Nat Nat} {n i j p q : Nat} {R : Nat → Nat → Prop} {Bs Cs : List (Set Nat)}
  {cs : List Nat}

theorem mem_signature_iff {c : Nat} : (i, c, j) ∈ signature g Bs p ↔
    InBlock Bs p i ∧ c < letterCount ∧ ∃ q ∈ g.step p c, InBlock Bs q j := Iff.rfl

theorem Bisimulation.symm (h : Bisimulation g R) : Bisimulation g fun p q => R q p where
  accept p q hpq := (h.accept q p hpq).symm
  forth p q c p' hpq := h.back q p c p' hpq
  back p q c q' hpq := h.forth q p c q' hpq

namespace Blocks

theorem exists_block (h : Blocks n Bs) (hp : p < n) : ∃ i, InBlock Bs p i := by
  obtain ⟨B, hB, hpB⟩ := h.cover p hp
  obtain ⟨i, hi⟩ := List.mem_iff_getElem?.1 hB
  exact ⟨i, B, hi, hpB⟩

theorem exists_state (h : Blocks n Bs) (hi : i < Bs.length) : ∃ p, InBlock Bs p i := by
  obtain ⟨p, hp⟩ := h.inhabited Bs[i] (List.getElem_mem hi)
  exact ⟨p, Bs[i], List.getElem?_eq_getElem hi, hp⟩

theorem state_lt (h : Blocks n Bs) (hp : InBlock Bs p i) : p < n := by
  obtain ⟨B, hB, hpB⟩ := hp
  exact h.within B (List.mem_of_getElem? hB) p hpB

theorem unique (h : Blocks n Bs) (hi : InBlock Bs p i) (hj : InBlock Bs p j) : i = j := by
  obtain ⟨B, hB, hpB⟩ := hi
  obtain ⟨C, hC, hpC⟩ := hj
  obtain ⟨hil, rfl⟩ := List.getElem?_eq_some_iff.1 hB
  obtain ⟨hjl, rfl⟩ := List.getElem?_eq_some_iff.1 hC
  have hapart := List.pairwise_iff_getElem.1 h.apart
  by_contra hne
  rcases Nat.lt_or_gt_of_ne hne with hlt | hgt
  · exact Set.disjoint_left.1 (hapart i j hil hjl hlt) hpB hpC
  · exact Set.disjoint_left.1 (hapart j i hjl hil hgt) hpC hpB

theorem together_iff (h : Blocks n Bs) (hp : InBlock Bs p i) :
    Together Bs p q ↔ InBlock Bs q i := by
  constructor
  · rintro ⟨B, hB, hpB, hqB⟩
    obtain ⟨j, hj⟩ := List.mem_iff_getElem?.1 hB
    obtain rfl := h.unique hp ⟨B, hj, hpB⟩
    exact ⟨B, hj, hqB⟩
  · rintro ⟨C, hC, hqC⟩
    obtain ⟨B, hB, hpB⟩ := hp
    obtain rfl : B = C := Option.some.inj (hB.symm.trans hC)
    exact ⟨B, List.mem_of_getElem? hB, hpB, hqC⟩

/-- A finer partition has no fewer blocks, and more unless it is the same partition. -/
theorem length_le_of_finer (h : Blocks n Bs) (h' : Blocks n Cs)
    (hfine : ∀ p q, Together Cs p q → Together Bs p q) :
    Bs.length ≤ Cs.length ∧
      (Bs.length = Cs.length → ∀ p q, Together Bs p q → Together Cs p q) := by
  -- a state of each block of the first partition, and its block in the second one
  choose state hstate using fun i : Fin Bs.length => h.exists_state i.2
  choose block hblock using fun i : Fin Bs.length => h'.exists_block (h.state_lt (hstate i))
  have hlt : ∀ i, block i < Cs.length := fun i => by
    obtain ⟨C, hC, -⟩ := hblock i
    exact (List.getElem?_eq_some_iff.1 hC).1
  let F : Fin Bs.length → Fin Cs.length := fun i => ⟨block i, hlt i⟩
  have hF : Function.Injective F := by
    intro i j hij
    have hsame : block i = block j := congrArg Fin.val hij
    have hj := hblock j
    rw [← hsame] at hj
    have htogether := hfine _ _ ((h'.together_iff (hblock i)).2 hj)
    exact Fin.ext (h.unique ((h.together_iff (hstate i)).1 htogether) (hstate j))
  constructor
  · simpa using Fintype.card_le_of_injective F hF
  · intro hlen p q hpq
    have hbij : Function.Bijective F :=
      (Fintype.bijective_iff_injective_and_card F).2 ⟨hF, by simpa using hlen⟩
    have hback : ∀ v k, InBlock Cs v k → ∃ i : Fin Bs.length, block i = k ∧ InBlock Bs v i := by
      intro v k hv
      obtain ⟨C, hC, -⟩ := id hv
      obtain ⟨i, hi⟩ := hbij.2 ⟨k, (List.getElem?_eq_some_iff.1 hC).1⟩
      have hik : block i = k := congrArg Fin.val hi
      have hrep := hblock i
      rw [hik] at hrep
      have htogether := hfine _ _ ((h'.together_iff hrep).2 hv)
      exact ⟨i, hik, (h.together_iff (hstate i)).1 htogether⟩
    obtain ⟨B, hB, hpB, hqB⟩ := id hpq
    obtain ⟨k, hk⟩ := h'.exists_block (h.within B hB p hpB)
    obtain ⟨l, hl⟩ := h'.exists_block (h.within B hB q hqB)
    obtain ⟨i, rfl, hi⟩ := hback p k hk
    obtain ⟨j, rfl, hj⟩ := hback q l hl
    have hij : (i : Nat) = j := h.unique ((h.together_iff hi).1 hpq) hj
    obtain rfl : i = j := Fin.ext hij
    exact (h'.together_iff hk).2 hl

theorem singletons (n : Nat) : Blocks n ((List.range n).map fun p => {p}) where
  inhabited B hB := by
    obtain ⟨p, -, rfl⟩ := List.mem_map.1 hB
    exact Set.singleton_nonempty p
  within B hB p hp := by
    obtain ⟨q, hq, rfl⟩ := List.mem_map.1 hB
    obtain rfl : p = q := hp
    exact List.mem_range.1 hq
  cover p hp := ⟨{p}, List.mem_map.2 ⟨p, List.mem_range.2 hp, rfl⟩, rfl⟩
  apart := by
    rw [List.pairwise_map]
    exact List.nodup_range.imp fun hne => Set.disjoint_singleton.2 hne

theorem eq_of_singletons (h : Together ((List.range n).map fun p => {p}) p q) : p = q := by
  obtain ⟨B, hB, hp, hq⟩ := h
  obtain ⟨v, -, rfl⟩ := List.mem_map.1 hB
  exact hp.trans hq.symm

theorem length_le (h : Blocks n Bs) : Bs.length ≤ n := by
  have hle := (h.length_le_of_finer (singletons n) fun p q hpq => ?_).1
  · simpa using hle
  · obtain rfl := eq_of_singletons hpq
    obtain ⟨B, hB, hp, -⟩ := hpq
    obtain ⟨v, hv, rfl⟩ := List.mem_map.1 hB
    obtain rfl : p = v := hp
    obtain ⟨C, hC, hpC⟩ := h.cover p (List.mem_range.1 hv)
    exact ⟨C, hC, hpC, hpC⟩

theorem length_eq (h : Blocks n Bs) (hone : ∀ p q, Together Bs p q → p = q) : Bs.length = n := by
  refine Nat.le_antisymm h.length_le ?_
  have hle := ((singletons n).length_le_of_finer h fun p q hpq => ?_).1
  · simpa using hle
  · obtain rfl := hone p q hpq
    obtain ⟨B, hB, hp, -⟩ := hpq
    exact ⟨{p}, List.mem_map.2 ⟨p, List.mem_range.2 (h.within B hB p hp), rfl⟩, rfl, rfl⟩

theorem eq_of_mem {B C : Set Nat} (h : Blocks n Bs) (hB : B ∈ Bs) (hC : C ∈ Bs) (hpB : p ∈ B)
    (hpC : p ∈ C) : B = C := by
  obtain ⟨i, hi⟩ := List.mem_iff_getElem?.1 hB
  obtain ⟨j, hj⟩ := List.mem_iff_getElem?.1 hC
  obtain rfl := h.unique ⟨B, hi, hpB⟩ ⟨C, hj, hpC⟩
  exact Option.some.inj (hi.symm.trans hj)

theorem setOf_together {B : Set Nat} (h : Blocks n Bs) (hB : B ∈ Bs) (hp : p ∈ B) :
    {q | q < n ∧ Together Bs p q} = B := by
  ext q
  constructor
  · rintro ⟨-, C, hC, hpC, hq⟩
    obtain rfl := h.eq_of_mem hB hC hp hpC
    exact hq
  · exact fun hq => ⟨h.within B hB q hq, B, hB, hp, hq⟩

theorem nodup (h : Blocks n Bs) : Bs.Nodup := by
  refine h.apart.imp_of_mem fun {B C} hB _ hapart heq => ?_
  obtain ⟨p, hp⟩ := h.inhabited B hB
  exact Set.disjoint_left.1 hapart hp (heq ▸ hp)

theorem encard_classes (h : Blocks n Bs) :
    ((fun p => {q | q < n ∧ Together Bs p q}) '' Set.Iio n).encard = Bs.length := by
  classical
  have hblocks : (fun p => {q | q < n ∧ Together Bs p q}) '' Set.Iio n = Bs.toFinset := by
    ext B
    rw [Finset.mem_coe, List.mem_toFinset]
    constructor
    · rintro ⟨p, hp, rfl⟩
      obtain ⟨B, hB, hpB⟩ := h.cover p hp
      change {q | q < n ∧ Together Bs p q} ∈ Bs
      rwa [h.setOf_together hB hpB]
    · intro hB
      obtain ⟨p, hp⟩ := h.inhabited B hB
      exact ⟨p, h.within B hB p hp, h.setOf_together hB hp⟩
  rw [hblocks, Set.encard_coe_eq_coe_finsetCard, List.toFinset_card_of_nodup h.nodup]

/-- There are no more blocks than values that tell states of different blocks apart. -/
theorem length_le_card {α : Type} [Fintype α] (h : Blocks n Bs) {F : Nat → α}
    (hF : ∀ p < n, ∀ q < n, F p = F q → Together Bs p q) : Bs.length ≤ Fintype.card α := by
  choose state hstate using fun i : Fin Bs.length => h.exists_state i.2
  have hinj : Function.Injective fun i => F (state i) := by
    intro i j heq
    have hij := hF _ (h.state_lt (hstate i)) _ (h.state_lt (hstate j)) heq
    exact Fin.ext (h.unique ((h.together_iff (hstate i)).1 hij) (hstate j))
  simpa using Fintype.card_le_of_injective _ hinj

end Blocks

theorem merged_contained : Contained (carry g (InBlock Bs)) Bs.length :=
  carry_contained g fun _ _ ⟨_, hB, _⟩ => (List.getElem?_eq_some_iff.1 hB).1

namespace Coarse

theorem signature_eq (h : Coarse g n Bs) (hg : Contained g n) (hR : Bisimulation g R)
    (hpq : R p q) (hp : p < n) (hq : q < n) : signature g Bs p = signature g Bs q := by
  have hsub : ∀ {R : Nat → Nat → Prop} {p q : Nat}, Bisimulation g R → R p q → p < n → q < n →
      signature g Bs p ⊆ signature g Bs q := by
    rintro R p q hR hpq hp hq ⟨i, c, j⟩ ⟨hi, hc, p', hp', hj⟩
    obtain ⟨q', hq', hpq'⟩ := hR.forth p q c p' hpq hc hp'
    have hown := h.bisimilar R p q hR hpq hp hq
    have hnext := h.bisimilar R p' q' hR hpq' (hg.target p c p' hp') (hg.target q c q' hq')
    exact ⟨(h.together_iff hi).1 hown, hc, q', hq', (h.together_iff hj).1 hnext⟩
  exact Set.Subset.antisymm (hsub hR hpq hp hq) (hsub hR.symm hpq hq hp)

theorem mem_signature (h : Coarse g n Bs) (hg : Contained g n) {c : Nat} (hi : InBlock Bs p i)
    (hc : c < letterCount) (hq : q ∈ g.step p c) : ∃ j, (i, c, j) ∈ signature g Bs p := by
  obtain ⟨j, hj⟩ := h.exists_block (hg.target p c q hq)
  exact ⟨j, hi, hc, q, hq, hj⟩

/-- All states without edges are bisimilar if they accept. -/
theorem together_of_no_edges (h : Coarse g n Bs) (hdriven : Driven g n) (hp : p < n) (hq : q < n)
    (hnp : ∀ c < letterCount, ∀ r, r ∉ g.step p c) (hnq : ∀ c < letterCount, ∀ r, r ∉ g.step q c) :
    Together Bs p q := by
  let R (u v : Nat) : Prop := u = p ∧ v = q
  have hR : Bisimulation g R := by
    refine ⟨?_, ?_, ?_⟩
    · rintro _ _ ⟨rfl, rfl⟩
      exact iff_of_true (hdriven _ hp hnp) (hdriven _ hq hnq)
    · rintro _ _ c r ⟨rfl, rfl⟩ hc hr
      exact absurd hr (hnp c hc r)
    · rintro _ _ c r ⟨rfl, rfl⟩ hc hr
      exact absurd hr (hnq c hc r)
  exact h.bisimilar R p q hR ⟨rfl, rfl⟩ hp hq

/-- States of the same moves were in one block before. -/
theorem finer (h : Coarse g n Bs) (hg : Contained g n) (hdriven : Driven g n)
    (hr : Refined g n Bs Cs) (hpq : Together Cs p q) : Together Bs p q := by
  obtain ⟨C, hC, hpC, hqC⟩ := id hpq
  have hp := hr.within C hC p hpC
  have hq := hr.within C hC q hqC
  have heq := (hr.together p q hp hq).1 hpq
  obtain ⟨i, hi⟩ := h.exists_block hp
  obtain ⟨k, hk⟩ := h.exists_block hq
  by_cases hmoves : ∃ c < letterCount, ∃ r, r ∈ g.step p c
  · obtain ⟨c, hc, r, hstep⟩ := hmoves
    obtain ⟨j, hj⟩ := h.mem_signature hg hi hc hstep
    rw [heq] at hj
    exact (h.together_iff hi).2 hj.1
  · push Not at hmoves
    refine h.together_of_no_edges hdriven hp hq hmoves fun c hc r hstep => ?_
    obtain ⟨j, hj⟩ := h.mem_signature hg hk hc hstep
    rw [← heq] at hj
    obtain ⟨-, -, r', hr', -⟩ := hj
    exact hmoves c hc r' hr'

/-- A round of refinement keeps accepting states apart and bisimilar states together. -/
theorem refine (h : Coarse g n Bs) (hg : Contained g n) (hdriven : Driven g n)
    (hr : Refined g n Bs Cs) : Coarse g n Cs where
  toBlocks := hr.toBlocks
  accept p q hpq := h.accept p q (h.finer hg hdriven hr hpq)
  bisimilar _ p q hR hpq hp hq := (hr.together p q hp hq).2 (h.signature_eq hg hR hpq hp hq)

theorem length_le_refined (h : Coarse g n Bs) (hg : Contained g n) (hdriven : Driven g n)
    (hr : Refined g n Bs Cs) : Bs.length ≤ Cs.length :=
  (h.length_le_of_finer hr.toBlocks fun _ _ => h.finer hg hdriven hr).1

/-- A round that finds no new block separates nothing. -/
theorem stable_of_length (h : Coarse g n Bs) (hg : Contained g n) (hdriven : Driven g n)
    (hr : Refined g n Bs Cs) (hlen : Cs.length = Bs.length) : Stable g Bs := by
  intro p q hpq
  obtain ⟨B, hB, hpB, hqB⟩ := id hpq
  have hsame := (h.length_le_of_finer hr.toBlocks fun _ _ => h.finer hg hdriven hr).2 hlen.symm
  exact (hr.together p q (h.within B hB p hpB) (h.within B hB q hqB)).1 (hsame p q hpq)

theorem bisimulation (h : Coarse g n Bs) (hs : Stable g Bs) (hg : Contained g n) :
    Bisimulation g (Together Bs) := by
  have hforth : ∀ p q c p', Together Bs p q → c < letterCount → p' ∈ g.step p c →
      ∃ q', q' ∈ g.step q c ∧ Together Bs p' q' := by
    intro p q c p' hpq hc hp'
    obtain ⟨i, hi⟩ := h.exists_block (hg.source p c p' hp')
    obtain ⟨j, hj⟩ := h.exists_block (hg.target p c p' hp')
    have hmem : (i, c, j) ∈ signature g Bs p := ⟨hi, hc, p', hp', hj⟩
    rw [hs p q hpq] at hmem
    obtain ⟨-, -, q', hq', hjq⟩ := hmem
    exact ⟨q', hq', (h.together_iff hj).2 hjq⟩
  have hsymm : ∀ p q, Together Bs p q → Together Bs q p := by
    rintro p q ⟨B, hB, hp, hq⟩
    exact ⟨B, hB, hq, hp⟩
  refine ⟨h.accept, hforth, fun p q c q' hpq hc hq' => ?_⟩
  obtain ⟨p', hp', hqp⟩ := hforth q p c q' (hsymm p q hpq) hc hq'
  exact ⟨p', hp', hsymm q' p' hqp⟩

theorem lifts (h : Coarse g n Bs) (hs : Stable g Bs) (hg : Contained g n) :
    Lifts g (InBlock Bs) := by
  rintro p i c j hc hp ⟨p', q', hp', hj, hstep⟩
  have htogether := (h.together_iff hp').2 hp
  obtain ⟨q, hq, hqq⟩ := (h.bisimulation hs hg).forth p' p c q' htogether hc hstep
  exact ⟨q, (h.together_iff hj).1 hqq, hq⟩

theorem accept_iff (h : Coarse g n Bs) (hi : InBlock Bs p i) :
    i ∈ (carry g (InBlock Bs)).accept ↔ p ∈ g.accept := by
  constructor
  · rintro ⟨q, hq, hacc⟩
    exact (h.accept q p ((h.together_iff hq).2 hi)).1 hacc
  · exact fun hacc => ⟨p, hi, hacc⟩

theorem accepts_from_iff (h : Coarse g n Bs) (hs : Stable g Bs) (hg : Contained g n)
    (hcs : Lettered cs) (hi : InBlock Bs p i) :
    (∃ j ∈ (carry g (InBlock Bs)).accept, j ∈ (carry g (InBlock Bs)).evalFrom {i} cs) ↔
      ∃ q ∈ g.accept, q ∈ g.evalFrom {p} cs := by
  constructor
  · rintro ⟨j, hacc, hrun⟩
    obtain ⟨q, hq, hrun⟩ := eval_of_carry (h.lifts hs hg) hcs hi hrun
    exact ⟨q, (h.accept_iff hq).1 hacc, hrun⟩
  · rintro ⟨q, hacc, hrun⟩
    have hp := h.state_lt hi
    obtain ⟨j, hj, hrun⟩ := eval_carry hi hrun fun u v r _ hr _ =>
      h.exists_block (hg.toBounded.eval (by simpa using hp) u r hr)
    exact ⟨j, (h.accept_iff hj).2 hacc, hrun⟩

/-- Merging the states of each block keeps the language. -/
theorem accepts_carry (h : Coarse g n Bs) (hs : Stable g Bs) (hg : Contained g n)
    (hcs : Lettered cs) : cs ∈ (carry g (InBlock Bs)).accepts ↔ cs ∈ g.accepts := by
  rw [mem_accepts_iff_exists, mem_accepts_iff_exists]
  constructor
  · rintro ⟨i, ⟨p, hp, hstart⟩, haccepts⟩
    exact ⟨p, hstart, (h.accepts_from_iff hs hg hcs hp).1 haccepts⟩
  · rintro ⟨p, hstart, haccepts⟩
    obtain ⟨i, hi⟩ := h.exists_block (hg.start p hstart)
    exact ⟨i, ⟨p, hi, hstart⟩, (h.accepts_from_iff hs hg hcs hi).2 haccepts⟩

theorem bisimulation_of_carry (h : Coarse g n Bs) (hs : Stable g Bs) (hg : Contained g n)
    (hR : Bisimulation (carry g (InBlock Bs)) R) :
    Bisimulation g fun p q => ∃ i j, InBlock Bs p i ∧ InBlock Bs q j ∧ R i j := by
  have hforth : ∀ {R : Nat → Nat → Prop}, Bisimulation (carry g (InBlock Bs)) R →
      ∀ p q i j c p', InBlock Bs p i → InBlock Bs q j → R i j → c < letterCount → p' ∈ g.step p c →
      ∃ q' i' j', q' ∈ g.step q c ∧ InBlock Bs p' i' ∧ InBlock Bs q' j' ∧ R i' j' := by
    intro R hR p q i j c p' hi hj hij hc hp'
    obtain ⟨i', hi'⟩ := h.exists_block (hg.target p c p' hp')
    obtain ⟨j', hstep, hij'⟩ := hR.forth i j c i' hij hc ⟨p, p', hi, hi', hp'⟩
    obtain ⟨q', hq', hstep⟩ := h.lifts hs hg q j c j' hc hj hstep
    exact ⟨q', i', j', hstep, hi', hq', hij'⟩
  refine ⟨?_, ?_, ?_⟩
  · rintro p q ⟨i, j, hi, hj, hij⟩
    rw [← h.accept_iff hi, ← h.accept_iff hj]
    exact hR.accept i j hij
  · rintro p q c p' ⟨i, j, hi, hj, hij⟩ hc hp'
    obtain ⟨q', i', j', hstep, hi', hj', hij'⟩ := hforth hR p q i j c p' hi hj hij hc hp'
    exact ⟨q', hstep, i', j', hi', hj', hij'⟩
  · rintro p q c q' ⟨i, j, hi, hj, hij⟩ hc hq'
    obtain ⟨p', j', i', hstep, hj', hi', hij'⟩ := hforth hR.symm q p j i c q' hj hi hij hc hq'
    exact ⟨p', hstep, i', j', hi', hj', hij'⟩

theorem eq_of_bisimulation (h : Coarse g n Bs) (hs : Stable g Bs) (hg : Contained g n)
    (hR : Bisimulation (carry g (InBlock Bs)) R) (hij : R i j) (hi : i < Bs.length)
    (hj : j < Bs.length) : i = j := by
  obtain ⟨p, hp⟩ := h.exists_state hi
  obtain ⟨q, hq⟩ := h.exists_state hj
  have htogether := h.bisimilar _ p q (h.bisimulation_of_carry hs hg hR) ⟨i, j, hp, hq, hij⟩
    (h.state_lt hp) (h.state_lt hq)
  exact h.unique ((h.together_iff hp).1 htogether) hq

end Coarse

section Dead

def Dead (g : NFA Nat Nat) (n p : Nat) : Prop := p < n ∧ ¬ Productive g p

/-- Edges on every letter from each dead state to each of them. -/
def joined (g : NFA Nat Nat) (n : Nat) : NFA Nat Nat :=
  connect g (Dead g n) (fun _ => True) (Dead g n)

theorem joined_contained (hg : Contained g n) : Contained (joined g n) n :=
  hg.connect (fun _ h => h.1) fun _ h => h.1

/-- What holds of the accepting states, and before a state if it holds of it, holds of the
productive states. -/
theorem Productive.induct {P : Nat → Prop} (h : Productive g p) (haccept : ∀ q ∈ g.accept, P q)
    (hstep : ∀ p c q, q ∈ g.step p c → P q → P p) : P p := by
  obtain ⟨cs, -, r, hacc, hrun⟩ := h
  induction cs generalizing p with
  | nil =>
    obtain rfl : r = p := hrun
    exact haccept r hacc
  | cons c cs ih =>
    rw [NFA.evalFrom_cons, NFA.stepSet_singleton, NFA.mem_evalFrom_iff_exists] at hrun
    obtain ⟨q, hq, hrun⟩ := hrun
    exact hstep p c q hq (ih hrun)

theorem not_mem_accepts {cs : List Nat} (hnone : ∀ p ∈ g.start, ¬ Productive g p)
    (hcs : Lettered cs) : cs ∉ g.accepts := by
  rw [mem_accepts_iff_exists]
  rintro ⟨p, hp, haccepts⟩
  exact hnone p hp ⟨cs, hcs, haccepts⟩

theorem productive_of_step {c : Nat} (hc : c < letterCount) (hstep : q ∈ g.step p c)
    (hq : Productive g q) : Productive g p := by
  obtain ⟨cs, hcs, r, hacc, hrun⟩ := hq
  refine ⟨c :: cs, lettered_cons.2 ⟨hc, hcs⟩, r, hacc, ?_⟩
  rw [NFA.evalFrom_cons, NFA.stepSet_singleton, NFA.mem_evalFrom_iff_exists]
  exact ⟨q, hstep, hrun⟩

theorem Dead.step {c : Nat} (hp : Dead g n p) (hg : Contained g n) (hc : c < letterCount)
    (hstep : q ∈ g.step p c) : Dead g n q :=
  ⟨hg.target p c q hstep, fun hq => hp.2 (productive_of_step hc hstep hq)⟩

/-- The edges between dead states are on no accepting run. -/
theorem accepts_from_joined (hcs : Lettered cs) :
    (∃ r ∈ (joined g n).accept, r ∈ (joined g n).evalFrom {p} cs) ↔
      ∃ r ∈ g.accept, r ∈ g.evalFrom {p} cs := by
  induction cs generalizing p with
  | nil => rfl
  | cons c cs ih =>
    obtain ⟨-, hrest⟩ := lettered_cons.1 hcs
    simp only [NFA.evalFrom_cons, NFA.stepSet_singleton]
    constructor
    · rintro ⟨r, hacc, hrun⟩
      obtain ⟨q, hstep, hrun⟩ := NFA.mem_evalFrom_iff_exists.1 hrun
      obtain ⟨r, hacc, hrun⟩ := (ih hrest).1 ⟨r, hacc, hrun⟩
      rcases hstep with hstep | ⟨-, -, -, hdead⟩
      · exact ⟨r, hacc, NFA.mem_evalFrom_iff_exists.2 ⟨q, hstep, hrun⟩⟩
      · exact absurd ⟨cs, hrest, r, hacc, hrun⟩ hdead
    · rintro ⟨r, hacc, hrun⟩
      obtain ⟨q, hstep, hrun⟩ := NFA.mem_evalFrom_iff_exists.1 hrun
      obtain ⟨r, hacc, hrun⟩ := (ih hrest).2 ⟨r, hacc, hrun⟩
      exact ⟨r, hacc, NFA.mem_evalFrom_iff_exists.2 ⟨q, .inl hstep, hrun⟩⟩

theorem accepts_joined (hcs : Lettered cs) : cs ∈ (joined g n).accepts ↔ cs ∈ g.accepts := by
  rw [mem_accepts_iff_exists, mem_accepts_iff_exists]
  exact exists_congr fun p => and_congr_right fun _ => accepts_from_joined hcs

theorem productive_joined : Productive (joined g n) p ↔ Productive g p :=
  exists_congr fun _ => and_congr_right accepts_from_joined

/-- With the edges between dead states only accepting states have no edges. -/
theorem joined_driven : Driven (joined g n) n := by
  intro p hp hnone
  by_cases hprod : Productive g p
  · obtain ⟨cs, hcs, r, hacc, hrun⟩ := hprod
    cases cs with
    | nil =>
      obtain rfl : r = p := hrun
      exact hacc
    | cons c cs =>
      rw [NFA.evalFrom_cons, NFA.stepSet_singleton, NFA.mem_evalFrom_iff_exists] at hrun
      obtain ⟨q, hstep, -⟩ := hrun
      exact absurd (.inl hstep) (hnone c (lettered_cons.1 hcs).1 q)
  · have hdead : Dead g n p := ⟨hp, hprod⟩
    exact absurd (.inr ⟨hdead, trivial, hdead⟩) (hnone 0 letterCount_pos p)

theorem dead_bisimulation (hg : Contained g n) :
    Bisimulation (joined g n) fun p q => Dead g n p ∧ Dead g n q := by
  have hreject : ∀ p, Dead g n p → p ∉ g.accept := fun p hp hacc =>
    hp.2 ⟨[], lettered_nil, p, hacc, rfl⟩
  have hnext : ∀ p c p', Dead g n p → c < letterCount → p' ∈ (joined g n).step p c →
      Dead g n p' := by
    intro p c p' hp hc hstep
    rcases hstep with hstep | ⟨-, -, hp'⟩
    · exact hp.step hg hc hstep
    · exact hp'
  refine ⟨?_, ?_, ?_⟩
  · rintro p q ⟨hp, hq⟩
    exact iff_of_false (hreject p hp) (hreject q hq)
  · rintro p q c p' ⟨hp, hq⟩ hc hstep
    have hp' := hnext p c p' hp hc hstep
    exact ⟨p', .inr ⟨hq, trivial, hp'⟩, hp', hp'⟩
  · rintro p q c q' ⟨hp, hq⟩ hc hstep
    have hq' := hnext q c q' hq hc hstep
    exact ⟨q', .inr ⟨hp, trivial, hq'⟩, hq', hq'⟩

variable (h : Coarse (joined g n) n Bs) (hs : Stable (joined g n) Bs) (hg : Contained g n)
include h hs hg

/-- Merging leaves one dead state at most, and it has every edge to itself already. -/
theorem joined_carry {c : Nat} :
    j ∈ (joined (carry (joined g n) (InBlock Bs)) Bs.length).step i c ↔
      j ∈ (carry (joined g n) (InBlock Bs)).step i c := by
  have hg' := joined_contained hg
  have hdead : ∀ i, Dead (carry (joined g n) (InBlock Bs)) Bs.length i →
      ∃ p, InBlock Bs p i ∧ Dead g n p := by
    rintro i ⟨hi, hnot⟩
    obtain ⟨p, hp⟩ := h.exists_state hi
    refine ⟨p, hp, h.state_lt hp, fun hprod => hnot ?_⟩
    obtain ⟨cs, hcs, haccepts⟩ := productive_joined.2 hprod
    exact ⟨cs, hcs, (h.accepts_from_iff hs hg' hcs hp).2 haccepts⟩
  constructor
  · rintro (hstep | ⟨hi, -, hj⟩)
    · exact hstep
    · obtain ⟨p, hp, hpdead⟩ := hdead i hi
      obtain ⟨q, hq, hqdead⟩ := hdead j hj
      exact ⟨p, q, hp, hq, .inr ⟨hpdead, trivial, hqdead⟩⟩
  · exact .inl

/-- Merging a second time finds nothing to merge. -/
theorem length_of_carry
    (h' : Coarse (joined (carry (joined g n) (InBlock Bs)) Bs.length) Bs.length Cs)
    (hs' : Stable (joined (carry (joined g n) (InBlock Bs)) Bs.length) Cs) :
    Cs.length = Bs.length := by
  have hg' := joined_contained hg
  have hbis := h'.bisimulation hs' (joined_contained merged_contained)
  -- with the edges that are there already the relation is a bisimulation too
  have hbis' : Bisimulation (carry (joined g n) (InBlock Bs)) (Together Cs) := by
    refine ⟨hbis.accept, fun p q c p' hpq hc hp' => ?_, fun p q c q' hpq hc hq' => ?_⟩
    · obtain ⟨q', hq', hpq'⟩ := hbis.forth p q c p' hpq hc (.inl hp')
      exact ⟨q', (joined_carry h hs hg).1 hq', hpq'⟩
    · obtain ⟨p', hp', hpq'⟩ := hbis.back p q c q' hpq hc (.inl hq')
      exact ⟨p', (joined_carry h hs hg).1 hp', hpq'⟩
  refine h'.length_eq fun p q hpq => ?_
  obtain ⟨C, hC, hp, hq⟩ := id hpq
  exact h.eq_of_bisimulation hs hg' hbis' hpq (h'.within C hC p hp) (h'.within C hC q hq)

/-- Merging keeps one successor on each letter: the added edges all lead into one block. -/
theorem carry_deterministic (hdet : Deterministic g n) :
    Deterministic (carry (joined g n) (InBlock Bs)) Bs.length := by
  have hg' := joined_contained hg
  obtain ⟨p, hp, honly⟩ := hdet.start
  obtain ⟨i, hi⟩ := h.exists_block (hg.start p hp)
  refine ⟨⟨i, ⟨p, hi, hp⟩, ?_⟩, fun i hi c hc => ?_⟩
  · rintro j ⟨q, hq, hstart⟩
    obtain rfl := honly q hstart
    exact h.unique hq hi
  · obtain ⟨p, hp⟩ := h.exists_state hi
    obtain ⟨q, hq, honly⟩ := hdet.successor p (h.state_lt hp) c hc
    have hqn := hg.target p c q hq
    obtain ⟨j, hj⟩ := h.exists_block hqn
    refine ⟨j, ⟨p, q, hp, hj, .inl hq⟩, fun j' hj' => ?_⟩
    obtain ⟨q', hq', hstep⟩ := h.lifts hs hg' p i c j' hc hp hj'
    rcases hstep with hstep | ⟨hpdead, -, hqdead⟩
    · obtain rfl := honly q' hstep
      exact h.unique hq' hj
    · have htogether := h.bisimilar _ q q' (dead_bisimulation hg) ⟨hpdead.step hg hc hq, hqdead⟩
        hqn hqdead.1
      exact h.unique hq' ((h.together_iff hj).1 htogether)

end Dead

end SymbolicAutomata
