import SymbolicAutomata.Minimization
import SymbolicAutomata.Proofs.Bisimulations
import SymbolicAutomata.Proofs.Determinization
import SymbolicAutomata.Proofs.Selections
/-!
# Minimization

The moves of all states are one function: its variables below the partition names decide the state,
and what remains then are the moves of that state. States with the same remaining function form a
block. The quotient keeps the language, has no two bisimilar states and is not made smaller by a
second minimization.
-/
namespace SymbolicAutomata

open Manager Bdd Layout SymbolicNfa

variable {w w' : Workspace} {m : Manager} {g : NFA Nat Nat} {k l n p q : Nat} {f t : Ref}
  {d index : Domain} {Bs Cs : List (Set Nat)} {blocks : List ValueSet}
  {σ τ : Set (Nat × Nat × Nat)}

namespace ValueSet

theorem Shows.moved_self {s : ValueSet} {P : Nat → Prop} (h : s.Shows w.current P)
    (hw : w.current.WellFormed) (hd : s.domain = d) : Yields w (s.moved d) fun r _ => r = s := by
  have hsame : s.withDomain d = pure s := by
    unfold ValueSet.withDomain
    exact if_pos hd.symm
  apply Runs.within h.home
  rw [hsame]
  exact Runs.pure hw rfl

end ValueSet

/-- The listed sets show the blocks over one domain. -/
def Listed (m : Manager) (d : Domain) : List (Set Nat) → List ValueSet → Prop :=
  List.Forall₂ fun B s => s.domain = d ∧ s.Shows m (· ∈ B)

namespace Listed

theorem later (h : Listed w.current d Bs blocks) (hl : w.Leads w') :
    Listed w'.current d Bs blocks :=
  List.Forall₂.imp (fun _ _ hs => ⟨hs.1, hs.2.later hl⟩) h

theorem length_eq (h : Listed m d Bs blocks) : Bs.length = blocks.length :=
  List.Forall₂.length_eq h

theorem block_at (h : Listed m d Bs blocks) {s : ValueSet} {i : Nat} (hs : blocks[i]? = some s) :
    ∃ B, Bs[i]? = some B ∧ s.domain = d ∧ s.Shows m (· ∈ B) := by
  obtain ⟨hi, rfl⟩ := List.getElem?_eq_some_iff.1 hs
  have hi' : i < Bs.length := h.length_eq.symm ▸ hi
  exact ⟨Bs[i], List.getElem?_eq_getElem hi', List.Forall₂.get h hi' hi⟩

theorem withDomain_yields {e : Domain} (h : Listed w.current d Bs blocks)
    (hw : w.current.WellFormed) (hfit : ∀ B ∈ Bs, d.Fits e (· ∈ B)) :
    Yields w (blocks.mapM (·.withDomain e)) fun r m => Listed m e Bs r := by
  refine mapM_yields hw ?_ fun B r w' w'' hl hr => ⟨hr.1, hr.2.later hl⟩
  have hmem := (List.forall₂_and_left (p := (· ∈ Bs)) Bs blocks).2 ⟨fun _ hB => hB, h⟩
  apply hmem.imp
  rintro B s ⟨hB, hd, hs⟩ w' hl
  exact (hs.later hl).withDomain hl.after (hd ▸ hfit B hB)

open Classical in
/-- The sets without elements are dropped on both sides. -/
theorem filter (h : Listed m d Bs blocks) (hm : m.Canonical)
    (hsmall : ∀ B ∈ Bs, ∀ p ∈ B, p < 2 ^ d.len) :
    Listed m d (Bs.filter fun B => decide B.Nonempty) (blocks.filter (!·.isEmpty)) := by
  induction h with
  | nil => exact .nil
  | @cons B s Bs blocks hs _ ih =>
    have hrest := ih fun C hC => hsmall C (by simp [hC])
    have hiff : s.isEmpty = true ↔ ¬ B.Nonempty := by
      rw [hs.2.isEmpty_iff hm, hs.1, Set.not_nonempty_iff_eq_empty, Set.eq_empty_iff_forall_notMem]
      constructor
      · exact fun hnone p hp => hnone p (hsmall B (by simp) p hp) hp
      · exact fun hnone p _ => hnone p
    by_cases hB : B.Nonempty
    · have hsome : s.isEmpty = false := by
        rw [← Bool.not_eq_true, hiff]
        exact not_not_intro hB
      rw [List.filter_cons_of_pos (by simpa using hB), List.filter_cons_of_pos (by simp [hsome])]
      exact .cons hs hrest
    · rw [List.filter_cons_of_neg (by simpa using hB),
        List.filter_cons_of_neg (by simp [hiff.2 hB])]
      exact hrest

end Listed

theorem foldl_width {s : ValueSet} (h : ∀ t ∈ blocks, t.domain = s.domain) :
    blocks.foldl (fun w t => max w t.domain.len) s.domain.len = s.domain.len := by
  induction blocks with
  | nil => rfl
  | cons t blocks ih =>
    rw [List.foldl_cons, h t (by simp), Nat.max_self]
    exact ih fun u hu => h u (by simp [hu])

theorem Listed.named_iff (h : Listed m d Bs blocks) (p i : Nat) :
    Naming (InBlock Bs) [p, i] ↔ ∃ e ∈ blocks.zipIdx, p ∈ (Bs[e.2]?).getD ∅ ∧ i = e.2 := by
  rw [naming_iff]
  constructor
  · rintro ⟨B, hB, hp⟩
    have hi := (List.getElem?_eq_some_iff.1 hB).1
    rw [h.length_eq] at hi
    have hmem : (blocks[i], i) ∈ blocks.zipIdx :=
      List.mem_zipIdx_iff_getElem?.2 (List.getElem?_eq_getElem hi)
    exact ⟨_, hmem, by simpa [hB] using hp, rfl⟩
  · rintro ⟨⟨u, i⟩, he, hp, rfl⟩
    obtain ⟨B, hB, -⟩ := h.block_at (List.mem_zipIdx_iff_getElem?.1 he)
    simp only at hp
    rw [hB] at hp
    exact ⟨B, hB, hp⟩

theorem Listed.place_yields {u : ValueSet} {i : Nat} (h : Listed w.current d Bs blocks)
    (hw : w.current.WellFormed) (hu : (u, i) ∈ blocks.zipIdx) (hlen : index.len ≤ 64)
    (hend : index.base + index.len ≤ 2 ^ 31) (hroom : Bs.length ≤ 2 ^ index.len) :
    Yields w (do
      let t ← u.moved d
      Bdd.conj t.fn (← Bdd.value index i)) fun r m =>
        m.Denotes r fun x => d.read x ∈ (Bs[i]?).getD ∅ ∧ index.read x = i := by
  obtain ⟨B, hB, hd, hshows⟩ := h.block_at (List.mem_zipIdx_iff_getElem?.1 hu)
  have hi : i < 2 ^ index.len := Nat.lt_of_lt_of_le (List.getElem?_eq_some_iff.1 hB).1 hroom
  apply Runs.bind (hshows.moved_self hw hd)
  rintro _ w1 hl1 rfl
  apply Runs.bind (value_yields hl1.after hlen hend hi)
  intro x w2 hl2 hx
  have hden := (hl1.trans hl2).denotes hshows.denotes
  rw [hd] at hden
  apply (conj_yields hl2.after hden hx).imp
  intro r w3 _ hr
  exact hr.congr fun t => by simp [hB]

theorem enumeration_yields (hw : w.current.WellFormed) (h : Listed w.current d Bs blocks)
    (hne : Bs ≠ []) (hapart : d.Apart index) (hend : d.base + d.len ≤ 2 ^ 31)
    (hend' : index.base + index.len ≤ 2 ^ 31) (hlen : index.len ≤ 64)
    (hroom : Bs.length ≤ 2 ^ index.len) :
    Yields w (Relation.enumeration blocks index) fun r m =>
      r.domains = [d, index] ∧ r.Shows m (Naming (InBlock Bs)) := by
  have hdom : ∀ s ∈ blocks, s.domain = d := fun s hs => by
    obtain ⟨i, hi⟩ := List.mem_iff_getElem?.1 hs
    obtain ⟨_, -, hd, -⟩ := h.block_at hi
    exact hd
  cases blocks with
  | nil => exact absurd (List.forall₂_nil_right_iff.1 h) hne
  | cons s rest =>
    have hwidth : s.domain.withLen ((s :: rest).foldl (fun w t => max w t.domain.len)
        s.domain.len) = d := by
      rw [foldl_width fun t ht => (hdom t ht).trans (hdom s (by simp)).symm]
      exact hdom s (by simp)
    unfold Relation.enumeration
    simp only [hwidth]
    apply Runs.bind (disjMap_yields (P := fun e x => d.read x ∈ (Bs[e.2]?).getD ∅ ∧
      index.read x = e.2) hw fun e he w1 hl1 =>
        (h.later hl1).place_yields hl1.after he hlen hend' hroom)
    intro f w2 hl2 hf
    have hends : EndBy (2 ^ 31) [d, index] := by
      intro e he
      rcases List.mem_pair.1 he with rfl | rfl
      · exact hend
      · exact hend'
    apply Relation.ofFn_yields (R := Naming (InBlock Bs)) hl2.after (by simpa using hapart) hends
    exact hf.congr fun t => (h.named_iff (d.read t) (index.read t)).symm

namespace Layout

def partitionBlock (l : Nat) : Domain := ⟨partitionBase, l, by decide⟩

theorem partitions_eq (hl : l ≤ 32) : partitions l = .ok (partitionBlock l) := by
  rw [partitions, states_eq hl]
  rfl

theorem source_apart_partition (hk : k ≤ 32) : (sourceBlock k).Apart (partitionBlock l) :=
  Domain.apart_of_le (by
    change 1 + k ≤ 33
    omega)

theorem partition_apart_alphabet (hl : l ≤ 32) : (partitionBlock l).Apart alphabet :=
  Domain.apart_of_le (by
    change 33 + l ≤ 97
    omega)

theorem partition_apart_dest (hl : l ≤ 32) : (partitionBlock l).Apart (destBlock k) :=
  Domain.apart_of_le (by
    change 33 + l ≤ 65
    omega)

theorem dest_apart_scratch (hk : k ≤ 32) : (destBlock k).Apart (scratch l) :=
  Domain.apart_of_le (by
    change 65 + k ≤ 65633
    omega)

theorem partition_end (hl : l ≤ 32) :
    (partitionBlock l).base + (partitionBlock l).len ≤ 2 ^ 31 := by
  change 33 + l ≤ 2 ^ 31
  omega

theorem scratch_end (hl : l ≤ 32) : (scratch l).base + (scratch l).len ≤ 2 ^ 31 := by
  change 65633 + l ≤ 2 ^ 31
  omega

def moveBlocks (l : Nat) : List Domain := [partitionBlock l, alphabet, scratch l]

theorem moveBlocks_apart (hl : l ≤ 32) : (moveBlocks l).Pairwise Domain.Apart := by
  simp only [moveBlocks, List.pairwise_cons, List.mem_cons, List.not_mem_nil, or_false,
    forall_eq_or_imp, forall_eq, IsEmpty.forall_iff, implies_true, List.Pairwise.nil, and_true]
  exact ⟨⟨partition_apart_alphabet hl, Domain.apart_of_le (by change 33 + l ≤ 65633; omega)⟩,
    alphabet_apart_scratch⟩

end Layout

def moveOf (l : Nat) (t : Assignment) : Nat × Nat × Nat :=
  ((partitionBlock l).read t, alphabet.read t, (scratch l).read t)

/-- The function holds where a move of the set is carried. -/
def Carries (m : Manager) (l : Nat) (σ : Set (Nat × Nat × Nat)) (f : Ref) : Prop :=
  m.Denotes f fun t => moveOf l t ∈ σ

theorem Carries.later_iff (hl : w.Leads w') (hf : w.current.Has f) :
    Carries w'.current l σ f ↔ Carries w.current l σ f := by
  constructor
  · exact fun h => ⟨hf, fun s => by rw [← hl.eval hf, h.holds]⟩
  · exact fun h => hl.denotes h

/-- The numbers in the moves fit their blocks. -/
def Fitting (l : Nat) (σ : Set (Nat × Nat × Nat)) : Prop :=
  ∀ x ∈ σ, x.1 < 2 ^ l ∧ x.2.1 < letterCount ∧ x.2.2 < 2 ^ l

theorem exists_moveOf {x : Nat × Nat × Nat} (hl : l ≤ 32) (h1 : x.1 < 2 ^ l)
    (h2 : x.2.1 < letterCount) (h3 : x.2.2 < 2 ^ l) : ∃ t, moveOf l t = x := by
  have hfit : List.Forall₂ (fun v d => v < 2 ^ d.len) [x.1, x.2.1, x.2.2] (moveBlocks l) :=
    .cons h1 (.cons h2 (.cons h3 .nil))
  obtain ⟨t, ht⟩ := Domain.exists_reads (moveBlocks_apart hl) hfit
  simp only [Domain.reads, moveBlocks, List.map_cons, List.map_nil, List.cons.injEq, and_true] at ht
  obtain ⟨hi, hc, hj⟩ := ht
  exact ⟨t, by rw [moveOf, hi, hc, hj]⟩

theorem Carries.injective (hσ : Carries m l σ f) (hτ : Carries m l τ f) (hl : l ≤ 32)
    (hfit : Fitting l σ) (hfit' : Fitting l τ) : σ = τ := by
  have hsub : ∀ {σ τ : Set (Nat × Nat × Nat)}, Carries m l σ f → Carries m l τ f → Fitting l σ →
      σ ⊆ τ := by
    intro σ τ hσ hτ hfit x hx
    obtain ⟨h1, h2, h3⟩ := hfit x hx
    obtain ⟨t, rfl⟩ := exists_moveOf hl h1 h2 h3
    exact (hτ.holds t).1 ((hσ.holds t).2 hx)
  exact Set.Subset.antisymm (hsub hσ hτ hfit) (hsub hτ hσ hfit')

theorem signature_fitting (hroom : Bs.length ≤ 2 ^ l) : Fitting l (signature g Bs p) := by
  have hlt : ∀ v i, InBlock Bs v i → i < 2 ^ l := fun v i ⟨B, hB, _⟩ =>
    Nat.lt_of_lt_of_le (List.getElem?_eq_some_iff.1 hB).1 hroom
  rintro x ⟨hi, hc, q, -, hj⟩
  exact ⟨hlt p _ hi, hc, hlt q _ hj⟩

/-- The moves of every state, as one function of state and move. -/
def Signatures (m : Manager) (g : NFA Nat Nat) (k l : Nat) (Bs : List (Set Nat)) (f : Ref) :
    Prop :=
  m.Denotes f fun t => moveOf l t ∈ signature g Bs ((sourceBlock k).read t)

/-- Edges, names of sources and names of destinations, with the destinations quantified away. -/
theorem exists_dest_iff {t : Assignment} (hk : k ≤ 32) (hl : l ≤ 32) (hg : Bounded g (2 ^ k)) :
    (∃ u, AgreeOff (destBlock k) t u ∧ Edges g (Domain.reads (edgeBlocks k) u) ∧
      Naming (InBlock Bs) (Domain.reads [sourceBlock k, partitionBlock l] u) ∧
      Naming (InBlock Bs) (Domain.reads [destBlock k, scratch l] u)) ↔
      moveOf l t ∈ signature g Bs ((sourceBlock k).read t) := by
  let G (v : Nat) (x : Assignment) : Prop := v ∈ g.step ((sourceBlock k).read x) (alphabet.read x) ∧
    InBlock Bs ((sourceBlock k).read x) ((partitionBlock l).read x) ∧
    InBlock Bs v ((scratch l).read x)
  have hG : ∀ v, (destBlock k).Free (G v) := by
    intro v x y hxy
    have h1 := (source_apart_dest hk).read_eq hxy
    have h2 := (dest_apart_alphabet hk).symm.read_eq hxy
    have h3 := (partition_apart_dest hl).read_eq hxy
    have h4 := (dest_apart_scratch (l := l) hk).symm.read_eq hxy
    simp only [G, h1, h2, h3, h4]
  have hread : ∀ u, (Edges g (Domain.reads (edgeBlocks k) u) ∧
      Naming (InBlock Bs) (Domain.reads [sourceBlock k, partitionBlock l] u) ∧
      Naming (InBlock Bs) (Domain.reads [destBlock k, scratch l] u)) ↔
      G ((destBlock k).read u) u := by
    intro u
    simp only [Domain.reads, edgeBlocks, List.map_cons, List.map_nil, edges_iff, naming_iff, G]
  have hletter : alphabet.read t < letterCount := alphabet.read_lt t
  simp only [hread]
  rw [Domain.exists_agreeOff hG, moveOf, mem_signature_iff]
  constructor
  · rintro ⟨v, -, hstep, hown, hgoal⟩
    exact ⟨hown, hletter, v, hstep, hgoal⟩
  · rintro ⟨hown, -, v, hstep, hgoal⟩
    have hv := hg.target _ _ v hstep
    exact ⟨v, hv, hstep, hown, hgoal⟩

/-- Below the partition names the state is decided, and its moves remain. -/
theorem Signatures.remains {s : Assignment} (h : Signatures m g k l Bs f) (hm : m.Canonical)
    (hk : k ≤ 32) (ht : m.Remains partitionBase f s t) :
    Carries m l (signature g Bs ((sourceBlock k).read s)) t := by
  refine (ht.denotes hm h).congr fun u => ?_
  have hsource : (sourceBlock k).read (fun v => if v < partitionBase then s v else u v) =
      (sourceBlock k).read s := by
    refine Domain.read_congr fun v _ hv => if_pos ?_
    change v < 1 + k at hv
    change v < 33
    omega
  have habove : ∀ d : Domain, partitionBase ≤ d.base →
      d.read (fun v => if v < partitionBase then s v else u v) = d.read u := fun d hd =>
    Domain.read_congr fun v hv _ => if_neg (by omega)
  rw [hsource, moveOf, moveOf, habove _ (Nat.le_refl _), habove alphabet (by decide),
    habove (scratch l) (by change 33 ≤ 65633; decide)]

def movers (m : Manager) (g : NFA Nat Nat) (n l : Nat) (Bs : List (Set Nat)) (t : Ref) : Set Nat :=
  {p | p < n ∧ Carries m l (signature g Bs p) t}

theorem Signatures.remains_iff {s : Assignment} (h : Signatures m g k l Bs f) (hm : m.Canonical)
    (hk : k ≤ 32) : m.Remains partitionBase f s t ↔
      Carries m l (signature g Bs ((sourceBlock k).read s)) t := by
  constructor
  · exact fun ht => h.remains hm hk ht
  · intro hcarries
    obtain ⟨u, hu, -⟩ := exists_remains hm h.has partitionBase s
    have hsame : t = u := (hcarries.eq_iff hm (h.remains hm hk hu)).2 fun _ => Iff.rfl
    exact hsame ▸ hu

open Classical in
/-- The movers of the remaining functions, as far as there are any, are the refined blocks. -/
theorem Signatures.refined (h : Signatures m g k l Bs f) (hm : m.Canonical) (hk : k ≤ 32)
    (hl : l ≤ 32) (hn : n ≤ 2 ^ k) (hroom : Bs.length ≤ 2 ^ l) {ts : List Ref} (hd : ts.Nodup)
    (hts : ∀ t, t ∈ ts ↔ ∃ s, m.Remains partitionBase f s t) :
    Refined g n Bs ((ts.map (movers m g n l Bs)).filter fun B => decide B.Nonempty) := by
  have hmem : ∀ B, B ∈ (ts.map (movers m g n l Bs)).filter (fun B => decide B.Nonempty) ↔
      B.Nonempty ∧ ∃ t ∈ ts, movers m g n l Bs t = B := by
    intro B
    rw [List.mem_filter, List.mem_map, decide_eq_true_iff, and_comm]
  have hcover : ∀ p < n, ∃ t ∈ ts, p ∈ movers m g n l Bs t := by
    intro p hp
    have hread : (sourceBlock k).read ((sourceBlock k).write p fun _ => false) = p :=
      Domain.read_write (d := sourceBlock k) (Nat.lt_of_lt_of_le hp hn) _
    obtain ⟨t, ht, -⟩ := exists_remains hm h.has partitionBase
      ((sourceBlock k).write p fun _ => false)
    have hcarries := h.remains hm hk ht
    rw [hread] at hcarries
    exact ⟨t, (hts t).2 ⟨_, ht⟩, hp, hcarries⟩
  refine ⟨⟨fun B hB => ((hmem B).1 hB).1, ?_, ?_, ?_⟩, ?_⟩
  · intro B hB p hp
    obtain ⟨-, t, -, rfl⟩ := (hmem B).1 hB
    exact hp.1
  · intro p hp
    obtain ⟨t, ht, hpt⟩ := hcover p hp
    exact ⟨_, (hmem _).2 ⟨⟨p, hpt⟩, t, ht, rfl⟩, hpt⟩
  · apply List.Pairwise.filter
    rw [List.pairwise_map]
    apply hd.imp
    intro t u hne
    refine Set.disjoint_left.2 fun p hpt hpu => hne ?_
    exact (hpt.2.eq_iff hm hpu.2).2 fun _ => Iff.rfl
  · intro p q hp hq
    constructor
    · rintro ⟨B, hB, hpB, hqB⟩
      obtain ⟨-, t, -, rfl⟩ := (hmem B).1 hB
      exact hpB.2.injective hqB.2 hl (signature_fitting hroom) (signature_fitting hroom)
    · intro heq
      obtain ⟨t, ht, hpt⟩ := hcover p hp
      have hqt : q ∈ movers m g n l Bs t := ⟨hq, heq ▸ hpt.2⟩
      exact ⟨_, (hmem _).2 ⟨⟨p, hpt⟩, t, ht, rfl⟩, hpt, hqt⟩

namespace SymbolicNfa

variable {a : SymbolicNfa}

theorem signatures_yields (hw : w.current.WellFormed) (h : a.Shows w.current g)
    (hg : Bounded g (2 ^ a.width)) (hb : Listed w.current (sourceBlock a.width) Bs blocks)
    (hsmall : ∀ B ∈ Bs, ∀ p ∈ B, p < 2 ^ a.width) (hne : Bs ≠ []) (hfew : Bs.length < 2 ^ 32) :
    Yields w (a.signatures blocks) fun f m =>
      Signatures m g a.width (bitsNeeded Bs.length) Bs f := by
  have hk := h.width_le
  have hl : bitsNeeded Bs.length ≤ 32 := bitsNeeded_le_iff.2 (Nat.le_of_lt hfew)
  have hroom := le_two_pow_bitsNeeded Bs.length
  have hlen := hb.length_eq
  unfold signatures
  simp only [← hlen]
  refine .lift_bind (partitions_eq hl) ?_
  refine .bind (enumeration_yields hw hb hne (source_apart_partition hk) (source_end hk)
    (partition_end hl) (by change bitsNeeded Bs.length ≤ 64; omega) hroom)
    fun sources w1 hl1 hsources => ?_
  refine .lift_bind (h.later hl1).destDomain ?_
  have hfits : ∀ B ∈ Bs, (sourceBlock a.width).Fits (destBlock a.width) (· ∈ B) := fun B hB =>
    fits_of_small hk hk sourceBlock_base_le destBlock_base_le fun p hp =>
      ⟨hsmall B hB p hp, hsmall B hB p hp⟩
  refine .bind ((hb.later hl1).withDomain_yields hl1.after hfits) fun moved w2 hl2 hmoved => ?_
  refine .bind (enumeration_yields hl2.after hmoved hne (dest_apart_scratch hk) (dest_end hk)
    (scratch_end hl) (by change bitsNeeded Bs.length ≤ 64; omega) hroom)
    fun goals w3 hl3 hgoals => ?_
  have hedges := (h.later (hl1.trans (hl2.trans hl3))).edges.2.denotes
  have hsources' := (hl2.trans hl3).denotes hsources.2.denotes
  rw [h.edges.1] at hedges
  rw [hsources.1] at hsources'
  have hgoals' := hgoals.2.denotes
  rw [hgoals.1] at hgoals'
  let parts : List (Ref × (Assignment → Prop)) :=
    [(a.edges.fn, fun t => Edges g (Domain.reads (edgeBlocks a.width) t)),
    (sources.fn, fun t => Naming (InBlock Bs)
      (Domain.reads [sourceBlock a.width, partitionBlock (bitsNeeded Bs.length)] t)),
    (goals.fn, fun t => Naming (InBlock Bs)
      (Domain.reads [destBlock a.width, scratch (bitsNeeded Bs.length)] t))]
  have hparts : ∀ p ∈ parts, w3.current.Denotes p.1 p.2 := by
    intro p hp
    simp only [parts, List.mem_cons, List.not_mem_nil, or_false] at hp
    rcases hp with rfl | rfl | rfl
    · exact hedges
    · exact hsources'
    · exact hgoals'
  refine .bind (conjAll_yields hl3.after hparts) fun all w4 hl4 hall => ?_
  have hstop : (destBlock a.width).stop = .ok (destBase + a.width) :=
    Domain.stop_of_le (by change 65 + a.width < 2 ^ 32; omega)
  apply (exist_yields hstop hl4.after hall).imp
  intro f w5 _ hf
  refine hf.congr fun t => ?_
  rw [← exists_dest_iff hk hl hg]
  simp only [parts, List.mem_cons, List.not_mem_nil, or_false, forall_eq_or_imp, forall_eq]

theorem block_yields {all : Ref} (hw : w.current.WellFormed) (h : a.Shows w.current g)
    (hall : Signatures w.current g a.width l Bs all) :
    Yields w (a.block all t) fun r m => r.domain = sourceBlock a.width ∧
      r.Shows m (· ∈ movers w.current g a.stateCount l Bs t) := by
  refine .bind (selectBelow_yields hw hall.has) fun f w1 hl1 hf => ?_
  have hf' := hf.congr fun s => hall.remains_iff (t := t) hw.canonical h.width_le
  have h1 := h.later hl1
  refine .lift_bind h1.stateDomain (.bind (ValueSet.ofFn_yields
    (P := fun p => Carries w.current l (signature g Bs p) t) hl1.after hf') fun s w2 hl2 hs => ?_)
  have h2 := h1.later hl2
  apply (ValueSet.inter_yields hs.2 h2.states.2 (hs.1.trans h2.states.1.symm) hl2.after).imp
  intro r w3 _ hr
  exact ⟨hr.1.trans hs.1, hr.2.congr fun p _ => and_comm⟩

open Classical in
theorem refine_yields (hw : w.current.WellFormed) (h : a.Shows w.current g)
    (hg : Contained g a.stateCount) (hb : Listed w.current (sourceBlock a.width) Bs blocks)
    (hBs : Blocks a.stateCount Bs) (hne : Bs ≠ []) :
    Yields w (a.refine blocks) fun r m => ∃ Cs, Listed m (sourceBlock a.width) Cs r ∧
      Refined g a.stateCount Bs Cs := by
  have hk := h.width_le
  have hn := a.count_le_two_pow_width
  have hsmall : ∀ B ∈ Bs, ∀ p ∈ B, p < 2 ^ a.width := fun B hB p hp =>
    Nat.lt_of_lt_of_le (hBs.within B hB p hp) hn
  have hfew : Bs.length < 2 ^ 32 := Nat.lt_of_le_of_lt hBs.length_le h.few
  have hl : bitsNeeded Bs.length ≤ 32 := bitsNeeded_le_iff.2 (Nat.le_of_lt hfew)
  have hroom := le_two_pow_bitsNeeded Bs.length
  refine .bind (signatures_yields hw h hg.bounded hb hsmall hne hfew)
    fun all w1 hl1 hall => ?_
  have hm := hl1.after.canonical
  obtain ⟨ts, hts, hd, hmem⟩ := cofactorsBelow_spec hm hall.has partitionBase
  refine .ask_bind hts ?_
  have hmake : List.Forall₂ (fun B t => ∀ w', w1.Leads w' → Yields w' (a.block all t) fun r m =>
      r.domain = sourceBlock a.width ∧ r.Shows m (· ∈ B))
      (ts.map (movers w1.current g a.stateCount (bitsNeeded Bs.length) Bs)) ts := by
    rw [List.forall₂_map_left_iff, List.forall₂_same]
    intro t ht w' hl
    obtain ⟨s, hs⟩ := (hmem t).1 ht
    apply (block_yields hl.after (h.later (hl1.trans hl)) (hl.denotes hall)).imp
    intro r w'' _ hr
    refine ⟨hr.1, hr.2.congr fun p _ => and_congr_right fun _ => ?_⟩
    exact Carries.later_iff hl hs.has
  refine .bind (mapM_yields hl1.after hmake fun B r w' w'' hl hr => ⟨hr.1, hr.2.later hl⟩)
    fun found w2 hl2 hfound => Runs.pure hl2.after ?_
  have hlisted : Listed w2.current (sourceBlock a.width) _ found := hfound
  have hrefined := hall.refined hm hk hl hn hroom hd hmem
  refine ⟨_, hlisted.filter hl2.after.canonical fun B hB p hp => ?_, hrefined⟩
  obtain ⟨t, -, rfl⟩ := List.mem_map.1 hB
  exact Nat.lt_of_lt_of_le hp.1 hn

/-- Refinement ends with blocks that separate nothing more. -/
theorem stabilize_yields {fuel : Nat} (hw : w.current.WellFormed) (h : a.Shows w.current g)
    (hg : Contained g a.stateCount) (hdriven : Driven g a.stateCount)
    (hb : Listed w.current (sourceBlock a.width) Bs blocks) (hBs : Coarse g a.stateCount Bs)
    (hne : Bs ≠ []) (hfuel : a.stateCount < fuel + Bs.length) :
    Yields w (a.stabilize fuel blocks) fun r m => ∃ Cs, Listed m (sourceBlock a.width) Cs r ∧
      Coarse g a.stateCount Cs ∧ Stable g Cs ∧ Cs ≠ [] := by
  induction fuel generalizing w Bs blocks with
  | zero =>
    have := hBs.length_le
    omega
  | succ fuel ih =>
    refine .bind (refine_yields hw h hg hb hBs.toBlocks hne) fun refined w1 hl1 hr => ?_
    obtain ⟨Cs, hlisted, hrefined⟩ := hr
    have hgrow := hBs.length_le_refined hg hdriven hrefined
    have hlen : refined.length = Cs.length := hlisted.length_eq.symm
    have hlen' : blocks.length = Bs.length := hb.length_eq.symm
    by_cases hsame : refined.length = blocks.length
    · rw [if_pos hsame]
      have hstable := hBs.stable_of_length hg hdriven hrefined (by omega)
      exact Runs.pure hl1.after ⟨Bs, hb.later hl1, hBs, hstable, hne⟩
    · rw [if_neg hsame]
      have hpos := List.length_pos_iff.2 hne
      exact ih hl1.after (h.later hl1) hlisted (hBs.refine hg hdriven hrefined)
        (List.length_pos_iff.1 (by omega)) (by omega)

theorem joinDead_yields (hw : w.current.WellFormed) (h : a.Shows w.current g)
    (hg : Contained g a.stateCount) :
    Yields w a.joinDead fun b m => b.stateCount = a.stateCount ∧
      b.Shows m (joined g a.stateCount) := by
  have hn := a.count_le_two_pow_width
  refine .bind (h.productive_yields hw hg.bounded) fun s w1 hl1 hs => ?_
  have h1 := h.later hl1
  refine .bind (ValueSet.sdiff_yields h1.states.2 hs.2 (h1.states.1.trans hs.1.symm) hl1.after)
    fun dead w2 hl2 hdead => ?_
  have h2 := h1.later hl2
  have hdom : dead.domain = sourceBlock a.width := hdead.1.trans h1.states.1
  by_cases hempty : dead.isEmpty
  · rw [if_pos hempty]
    have hnone : ∀ p, ¬ Dead g a.stateCount p := by
      have := (hdead.2.isEmpty_iff hl2.after.canonical).1 hempty
      rw [hdom] at this
      exact fun p hp => this p (Nat.lt_of_lt_of_le hp.1 hn) hp
    have hsame : joined g a.stateCount = g := by
      simp [joined, connect, hnone]
    rw [hsame]
    exact Runs.pure hl2.after ⟨rfl, h2⟩
  · rw [if_neg hempty]
    have hset : dead.domain = sourceBlock a.width ∧
        dead.Shows w2.current (Dead g a.stateCount) := ⟨hdom, hdead.2⟩
    exact (connect_yields (L := fun _ => True) hl2.after h2 hset hset
      (universal_denotes hl2.after.canonical _) (fun _ hp => hp.1) fun _ hp => hp.1).imp
      fun b w3 _ hb => ⟨hb.1, hb.2.2⟩

open Classical in
noncomputable def split (g : NFA Nat Nat) (n : Nat) : List (Set Nat) :=
  [{p | p < n ∧ p ∈ g.accept}, {p | p < n ∧ p ∉ g.accept}].filter fun B => decide B.Nonempty

theorem mem_split {B : Set Nat} : B ∈ split g n ↔
    B.Nonempty ∧ (B = {p | p < n ∧ p ∈ g.accept} ∨ B = {p | p < n ∧ p ∉ g.accept}) := by
  classical
  rw [split, List.mem_filter, decide_eq_true_iff, and_comm, List.mem_pair]

theorem together_split (hp : p < n) (hq : q < n) :
    Together (split g n) p q ↔ (p ∈ g.accept ↔ q ∈ g.accept) := by
  constructor
  · rintro ⟨B, hB, hpB, hqB⟩
    obtain ⟨-, rfl | rfl⟩ := mem_split.1 hB
    · exact iff_of_true hpB.2 hqB.2
    · exact iff_of_false hpB.2 hqB.2
  · intro hiff
    by_cases hacc : p ∈ g.accept
    · exact ⟨{v | v < n ∧ v ∈ g.accept}, mem_split.2 ⟨⟨p, hp, hacc⟩, .inl rfl⟩, ⟨hp, hacc⟩, hq,
        hiff.1 hacc⟩
    · exact ⟨{v | v < n ∧ v ∉ g.accept}, mem_split.2 ⟨⟨p, hp, hacc⟩, .inr rfl⟩, ⟨hp, hacc⟩, hq,
        fun h => hacc (hiff.2 h)⟩

theorem split_blocks : Blocks n (split g n) where
  inhabited B hB := (mem_split.1 hB).1
  within B hB p hp := by
    obtain ⟨-, rfl | rfl⟩ := mem_split.1 hB
    · exact hp.1
    · exact hp.1
  cover p hp := by
    obtain ⟨B, hB, hpB, -⟩ := (together_split (g := g) hp hp).2 Iff.rfl
    exact ⟨B, hB, hpB⟩
  apart := by
    apply List.Pairwise.filter
    rw [List.pairwise_pair]
    exact Set.disjoint_left.2 fun p hp hp' => hp'.2 hp.2

theorem split_coarse : Coarse g n (split g n) where
  toBlocks := split_blocks
  accept p q hpq := by
    obtain ⟨B, hB, hp, hq⟩ := id hpq
    exact (together_split (split_blocks.within B hB p hp) (split_blocks.within B hB q hq)).1 hpq
  bisimilar _ p q hR hpq hp hq := (together_split hp hq).2 (hR.accept p q hpq)

theorem split_ne_nil (hpos : 0 < n) : split g n ≠ [] := by
  obtain ⟨B, hB, -⟩ := (split_blocks (g := g)).cover 0 hpos
  exact List.ne_nil_of_mem hB

theorem initialBlocks_yields (hw : w.current.WellFormed) (h : a.Shows w.current g) :
    Yields w a.initialBlocks fun r m =>
      Listed m (sourceBlock a.width) (split g a.stateCount) r := by
  refine .bind (ValueSet.inter_yields h.states.2 h.accepting.2
    (h.states.1.trans h.accepting.1.symm) hw) fun s w1 hl1 hs => ?_
  have h1 := h.later hl1
  refine .bind (ValueSet.sdiff_yields h1.states.2 h1.accepting.2
    (h1.states.1.trans h1.accepting.1.symm) hl1.after) fun t w2 hl2 ht => ?_
  have hlisted : Listed w2.current (sourceBlock a.width)
      [{p | p < a.stateCount ∧ p ∈ g.accept}, {p | p < a.stateCount ∧ p ∉ g.accept}] [s, t] :=
    .cons ⟨hs.1.trans h.states.1, hs.2.later hl2⟩ (.cons ⟨ht.1.trans h1.states.1, ht.2⟩ .nil)
  refine Runs.pure hl2.after (hlisted.filter hl2.after.canonical fun B hB p hp => ?_)
  have hn := a.count_le_two_pow_width
  rcases List.mem_pair.1 hB with rfl | rfl
  · exact Nat.lt_of_lt_of_le hp.1 hn
  · exact Nat.lt_of_lt_of_le hp.1 hn

/-- The merged states are the classes of bisimilar states, once the dead states are joined. -/
theorem minimize_shows (hw : w.current.WellFormed) (h : a.Shows w.current g)
    (hg : Contained g a.stateCount) (hpos : 0 < a.stateCount) :
    Yields w a.minimize fun b m => ∃ Bs, Coarse (joined g a.stateCount) a.stateCount Bs ∧
      Stable (joined g a.stateCount) Bs ∧ b.stateCount = Bs.length ∧
      b.determinism = (if a.determinism = .complete then .complete else .unknown) ∧
      b.Shows m (carry (joined g a.stateCount) (InBlock Bs)) := by
  have hg' := joined_contained hg
  unfold minimize
  rw [if_neg (by omega)]
  refine .bind (joinDead_yields hw h hg) fun b w1 hl1 hb => ?_
  obtain ⟨hcount, hb⟩ := hb
  rw [← hcount] at hg' hpos ⊢
  have hdriven : Driven (joined g b.stateCount) b.stateCount := joined_driven
  rw [← hcount] at hb
  refine .bind (initialBlocks_yields hl1.after hb) fun blocks w2 hl2 hlisted => ?_
  have hb2 := hb.later hl2
  have hfew := hb.few
  have hfuel : b.stateCount < maxStates + (split g b.stateCount).length := by
    change b.stateCount < 2 ^ 32 + _
    omega
  refine .bind (stabilize_yields hl2.after hb2 hg' hdriven hlisted split_coarse
    (split_ne_nil hpos) hfuel) fun final w3 hl3 hfinal => ?_
  obtain ⟨Cs, hlisted', hCs, hstable, hne'⟩ := hfinal
  have hk := hb.width_le
  have hlen : Cs.length = final.length := hlisted'.length_eq
  have hcs : Cs.length < 2 ^ 32 := Nat.lt_of_le_of_lt hCs.length_le hfew
  have hl : bitsNeeded Cs.length ≤ 32 := bitsNeeded_le_iff.2 (Nat.le_of_lt hcs)
  rw [← hlen]
  refine .lift_bind (partitions_eq hl) ?_
  refine .bind (enumeration_yields hl3.after hlisted' hne' (source_apart_partition hk)
    (source_end hk) (partition_end hl) (by change bitsNeeded Cs.length ≤ 64; omega)
    (le_two_pow_bitsNeeded _)) fun names w4 hl4 hnames => ?_
  refine .bind (mapStates_yields hl4.after (hb2.later (hl3.trans hl4)) hnames.2 hnames.1 rfl hcs
    fun p i hp => ?_) fun c w5 hl5 hc => ?_
  · exact Nat.lt_of_lt_of_le (hCs.state_lt hp) b.count_le_two_pow_width
  · obtain ⟨hccount, -, hc⟩ := hc
    exact Runs.pure hl5.after ⟨Cs, hCs, hstable, hccount, rfl, hc.flagged _⟩

/-- Only a deterministic automaton passes its flag on. -/
theorem honest_of_carry {b : SymbolicNfa} {m' : Manager} {Bs : List (Set Nat)} (h : a.Shows m g)
    (hm : m.Canonical) (hg : Contained g a.stateCount) (hhonest : a.Honest m)
    (hBs : Coarse (joined g a.stateCount) a.stateCount Bs)
    (hstable : Stable (joined g a.stateCount) Bs) (hcount : b.stateCount = Bs.length)
    (hflag : b.determinism = if a.determinism = .complete then .complete else .unknown)
    (hb : b.Shows m' (carry (joined g a.stateCount) (InBlock Bs))) (hm' : m'.Canonical) :
    b.Honest m' := by
  by_cases hcomplete : a.determinism = .complete
  · have hdet := (h.isDeterministic_iff hm hg.toBounded).1 (hhonest.of_complete hcomplete)
    have hbounded : Bounded (carry (joined g a.stateCount) (InBlock Bs)) b.stateCount :=
      hcount ▸ merged_contained.toBounded
    rw [if_pos hcomplete] at hflag
    unfold Honest
    rw [hflag]
    exact (hb.isDeterministic_iff hm' hbounded).2
      (hcount ▸ carry_deterministic hBs hstable hg hdet)
  · rw [if_neg hcomplete] at hflag
    exact honest_of_unknown hflag

/-- Merging keeps the language, and the flag stays true of the automaton. -/
theorem minimize_merges (hw : w.current.WellFormed) (ha : a.WellFormed w.current)
    (h : a.Shows w.current g) (hg : Contained g a.stateCount) (hpos : 0 < a.stateCount) :
    Yields w a.minimize fun b m => b.WellFormed m ∧
      (∀ u, b.Accepts m u ↔ a.Accepts w.current u) ∧
      ∃ Bs, Coarse (joined g a.stateCount) a.stateCount Bs ∧
        Stable (joined g a.stateCount) Bs ∧ b.stateCount = Bs.length ∧
        b.Shows m (carry (joined g a.stateCount) (InBlock Bs)) := by
  have hm := hw.canonical
  apply (minimize_shows hw h hg hpos).imp
  rintro b w1 hl ⟨Bs, hBs, hstable, hcount, hflag, hb⟩
  have hm' := hl.after.canonical
  have hcontained : Contained (carry (joined g a.stateCount) (InBlock Bs)) b.stateCount :=
    hcount ▸ merged_contained
  have hhonest := honest_of_carry h hm hg ha.honest hBs hstable hcount hflag hb hm'
  refine ⟨⟨⟨_, hb, hcontained⟩, hhonest⟩, fun u => ?_, Bs, hBs, hstable, hcount, hb⟩
  rw [hb.accepts_iff hm' hcontained.toBounded, h.accepts_iff hm hg.toBounded,
    hBs.accepts_carry hstable (joined_contained hg) u.lettered_codes,
    accepts_joined u.lettered_codes]

/-- A relation between states that accept alike and match each other's moves. -/
structure IsBisimulation (a : SymbolicNfa) (m : Manager) (R : Nat → Nat → Prop) : Prop where
  accept : ∀ p q, R p q →
    (a.accepting.contains p m = .ok true ↔ a.accepting.contains q m = .ok true)
  forth : ∀ p q x p', R p q → a.HasEdge m p x p' → ∃ q', a.HasEdge m q x q' ∧ R p' q'
  back : ∀ p q x q', R p q → a.HasEdge m q x q' → ∃ p', a.HasEdge m p x p' ∧ R p' q'

/-- The same is accepted and, letter by letter, moves lead to states that are bisimilar again. -/
def Bisimilar (a : SymbolicNfa) (m : Manager) (p q : Nat) : Prop :=
  ∃ R, a.IsBisimulation m R ∧ R p q

theorem Bisimilar.shown (h : a.Bisimilar m p q) (ha : a.Shows m g) (hm : m.Canonical)
    (hg : Contained g a.stateCount) (hp : p < a.stateCount) (hq : q < a.stateCount) :
    ∃ R, Bisimulation g R ∧ R p q := by
  obtain ⟨R, hR, hpq⟩ := h
  have hedge := fun p x q => ha.hasEdge_code_iff hm hg.toBounded (p := p) (q := q) (x := x)
  refine ⟨fun u v => R u v ∧ u < a.stateCount ∧ v < a.stateCount, ⟨?_, ?_, ?_⟩, hpq, hp, hq⟩
  · rintro u v ⟨huv, hu, hv⟩
    rw [← ha.accepts_state_iff hm hu, ← ha.accepts_state_iff hm hv]
    exact hR.accept u v huv
  · rintro u v c u' ⟨huv, hu, hv⟩ hc hstep
    obtain ⟨x, rfl⟩ := Letter.exists_code hc
    obtain ⟨v', hv', huv'⟩ := hR.forth u v x u' huv ((hedge u x u').2 hstep)
    rw [hedge] at hv'
    exact ⟨v', hv', huv', hg.target u _ u' hstep, hg.target v _ v' hv'⟩
  · rintro u v c v' ⟨huv, hu, hv⟩ hc hstep
    obtain ⟨x, rfl⟩ := Letter.exists_code hc
    obtain ⟨u', hu', huv'⟩ := hR.back u v x v' huv ((hedge v x v').2 hstep)
    rw [hedge] at hu'
    exact ⟨u', hu', huv', hg.target u _ u' hu', hg.target v _ v' hstep⟩

/-- Minimization keeps the language, adds no states, leaves no two bisimilar states, and has nothing
left to do the second time. -/
theorem minimize_of_wellFormed (hw : w.current.WellFormed) (ha : a.WellFormed w.current) :
    ∃ b w', a.minimize w = .ok b w' ∧ w.Leads w' ∧ b.WellFormed w'.current ∧
      (∀ u, b.Accepts w'.current u ↔ a.Accepts w.current u) ∧ b.stateCount ≤ a.stateCount ∧
      (∀ p < b.stateCount, ∀ q < b.stateCount, b.Bisimilar w'.current p q → p = q) ∧
      ∀ w₂, w'.Leads w₂ → ∃ c w₃, b.minimize w₂ = .ok c w₃ ∧ c.stateCount = b.stateCount := by
  have hm := hw.canonical
  obtain ⟨g, h, hg⟩ := ha.shown
  rcases Nat.eq_zero_or_pos a.stateCount with hzero | hpos
  · have hself : ∀ w, a.minimize w = .ok a w := fun w => by
      unfold minimize
      rw [if_pos hzero]
      rfl
    exact ⟨a, w, hself w, .refl hw, ha, fun _ => Iff.rfl, Nat.le_refl _,
      fun p hp => by omega, fun w₂ _ => ⟨a, w₂, hself w₂, rfl⟩⟩
  · obtain ⟨b, w', hrun, hl, Bs, hBs, hstable, hcount, hflag, hb⟩ :=
      yields_iff.1 (minimize_shows hw h hg hpos)
    have hm' := hl.after.canonical
    have hg' := joined_contained hg
    have hcontained : Contained (carry (joined g a.stateCount) (InBlock Bs)) b.stateCount :=
      hcount ▸ merged_contained
    have hhonest := honest_of_carry h hm hg ha.honest hBs hstable hcount hflag hb hm'
    refine ⟨b, w', hrun, hl, ⟨⟨_, hb, hcontained⟩, hhonest⟩, fun u => ?_, hcount ▸ hBs.length_le,
      fun p hp q hq hpq => ?_, fun w₂ hl₂ => ?_⟩
    · rw [hb.accepts_iff hm' hcontained.toBounded, h.accepts_iff hm hg.toBounded,
        hBs.accepts_carry hstable hg' u.lettered_codes, accepts_joined u.lettered_codes]
    · obtain ⟨R, hR, hpq⟩ := hpq.shown hb hm' hcontained hp hq
      exact hBs.eq_of_bisimulation hstable hg' hR hpq (hcount ▸ hp) (hcount ▸ hq)
    · have hpos' : 0 < b.stateCount := by
        obtain ⟨B, hB, -⟩ := hBs.cover 0 hpos
        rw [hcount]
        exact List.length_pos_of_mem hB
      obtain ⟨c, w₃, hrun', -, Cs, hCs, hstable', hcount', -⟩ :=
        yields_iff.1 (minimize_shows hl₂.after (hb.later hl₂) hcontained hpos')
      refine ⟨c, w₃, hrun', ?_⟩
      rw [hcount] at hCs hstable'
      rw [hcount', hcount]
      exact length_of_carry hBs hstable hg hCs hstable'

theorem minimize_of_wellFormed_ofSymbols : ∃ m a w b w', Manager.new 0 1 1 = .ok m ∧
    ofSymbols (.universal 0) ⟨m, []⟩ = .ok a w ∧ a.minimize w = .ok b w' ∧
    (∀ u, b.Accepts w'.current u ↔ a.Accepts w.current u) ∧ b.stateCount ≤ 2 := by
  obtain ⟨m, hm⟩ : ∃ m, Manager.new 0 1 1 = .ok m := ⟨_, rfl⟩
  obtain ⟨a, w, ha, hl, hcount, -, -, hwell⟩ := ofSymbols_wellFormed hm
  obtain ⟨b, w', hrun, -, -, haccepts, hle, -⟩ := minimize_of_wellFormed hl.after hwell
  exact ⟨m, a, w, b, w', hm, ha, hrun, haccepts, hcount ▸ hle⟩

end SymbolicNfa

end SymbolicAutomata
