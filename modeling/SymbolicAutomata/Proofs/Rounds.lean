import SymbolicAutomata.Proofs.EmptyLanguages
/-!
# The rounds of partition refinement

A round splits each block by the blocks that the letters lead to, and never joins states of two
blocks, so the number of blocks tells whether anything was split. It grows from round to round,
which leaves room for one round per state.
-/
namespace SymbolicAutomata

open Manager Bdd Layout SymbolicNfa

variable {w w' : Workspace} {m : Manager} {g : NFA Nat Nat} {k n p q : Nat} {d : Domain}
  {Bs Cs : List (Set Nat)} {blocks refined : List ValueSet}

namespace Blocks

theorem mem_iff_of_together (h : Blocks n Bs) (h' : Blocks n Cs)
    (hsame : ∀ p q, Together Bs p q ↔ Together Cs p q) (B : Set Nat) : B ∈ Bs ↔ B ∈ Cs := by
  have hsub : ∀ {Bs Cs : List (Set Nat)}, Blocks n Bs → Blocks n Cs →
      (∀ p q, Together Bs p q ↔ Together Cs p q) → B ∈ Bs → B ∈ Cs := by
    intro Bs Cs h h' hsame hB
    obtain ⟨p, hp⟩ := h.inhabited B hB
    obtain ⟨C, hC, hpC⟩ := h'.cover p (h.within B hB p hp)
    have hBC : B = C := by
      rw [← h.setOf_together hB hp, ← h'.setOf_together hC hpC]
      simp only [hsame]
    rwa [hBC]
  exact ⟨hsub h h' hsame, hsub h' h fun p q => (hsame p q).symm⟩

end Blocks

namespace Coarse

variable (h : Coarse g n Bs) (hg : Contained g n) (hdriven : Driven g n) (hr : Refined g n Bs Cs)
include h hg hdriven hr

/-- A round keeps two states together that were together and that each letter leads to the same
blocks. -/
theorem together_refined_iff (hp : p < n) (hq : q < n) : Together Cs p q ↔ Together Bs p q ∧
    ∀ c < letterCount, ∀ B ∈ Bs, (∃ r ∈ g.step p c, r ∈ B) ↔ ∃ r ∈ g.step q c, r ∈ B := by
  obtain ⟨i, hi⟩ := h.exists_block hp
  constructor
  · intro hpq
    have hsame := (hr.together p q hp hq).1 hpq
    have hold := h.finer hg hdriven hr hpq
    have hi' := (h.together_iff hi).1 hold
    refine ⟨hold, fun c hc B hB => ?_⟩
    obtain ⟨j, hj⟩ := List.mem_iff_getElem?.1 hB
    have hmem : ∀ v, InBlock Bs v i →
        ((i, c, j) ∈ signature g Bs v ↔ ∃ r ∈ g.step v c, r ∈ B) := by
      intro v hv
      rw [mem_signature_iff, and_iff_right hv, and_iff_right hc]
      simp only [InBlock, hj, Option.some.injEq, exists_eq_left']
    rw [← hmem p hi, ← hmem q hi', hsame]
  · rintro ⟨hpq, hmoves⟩
    rw [hr.together p q hp hq]
    ext ⟨k, c, j⟩
    have hown : InBlock Bs p k ↔ InBlock Bs q k := by
      constructor
      · exact fun hk => (h.together_iff hk).1 hpq
      · intro hk
        obtain rfl := h.unique ((h.together_iff hi).1 hpq) hk
        exact hi
    rw [mem_signature_iff, mem_signature_iff, hown]
    refine and_congr_right fun _ => and_congr_right fun hc => ?_
    constructor
    · rintro ⟨r, hstep, B, hj, hrB⟩
      obtain ⟨r', hstep', hr'B⟩ := (hmoves c hc B (List.mem_of_getElem? hj)).1 ⟨r, hstep, hrB⟩
      exact ⟨r', hstep', B, hj, hr'B⟩
    · rintro ⟨r, hstep, B, hj, hrB⟩
      obtain ⟨r', hstep', hr'B⟩ := (hmoves c hc B (List.mem_of_getElem? hj)).2 ⟨r, hstep, hrB⟩
      exact ⟨r', hstep', B, hj, hr'B⟩

theorem exists_superset_of_refined {C : Set Nat} (hC : C ∈ Cs) : ∃ B ∈ Bs, C ⊆ B := by
  obtain ⟨p, hp⟩ := hr.inhabited C hC
  obtain ⟨B, hB, hpB⟩ := h.cover p (hr.within C hC p hp)
  refine ⟨B, hB, fun q hq => ?_⟩
  obtain ⟨D, hD, hpD, hqD⟩ := h.finer hg hdriven hr ⟨C, hC, hp, hq⟩
  rwa [h.eq_of_mem hB hD hpB hpD]

/-- As many blocks as before are the blocks from before. -/
theorem mem_refined_iff_of_length (hlen : Cs.length = Bs.length) (B : Set Nat) :
    B ∈ Cs ↔ B ∈ Bs := by
  refine hr.toBlocks.mem_iff_of_together h.toBlocks (fun p q => ⟨h.finer hg hdriven hr, ?_⟩) B
  exact (h.length_le_of_finer hr.toBlocks fun _ _ => h.finer hg hdriven hr).2 hlen.symm p q

end Coarse

/-- There is one coarsest partition that separates nothing more. -/
theorem Coarse.length_eq_of_stable (h : Coarse g n Bs) (hs : Stable g Bs) (h' : Coarse g n Cs)
    (hs' : Stable g Cs) (hg : Contained g n) : Bs.length = Cs.length := by
  have hfine : ∀ {Bs Cs : List (Set Nat)}, Coarse g n Bs → Stable g Bs → Coarse g n Cs →
      ∀ p q, Together Bs p q → Together Cs p q := by
    rintro Bs Cs h hs h' p q ⟨B, hB, hp, hq⟩
    exact h'.bisimilar _ p q (h.bisimulation hs hg) ⟨B, hB, hp, hq⟩ (h.within B hB p hp)
      (h.within B hB q hq)
  exact Nat.le_antisymm (h.length_le_of_finer h'.toBlocks (hfine h' hs' h)).1
    (h'.length_le_of_finer h.toBlocks (hfine h hs h')).1

/-- The sets are blocks that partition the states below `n`. -/
structure Partitions (blocks : List ValueSet) (m : Manager) (n : Nat) : Prop where
  inhabited : ∀ s ∈ blocks, ∃ p, s.contains p m = .ok true
  within : ∀ s ∈ blocks, ∀ p, s.contains p m = .ok true → p < n
  cover : ∀ p < n, ∃ s ∈ blocks, s.contains p m = .ok true
  apart : blocks.Pairwise fun s t => ∀ p, s.contains p m = .ok true → t.contains p m ≠ .ok true

def Share (blocks : List ValueSet) (m : Manager) (p q : Nat) : Prop :=
  ∃ s ∈ blocks, s.contains p m = .ok true ∧ s.contains q m = .ok true

def SymbolicNfa.Enters (a : SymbolicNfa) (m : Manager) (p : Nat) (x : Letter) (s : ValueSet) :
    Prop :=
  ∃ q, a.HasEdge m p x q ∧ s.contains q m = .ok true

/-- What a round makes of the list `blocks`: it splits the blocks, and only by the blocks that the
letters lead to. If there are as many as before, they are the same. -/
structure SymbolicNfa.Splits (a : SymbolicNfa) (m : Manager) (blocks refined : List ValueSet) :
    Prop where
  partitions : Partitions refined m a.stateCount
  within : ∀ t ∈ refined, ∃ s ∈ blocks, ∀ p, t.contains p m = .ok true → s.contains p m = .ok true
  together : ∀ p < a.stateCount, ∀ q < a.stateCount, Share refined m p q ↔ Share blocks m p q ∧
    ∀ x, ∀ s ∈ blocks, a.Enters m p x s ↔ a.Enters m q x s
  same : refined.length = blocks.length → ∀ s, s ∈ refined ↔ s ∈ blocks

/-- The sets contain what the blocks do. -/
def Contain (m : Manager) : List (Set Nat) → List ValueSet → Prop :=
  List.Forall₂ fun B s => ∀ p, s.contains p m = .ok true ↔ p ∈ B

theorem Listed.contain (h : Listed m (sourceBlock k) Bs blocks) (hm : m.Canonical) (hk : k ≤ 32)
    (hBs : Blocks n Bs) (hn : n ≤ 2 ^ k) : Contain m Bs blocks := by
  have hmem := (List.forall₂_and_left (p := (· ∈ Bs)) Bs blocks).2 ⟨fun _ hB => hB, h⟩
  refine hmem.imp fun B s hs p => ?_
  rw [contains_sourceBlock_iff hs.2 hm hk]
  exact and_iff_right_of_imp fun hp => Nat.lt_of_lt_of_le (hBs.within B hs.1 p hp) hn

theorem Listed.mem_iff (h : Listed m d Bs blocks) (h' : Listed m d Cs refined) (hm : m.Canonical)
    (hsame : ∀ B, B ∈ Cs ↔ B ∈ Bs) (s : ValueSet) : s ∈ refined ↔ s ∈ blocks := by
  have hsub : ∀ {Bs Cs : List (Set Nat)} {xs ys : List ValueSet}, Listed m d Bs xs →
      Listed m d Cs ys → (∀ B ∈ Bs, B ∈ Cs) → s ∈ xs → s ∈ ys := by
    intro Bs Cs xs ys hxs hys hle hs
    obtain ⟨B, hB, hd, hshows⟩ := exists_left_of_forall₂ hxs s hs
    obtain ⟨t, ht, hd', hshows'⟩ := exists_right_of_forall₂ hys B (hle B hB)
    rwa [hshows.unique hshows' (hd.trans hd'.symm) hm]
  exact ⟨hsub h' h fun B hB => (hsame B).1 hB, hsub h h' fun B hB => (hsame B).2 hB⟩

namespace Contain

variable (h : Contain m Bs blocks)
include h

theorem share_iff : Share blocks m p q ↔ Together Bs p q := by
  constructor
  · rintro ⟨s, hs, hp, hq⟩
    obtain ⟨B, hB, hiff⟩ := exists_left_of_forall₂ h s hs
    exact ⟨B, hB, (hiff p).1 hp, (hiff q).1 hq⟩
  · rintro ⟨B, hB, hp, hq⟩
    obtain ⟨s, hs, hiff⟩ := exists_right_of_forall₂ h B hB
    exact ⟨s, hs, (hiff p).2 hp, (hiff q).2 hq⟩

theorem pairwise_apart (hBs : Bs.Pairwise Disjoint) : blocks.Pairwise fun s t =>
    ∀ p, s.contains p m = .ok true → t.contains p m ≠ .ok true := by
  induction h with
  | nil => exact .nil
  | @cons B s Bs blocks hs hrest ih =>
    obtain ⟨hB, hBs⟩ := List.pairwise_cons.1 hBs
    refine .cons (fun t ht p hp hpt => ?_) (ih hBs)
    obtain ⟨C, hC, hiff⟩ := exists_left_of_forall₂ hrest t ht
    exact Set.disjoint_left.1 (hB C hC) ((hs p).1 hp) ((hiff p).1 hpt)

theorem partitions (hBs : Blocks n Bs) : Partitions blocks m n where
  inhabited s hs := by
    obtain ⟨B, hB, hiff⟩ := exists_left_of_forall₂ h s hs
    obtain ⟨p, hp⟩ := hBs.inhabited B hB
    exact ⟨p, (hiff p).2 hp⟩
  within s hs p hp := by
    obtain ⟨B, hB, hiff⟩ := exists_left_of_forall₂ h s hs
    exact hBs.within B hB p ((hiff p).1 hp)
  cover p hp := by
    obtain ⟨B, hB, hpB⟩ := hBs.cover p hp
    obtain ⟨s, hs, hiff⟩ := exists_right_of_forall₂ h B hB
    exact ⟨s, hs, (hiff p).2 hpB⟩
  apart := h.pairwise_apart hBs.apart

theorem enters_iff {a : SymbolicNfa} (ha : a.Shows m g) (hm : m.Canonical)
    (hg : Contained g a.stateCount) : (∀ x, ∀ s ∈ blocks, a.Enters m p x s ↔ a.Enters m q x s) ↔
      ∀ c < letterCount, ∀ B ∈ Bs, (∃ r ∈ g.step p c, r ∈ B) ↔ ∃ r ∈ g.step q c, r ∈ B := by
  have henters : ∀ {v : Nat} {x : Letter} {B : Set Nat} {s : ValueSet},
      (∀ p, s.contains p m = .ok true ↔ p ∈ B) →
        (a.Enters m v x s ↔ ∃ r ∈ g.step v x.code, r ∈ B) := fun hiff => exists_congr fun r => by
    rw [hiff, ha.hasEdge_code_iff hm hg.toBounded]
  constructor
  · intro hall c hc B hB
    obtain ⟨x, rfl⟩ := Letter.exists_code hc
    obtain ⟨s, hs, hiff⟩ := exists_right_of_forall₂ h B hB
    rw [← henters hiff, ← henters hiff]
    exact hall x s hs
  · intro hall x s hs
    obtain ⟨B, hB, hiff⟩ := exists_left_of_forall₂ h s hs
    rw [henters hiff, henters hiff]
    exact hall x.code x.code_lt B hB

end Contain

namespace SymbolicNfa

variable {a b : SymbolicNfa}

/-- A round on a partition that separates accepting states from others, and no bisimilar ones. -/
theorem refine_splits (hw : w.current.WellFormed) (h : a.Shows w.current g)
    (hg : Contained g a.stateCount) (hdriven : Driven g a.stateCount)
    (hb : Listed w.current (sourceBlock a.width) Bs blocks) (hBs : Coarse g a.stateCount Bs)
    (hne : Bs ≠ []) : Yields w (a.refine blocks) fun r m => a.Splits m blocks r ∧
      ∃ Cs, Listed m (sourceBlock a.width) Cs r ∧ Coarse g a.stateCount Cs ∧
        Bs.length ≤ Cs.length ∧ (r.length = blocks.length → Stable g Bs) := by
  refine (refine_yields hw h hg hb hBs.toBlocks hne).imp fun r w₁ hl hr => ?_
  obtain ⟨Cs, hCs, hrefined⟩ := hr
  have hm := hl.after.canonical
  have ha := h.later hl
  have hb := hb.later hl
  have hn := a.count_le_two_pow_width
  have hold := hb.contain hm h.width_le hBs.toBlocks hn
  have hnew := hCs.contain hm h.width_le hrefined.toBlocks hn
  have hlength : r.length = blocks.length → Cs.length = Bs.length := fun hlen => by
    rw [hCs.length_eq, hb.length_eq, hlen]
  refine ⟨⟨hnew.partitions hrefined.toBlocks, fun t ht => ?_, fun p hp q hq => ?_, fun hlen => ?_⟩,
    Cs, hCs, hBs.refine hg hdriven hrefined, hBs.length_le_refined hg hdriven hrefined,
    fun hlen => hBs.stable_of_length hg hdriven hrefined (hlength hlen)⟩
  · obtain ⟨C, hC, hiff⟩ := exists_left_of_forall₂ hnew t ht
    obtain ⟨B, hB, hsub⟩ := hBs.exists_superset_of_refined hg hdriven hrefined hC
    obtain ⟨s, hs, hiff'⟩ := exists_right_of_forall₂ hold B hB
    exact ⟨s, hs, fun p hp => (hiff' p).2 (hsub ((hiff p).1 hp))⟩
  · rw [hnew.share_iff, hold.share_iff, hold.enters_iff ha hm hg]
    exact hBs.together_refined_iff hg hdriven hrefined hp hq
  · exact hb.mem_iff hCs hm (hBs.mem_refined_iff_of_length hg hdriven hrefined (hlength hlen))

/-- The rounds of refinement that start with the list `blocks`: number, workspace and list of a
round. There is another round where the last one found more blocks. -/
inductive Round (a : SymbolicNfa) (w : Workspace) (blocks : List ValueSet) :
    Nat → Workspace → List ValueSet → Prop
  | first : Round a w blocks 0 w blocks
  | next {k : Nat} {w₁ w₂ : Workspace} {current refined : List ValueSet}
      (before : Round a w blocks k w₁ current) (run : a.refine current w₁ = .ok refined w₂)
      (more : refined.length ≠ current.length) : Round a w blocks (k + 1) w₂ refined

/-- What is left of the loop when a round begins. -/
theorem Round.stabilize {w₁ : Workspace} {current : List ValueSet}
    (hround : a.Round w blocks k w₁ current) (fuel : Nat) :
    a.stabilize (fuel + k) blocks w = a.stabilize fuel current w₁ := by
  induction hround generalizing fuel with
  | first => rfl
  | @next k w₁ w₂ current refined before run more ih =>
    have hfuel : fuel + (k + 1) = fuel + 1 + k := by omega
    rw [hfuel, ih, SymbolicNfa.stabilize, bind_of_ok run, if_neg more]

theorem exists_last_round
    (hrounds : ∀ k w₁ current, a.Round w blocks k w₁ current → k < n ∧
      ∃ refined w₂, a.refine current w₁ = .ok refined w₂) :
    ∃ k w₁ final w₂ refined, a.Round w blocks k w₁ final ∧ a.refine final w₁ = .ok refined w₂ ∧
      refined.length = final.length := by
  by_contra hnone
  have hall : ∀ k, ∃ w₁ current, a.Round w blocks k w₁ current := by
    intro k
    induction k with
    | zero => exact ⟨w, blocks, .first⟩
    | succ k ih =>
      obtain ⟨w₁, current, hround⟩ := ih
      obtain ⟨-, refined, w₂, hrun⟩ := hrounds k w₁ current hround
      exact ⟨w₂, refined, .next hround hrun fun hlen =>
        hnone ⟨k, w₁, current, w₂, refined, hround, hrun, hlen⟩⟩
  obtain ⟨w₁, current, hround⟩ := hall n
  exact Nat.lt_irrefl n (hrounds n w₁ current hround).1

section Loop

variable (hw : w.current.WellFormed) (h : a.Shows w.current g) (hg : Contained g a.stateCount)
  (hdriven : Driven g a.stateCount) (hb : Listed w.current (sourceBlock a.width) Bs blocks)
  (hBs : Coarse g a.stateCount Bs) (hne : Bs ≠ [])
include hw h hg hdriven hb hBs hne

/-- A round is given a partition with more blocks than there were rounds before. -/
theorem Round.coarse {w₁ : Workspace} {current : List ValueSet}
    (hround : a.Round w blocks k w₁ current) : w.Leads w₁ ∧ ∃ Cs,
      Listed w₁.current (sourceBlock a.width) Cs current ∧ Coarse g a.stateCount Cs ∧
        k < Cs.length := by
  induction hround with
  | first => exact ⟨.refl hw, Bs, hb, hBs, List.length_pos_iff.2 hne⟩
  | next before run more ih =>
    obtain ⟨hl, Cs, hCs, hcoarse, hlt⟩ := ih
    have hsome : Cs ≠ [] := List.length_pos_iff.1 (Nat.zero_lt_of_lt hlt)
    obtain ⟨hl', -, Ds, hDs, hcoarse', hle, -⟩ :=
      (refine_splits hl.after (h.later hl) hg hdriven hCs hcoarse hsome).of_ok run
    refine ⟨hl.trans hl', Ds, hDs, hcoarse', ?_⟩
    have hmore : Ds.length ≠ Cs.length := by rwa [hDs.length_eq, hCs.length_eq]
    omega

/-- Each round splits a partition of the states, and there are no more rounds than states. -/
theorem Round.splits {w₁ : Workspace} {current : List ValueSet}
    (hround : a.Round w blocks k w₁ current) : k < a.stateCount ∧
      Partitions current w₁.current a.stateCount ∧ ∃ refined w₂,
        a.refine current w₁ = .ok refined w₂ ∧ w.Leads w₂ ∧
        a.Splits w₂.current current refined := by
  obtain ⟨hl, Cs, hCs, hcoarse, hlt⟩ := hround.coarse hw h hg hdriven hb hBs hne
  have hsome : Cs ≠ [] := List.length_pos_iff.1 (Nat.zero_lt_of_lt hlt)
  have hcontain := hCs.contain hl.after.canonical h.width_le hcoarse.toBlocks
    a.count_le_two_pow_width
  obtain ⟨refined, w₂, hrun, hl', hsplits, -⟩ := yields_iff.1
    (refine_splits hl.after (h.later hl) hg hdriven hCs hcoarse hsome)
  exact ⟨Nat.lt_of_lt_of_le hlt hcoarse.length_le, hcontain.partitions hcoarse.toBlocks, refined,
    w₂, hrun, hl.trans hl', hsplits⟩

/-- The loop ends with the list of some round, which separates all states that are not bisimilar. -/
theorem stabilize_last {fuel : Nat} (hfuel : a.stateCount ≤ fuel) :
    ∃ k w₁ final w₂, a.Round w blocks k w₁ final ∧ a.stabilize fuel blocks w = .ok final w₂ ∧
      ∃ Cs, Coarse g a.stateCount Cs ∧ Stable g Cs ∧ Cs.length = final.length := by
  obtain ⟨k, w₁, final, w₂, refined, hround, hrun, hlen⟩ := exists_last_round (n := a.stateCount)
    fun k w₁ current hround => by
      obtain ⟨hlt, -, refined, w₂, hrun, -⟩ := hround.splits hw h hg hdriven hb hBs hne
      exact ⟨hlt, refined, w₂, hrun⟩
  obtain ⟨hl, Cs, hCs, hcoarse, hlt⟩ := hround.coarse hw h hg hdriven hb hBs hne
  have hsome : Cs ≠ [] := List.length_pos_iff.1 (Nat.zero_lt_of_lt hlt)
  obtain ⟨-, -, _, -, -, -, hstable⟩ :=
    (refine_splits hl.after (h.later hl) hg hdriven hCs hcoarse hsome).of_ok hrun
  have hk := hcoarse.length_le
  refine ⟨k, w₁, final, w₂, hround, ?_, Cs, hcoarse, hstable hlen, hCs.length_eq⟩
  have hfuel : fuel = fuel - k - 1 + 1 + k := by omega
  rw [hfuel, hround.stabilize, SymbolicNfa.stabilize, bind_of_ok hrun, if_pos hlen]
  rfl

end Loop

theorem Shows.hasEdge_joined_iff {m' : Manager} (h : a.Shows m g) (hm : m.Canonical)
    (hg : Contained g a.stateCount) (hb : b.Shows m' (joined g a.stateCount)) (hm' : m'.Canonical)
    (hcount : b.stateCount = a.stateCount) (hp : p < a.stateCount) (hq : q < a.stateCount)
    {x : Letter} : b.HasEdge m' p x q ↔
      a.HasEdge m p x q ∨ ¬ a.IsProductive m p ∧ ¬ a.IsProductive m q := by
  have hg' : Contained (joined g a.stateCount) b.stateCount := by
    rw [hcount]
    exact joined_contained hg
  rw [hb.hasEdge_code_iff hm' hg'.toBounded, h.hasEdge_code_iff hm hg.toBounded,
    ← h.dead_iff hm hg hp, ← h.dead_iff hm hg hq]
  change _ ∨ Dead g _ p ∧ True ∧ Dead g _ q ↔ _
  rw [true_and]

end SymbolicNfa

end SymbolicAutomata
