import SymbolicAutomata.Proofs.Atoms
import SymbolicAutomata.Proofs.Belonging
import SymbolicAutomata.Proofs.Confinement
import SymbolicAutomata.Proofs.Letters
import Mathlib.Data.Setoid.Partition
/-!
# The coarsest partition for some labels

Points that are on the same labels cannot be told apart by unions of labels, so no partition in
which each label is a union of blocks is coarser than the one into atoms. Of labels that are any
functions the points are the assignments; of sets of letters the points are the letters.
-/
namespace SymbolicAutomata

open Manager Bdd Layout

section CoarsestPartition

variable {α : Type} {Ls As : List (α → Prop)}

/-- The blocks `As` partition all points, each label is a union of blocks, and every partition in
which it is one is finer. Points are in one block exactly if they are on the same labels. -/
structure CoarsestPartition (Ls As : List (α → Prop)) : Prop where
  inhabited : ∀ A ∈ As, ∃ x, A x
  apart : As.Pairwise fun A B => ∀ x, A x → ¬ B x
  cover : ∀ x, ∃ A ∈ As, A x
  union : ∀ L ∈ Ls, ∃ Bs : List (α → Prop), Bs.Sublist As ∧ ∀ x, L x ↔ ∃ B ∈ Bs, B x
  together_iff : ∀ x y, (∃ A ∈ As, A x ∧ A y) ↔ ∀ L ∈ Ls, L x ↔ L y
  coarsest : ∀ P : Set (Set α), Setoid.IsPartition P →
    (∀ L ∈ Ls, ∃ Q ⊆ P, ∀ x, L x ↔ ∃ B ∈ Q, x ∈ B) → ∀ B ∈ P, ∃ A ∈ As, ∀ x ∈ B, A x

/-- Where a label is a union of parts, it does not tell apart the points of one part. -/
theorem mem_union_iff_of_isPartition {P Q : Set (Set α)} (hP : Setoid.IsPartition P) (hQ : Q ⊆ P)
    {B : Set α} (hB : B ∈ P) {x : α} (hx : x ∈ B) : (∃ C ∈ Q, x ∈ C) ↔ B ∈ Q := by
  constructor
  · rintro ⟨C, hC, hxC⟩
    rwa [Setoid.eq_of_mem_eqv_class hP.2 hB hx (hQ hC) hxC]
  · exact fun hBQ => ⟨B, hBQ, hx⟩

theorem Atomic.coarsestPartition (h : Atomic Set.univ Ls As) : CoarsestPartition Ls As where
  inhabited A hA := by
    obtain ⟨x, -, hx⟩ := h.inhabited A hA
    exact ⟨x, hx⟩
  apart := h.apart.imp fun hAB x => hAB x trivial
  cover x := h.covers x trivial
  union L hL := by
    classical
    refine ⟨As.filter fun A => decide (∃ x, A x ∧ L x), List.filter_sublist, fun x => ?_⟩
    simp only [List.mem_filter, decide_eq_true_eq]
    constructor
    · intro hLx
      obtain ⟨A, hA, hAx⟩ := h.covers x trivial
      exact ⟨A, ⟨hA, x, hAx, hLx⟩, hAx⟩
    · rintro ⟨A, ⟨hA, y, hAy, hLy⟩, hAx⟩
      exact (h.label_iff hA hL trivial trivial hAx hAy).2 hLy
  together_iff x y := by
    constructor
    · rintro ⟨A, hA, hx, hy⟩
      exact (h.alike A hA x trivial y trivial hx).1 hy
    · intro hsame
      obtain ⟨A, hA, hx⟩ := h.covers x trivial
      exact ⟨A, hA, hx, (h.alike A hA x trivial y trivial hx).2 hsame⟩
  coarsest P hP hunion B hB := by
    obtain ⟨x, hx⟩ := Setoid.nonempty_of_mem_partition hP hB
    obtain ⟨A, hA, hAx⟩ := h.covers x trivial
    refine ⟨A, hA, fun y hy => (h.alike A hA x trivial y trivial hAx).2 fun L hL => ?_⟩
    obtain ⟨Q, hQ, hLQ⟩ := hunion L hL
    rw [hLQ, hLQ, mem_union_iff_of_isPartition hP hQ hB hx,
      mem_union_iff_of_isPartition hP hQ hB hy]

end CoarsestPartition

variable {w w' : Workspace} {m : Manager} {L : Nat → Prop} {As : List (Nat → Prop)}
  {F : Assignment → Prop} {Gs : List (Assignment → Prop)} {s : SymbolSet}
  {labels blocks parts : List SymbolSet}

namespace SymbolSet

def Holds (s : SymbolSet) (m : Manager) (t : Assignment) : Prop := m.Evaluates t s.fn true

/-- A set of letters, as a function of the variables of the alphabet. -/
structure OfLetters (s : SymbolSet) (m : Manager) : Prop where
  home : s.manager = m.id
  confined : m.Confined s.fn [alphabet]

theorem Belongs.denotes (h : s.Belongs m) (hm : m.Canonical) : s.Denotes m (s.Holds m) :=
  ⟨h.home, h.has, fun _ => hm.eval_eq_iff h.has⟩

theorem Denotes.belongs (h : s.Denotes m F) : s.Belongs m := ⟨h.home, h.denotes.has⟩

theorem Denotes.eq_holds (h : s.Denotes m F) (hm : m.Canonical) : F = s.Holds m :=
  funext fun t => propext ((h.denotes.holds t).symm.trans (hm.eval_eq_iff h.denotes.has))

theorem OfLetters.shows (h : s.OfLetters m) (hm : m.Canonical) :
    s.Shows m fun c => m.Admits s.fn [alphabet] [c] :=
  ⟨h.home, h.confined.denotes hm⟩

theorem Shows.ofLetters (h : s.Shows m L) (hm : m.Canonical) : s.OfLetters m :=
  ⟨h.home, Denotes.confined (R := fun cs => ∀ c ∈ cs, L c) (h.denotes.congr fun t => by
    simp [Domain.reads]) hm⟩

theorem foldlM_union_yields {r : SymbolSet} (hw : w.current.WellFormed)
    (hr : r.Denotes w.current F) (hparts : ∀ s ∈ parts, s.Belongs w.current) :
    Yields w (parts.foldlM union r) fun u m =>
      u.Denotes m fun t => F t ∨ ∃ s ∈ parts, s.Holds w.current t := by
  refine foldlM_runs (b := r) (I := fun (before : List SymbolSet) u m =>
    u.Denotes m fun t => F t ∨ ∃ s ∈ before, s.Holds w.current t) hw
    ⟨hr.home, hr.denotes.congr fun t => by simp⟩ ?_
  rintro before s after rfl w' u hl hu
  have hs := ((hparts s (by simp)).denotes hw.canonical).later hl
  apply (union_denotes hu hs hl.after).imp
  intro v w1 _ hv
  refine ⟨hv.home, hv.denotes.congr fun t => ?_⟩
  simp only [List.mem_append, List.mem_singleton, or_and_right, exists_or, exists_eq_left, or_assoc]

theorem exists_foldlM_union (hw : w.current.WellFormed) (hs : s.Denotes w.current F)
    (hparts : ∀ p ∈ parts, p.Belongs w.current)
    (hF : ∀ t, F t ↔ ∃ p ∈ parts, p.Holds w.current t) :
    ∃ w₁, parts.foldlM union (.empty w.current.id) w = .ok s w₁ := by
  have hempty := (empty_shows hw.canonical).toDenotes
  obtain ⟨u, w₁, hrun, hl, hu⟩ := yields_iff.1 (foldlM_union_yields hw hempty hparts)
  obtain rfl : u = s := hu.unique (hs.later hl) hl.after.canonical fun t =>
    (or_iff_right id).trans (hF t).symm
  exact ⟨w₁, hrun⟩

end SymbolSet

theorem Denoted.eq_map_holds (h : Denoted m Gs blocks) (hm : m.Canonical) :
    Gs = blocks.map (SymbolSet.Holds · m) := by
  rw [← List.forall₂_eq_eq_eq, List.forall₂_map_right_iff]
  exact h.imp fun _ _ hs => hs.eq_holds hm

theorem Labelled.map_code_eq (h : Labelled m As blocks) (hm : m.Canonical) :
    As.map (fun A x => A (Letter.code x)) = blocks.map (SymbolSet.Has · m) := by
  rw [← List.forall₂_eq_eq_eq, List.forall₂_map_right_iff, List.forall₂_map_left_iff]
  exact h.imp fun _ _ hs => funext fun _ => propext (hs.has_iff hm).symm

namespace MatrixNfa

/-- Whatever functions the labels have, their atoms are the coarsest partition of the
assignments. -/
theorem atoms_holds (hw : w.current.WellFormed) (h : ∀ on ∈ labels, on.Belongs w.current) :
    Yields w (atoms labels) fun bs m => (∀ s ∈ bs, s.Belongs m ∧ s.isEmpty = false) ∧
      CoarsestPartition (labels.map (SymbolSet.Holds · w.current))
        (bs.map (SymbolSet.Holds · m)) := by
  have hlabels : Denoted w.current (labels.map (SymbolSet.Holds · w.current)) labels :=
    List.forall₂_map_left_iff.2 (List.forall₂_same.2 fun on hon => (h on hon).denotes hw.canonical)
  refine (atoms_denotes hw hlabels).imp ?_
  rintro bs w₁ hl ⟨Gs, hGs, hatomic⟩
  have hm := hl.after.canonical
  constructor
  · intro s hs
    obtain ⟨G, hG, hsG⟩ := exists_left_of_forall₂ hGs s hs
    obtain ⟨t, -, ht⟩ := hatomic.inhabited G hG
    refine ⟨hsG.belongs, Bool.eq_false_iff.2 fun hempty => ?_⟩
    exact (hsG.isEmpty_iff hm).1 hempty t ht
  · rw [← hGs.eq_map_holds hm]
    exact hatomic.coarsestPartition

/-- The atoms of sets of letters are sets of letters, and the coarsest partition of the alphabet. -/
theorem atoms_has (hw : w.current.WellFormed) (h : ∀ on ∈ labels, on.OfLetters w.current) :
    Yields w (atoms labels) fun bs m => (∀ s ∈ bs, s.OfLetters m) ∧
      CoarsestPartition (labels.map (SymbolSet.Has · w.current))
        (bs.map (SymbolSet.Has · m)) := by
  obtain ⟨Ls, hLs⟩ := exists_labelled fun on hon => ⟨_, (h on hon).shows hw.canonical⟩
  refine (atoms_yields hw hLs).imp ?_
  rintro bs w₁ hl ⟨As, hAs, hatomic⟩
  have hm := hl.after.canonical
  constructor
  · intro s hs
    obtain ⟨A, -, hA⟩ := exists_left_of_forall₂ hAs s hs
    exact hA.ofLetters hm
  · have hletters : Atomic Set.univ (labels.map (SymbolSet.Has · w.current))
        (As.map fun A x => A (Letter.code x)) := by
      refine hatomic.pull (fun x _ => x.code_lt) (fun c hc => ?_)
        (List.forall₂_map_right_iff.2 (hLs.imp fun L on hon x _ => (hon.has_iff hw.canonical).symm))
      obtain ⟨x, rfl⟩ := Letter.exists_code hc
      exact ⟨x, trivial, fun _ _ => Iff.rfl⟩
    rw [← hAs.map_code_eq hm]
    exact hletters.coarsestPartition

/-- The atoms of any labels are not empty and partition the assignments, each label is returned as a
union of atoms, and no coarser partition has labels that are such unions. The atoms of sets of
letters are sets of letters, and all this is so of the alphabet: letters are in one atom exactly if
they are on the same labels. -/
theorem atoms_of_belongs (hw : w.current.WellFormed) (h : ∀ on ∈ labels, on.Belongs w.current) :
    ∃ blocks w₁, atoms labels w = .ok blocks w₁ ∧ w.Leads w₁ ∧
      (∀ s ∈ blocks, s.Belongs w₁.current ∧ s.isEmpty = false) ∧
      CoarsestPartition (labels.map (SymbolSet.Holds · w.current))
        (blocks.map (SymbolSet.Holds · w₁.current)) ∧
      (∃ w₂, blocks.foldlM SymbolSet.union (.empty w.current.id) w₁ =
        .ok (.universal w.current.id) w₂) ∧
      (∀ on ∈ labels, ∃ (parts : List SymbolSet) (w₂ : Workspace), parts.Sublist blocks ∧
        parts.foldlM SymbolSet.union (.empty w.current.id) w₁ = .ok on w₂) ∧
      ((∀ on ∈ labels, on.OfLetters w.current) → (∀ s ∈ blocks, s.OfLetters w₁.current) ∧
        CoarsestPartition (labels.map (SymbolSet.Has · w.current))
          (blocks.map (SymbolSet.Has · w₁.current))) := by
  obtain ⟨blocks, w₁, hrun, hl, hblocks, hpartition⟩ := yields_iff.1 (atoms_holds hw h)
  have hm := hl.after.canonical
  have hbelongs : ∀ s ∈ blocks, s.Belongs w₁.current := fun s hs => (hblocks s hs).1
  rw [← hl.grows.id]
  refine ⟨blocks, w₁, hrun, hl, hblocks, hpartition, ?_, fun on hon => ?_, fun hletters =>
    ((atoms_has hw hletters).of_ok hrun).2⟩
  · refine SymbolSet.exists_foldlM_union hl.after (SymbolSet.universal_shows hm).toDenotes hbelongs
      fun t => (iff_true_left trivial).2 ?_
    simpa using hpartition.cover t
  · obtain ⟨Bs, hBs, hunion⟩ := hpartition.union _ (List.mem_map_of_mem hon)
    obtain ⟨parts, hparts, rfl⟩ := List.sublist_map_iff.1 hBs
    have hdenotes := ((h on hon).denotes hw.canonical).later hl
    obtain ⟨w₂, hfold⟩ := SymbolSet.exists_foldlM_union hl.after hdenotes
      (fun s hs => hbelongs s (hparts.subset hs)) fun t => by simpa using hunion t
    exact ⟨parts, w₂, hparts, hfold⟩

/-- Of two bits, the first one again, no letters and all letters, the atoms tell letters apart by
the two bits alone. -/
theorem atoms_of_belongs_bits : ∃ m x w₀ y w blocks w₁, Manager.new 0 1 1 = .ok m ∧
    SymbolSet.ofBit 1 ⟨m, []⟩ = .ok x w₀ ∧ SymbolSet.ofBit 2 w₀ = .ok y w ∧
    atoms [x, y, x, .empty m.id, .universal m.id] w = .ok blocks w₁ ∧
    (∀ s ∈ blocks, s.isEmpty = false) ∧
    (∃ w₂, blocks.foldlM SymbolSet.union (.empty m.id) w₁ = .ok (.universal m.id) w₂) ∧
    ∀ u v : Letter, (∃ s ∈ blocks, s.Has w₁.current u ∧ s.Has w₁.current v) ↔
      u.bits 1 = v.bits 1 ∧ u.bits 2 = v.bits 2 := by
  obtain ⟨m, hm⟩ : ∃ m, Manager.new 0 1 1 = .ok m := ⟨_, rfl⟩
  obtain ⟨x, w₀, hx, hl₀, hxshows⟩ := yields_iff.1
    (SymbolSet.ofBit_yields (w := ⟨m, []⟩) (Manager.wellFormed_new hm) Nat.one_pos (by decide))
  obtain ⟨y, w, hy, hl, hyshows⟩ := yields_iff.1
    (SymbolSet.ofBit_yields hl₀.after Nat.two_pos (by decide))
  have hc := hl.after.canonical
  have hid : w.current.id = m.id := hl.grows.id.trans hl₀.grows.id
  have hxshows := hxshows.later hl
  have hempty := SymbolSet.empty_shows hc
  have huniversal := SymbolSet.universal_shows hc
  rw [hid] at hempty huniversal
  have hletters : ∀ on ∈ [x, y, x, .empty m.id, .universal m.id], on.OfLetters w.current := by
    simp only [List.forall_mem_cons, List.not_mem_nil, false_imp_iff, implies_true, and_true]
    exact ⟨hxshows.ofLetters hc, hyshows.ofLetters hc, hxshows.ofLetters hc, hempty.ofLetters hc,
      huniversal.ofLetters hc⟩
  obtain ⟨blocks, w₁, hrun, -, hblocks, -, hall, -, hpartition⟩ := atoms_of_belongs hl.after
    fun on hon => ⟨(hletters on hon).home, (hletters on hon).confined.has⟩
  rw [hid] at hall
  refine ⟨m, x, w₀, y, w, blocks, w₁, hm, hx, hy, hrun, fun s hs => (hblocks s hs).2, hall,
    fun u v => ?_⟩
  have hfirst : ∀ u : Letter, x.Has w.current u ↔ u.bits 1 = true := fun u => by
    rw [hxshows.has_iff hc, Letter.testBit_code Nat.one_pos (by decide)]
  have hsecond : ∀ u : Letter, y.Has w.current u ↔ u.bits 2 = true := fun u => by
    rw [hyshows.has_iff hc, Letter.testBit_code (b := 2) (by decide) (by decide)]
  have htogether := (hpartition hletters).2.together_iff u v
  rw [List.forall_mem_map] at htogether
  simp only [List.mem_map, exists_exists_and_eq_and, List.forall_mem_cons, List.not_mem_nil,
    false_imp_iff, implies_true, and_true, hfirst, hsecond, hempty.has_iff hc,
    huniversal.has_iff hc, ← Bool.eq_iff_iff] at htogether
  exact htogether.trans ⟨fun h => ⟨h.1, h.2.1⟩, fun h => ⟨h.1, h.2, h.1⟩⟩

/-- A label that comes again splits nothing. -/
example : ∃ m, Manager.new 0 1 1 = .ok m ∧ ∃ blocks w, (do
    let x ← SymbolSet.ofBit 1
    let y ← SymbolSet.ofBit 2
    atoms [x, y, x]) ⟨m, []⟩ = .ok blocks w ∧ blocks.length = 4 := by
  decide +kernel

end MatrixNfa

end SymbolicAutomata
