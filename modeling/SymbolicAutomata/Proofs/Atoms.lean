import SymbolicAutomata.Proofs.Encodings
import Mathlib.Data.List.Flatten
/-!
# Atoms of the alphabet

Each label in turn splits every block into what is on the label and what is not. In the end two
points are in one block exactly if they are on the same labels. The labels may be any functions of
the manager, so the points are assignments; where the labels are sets of letters, so are the blocks,
and the points may be taken to be letters.
-/
namespace SymbolicAutomata

open Manager Bdd Layout

section Atomic

variable {α : Type} {U : Set α} {L : α → Prop} {Ls Ks As : List (α → Prop)}

/-- A partition of the points of `U` into those that are on the same labels. -/
structure Atomic (U : Set α) (Ls As : List (α → Prop)) : Prop where
  inhabited : ∀ A ∈ As, ∃ c ∈ U, A c
  apart : As.Pairwise fun A B => ∀ c ∈ U, A c → ¬ B c
  covers : ∀ c ∈ U, ∃ A ∈ As, A c
  alike : ∀ A ∈ As, ∀ c ∈ U, ∀ d ∈ U, A c → (A d ↔ ∀ L ∈ Ls, L c ↔ L d)

theorem atomic_nil (hU : U.Nonempty) : Atomic U [] [fun _ => True] where
  inhabited A hA := by
    obtain rfl := List.mem_singleton.1 hA
    obtain ⟨c, hc⟩ := hU
    exact ⟨c, hc, trivial⟩
  apart := List.pairwise_singleton _ _
  covers c _ := ⟨_, List.mem_singleton_self _, trivial⟩
  alike A hA c _ d _ _ := by
    obtain rfl := List.mem_singleton.1 hA
    simp

def halves (L A : α → Prop) : List (α → Prop) := [fun c => A c ∧ L c, fun c => A c ∧ ¬ L c]

open Classical in
noncomputable def pieces (U : Set α) (L : α → Prop) (As : List (α → Prop)) : List (α → Prop) :=
  (As.map (halves L)).flatten.filter fun A => decide (∃ c ∈ U, A c)

theorem mem_pieces {B : α → Prop} : B ∈ pieces U L As ↔
    (∃ A ∈ As, B ∈ halves L A) ∧ ∃ c ∈ U, B c := by
  simp only [pieces, List.mem_filter, List.mem_flatten, List.mem_map, decide_eq_true_eq]
  constructor
  · rintro ⟨⟨_, ⟨A, hA, rfl⟩, hB⟩, hc⟩
    exact ⟨⟨A, hA, hB⟩, hc⟩
  · rintro ⟨⟨A, hA, hB⟩, hc⟩
    exact ⟨⟨_, ⟨A, hA, rfl⟩, hB⟩, hc⟩

theorem Atomic.split (h : Atomic U Ks As) : Atomic U (Ks ++ [L]) (pieces U L As) where
  inhabited B hB := (mem_pieces.1 hB).2
  apart := by
    refine List.Pairwise.filter _ (List.pairwise_flatten.2 ⟨?_, ?_⟩)
    · intro l hl
      obtain ⟨A, -, rfl⟩ := List.mem_map.1 hl
      exact List.pairwise_pair.2 fun c _ hc hc' => hc'.2 hc.2
    · refine List.pairwise_map.2 (h.apart.imp fun hAB B hB C hC c hc hBc hCc => ?_)
      have hleft : ∀ {A B : α → Prop}, B ∈ halves L A → B c → A c := by
        intro A B hB hBc
        simp only [halves, List.mem_cons, List.not_mem_nil, or_false] at hB
        rcases hB with rfl | rfl
        · exact hBc.1
        · exact hBc.1
      exact hAB c hc (hleft hB hBc) (hleft hC hCc)
  covers c hc := by
    obtain ⟨A, hA, hAc⟩ := h.covers c hc
    by_cases hL : L c
    · exact ⟨_, mem_pieces.2 ⟨⟨A, hA, .head _⟩, c, hc, hAc, hL⟩, hAc, hL⟩
    · exact ⟨_, mem_pieces.2 ⟨⟨A, hA, .tail _ (.head _)⟩, c, hc, hAc, hL⟩, hAc, hL⟩
  alike B hB c hc d hd hBc := by
    obtain ⟨⟨A, hA, hB⟩, -⟩ := mem_pieces.1 hB
    have hmem : (∀ K ∈ Ks ++ [L], K c ↔ K d) ↔ (∀ K ∈ Ks, K c ↔ K d) ∧ (L c ↔ L d) := by
      simp [or_imp, forall_and]
    simp only [halves, List.mem_cons, List.not_mem_nil, or_false] at hB
    rw [hmem]
    rcases hB with rfl | rfl
    · rw [← h.alike A hA c hc d hd hBc.1]
      exact ⟨fun hd => ⟨hd.1, iff_of_true hBc.2 hd.2⟩, fun hd => ⟨hd.1, hd.2.1 hBc.2⟩⟩
    · rw [← h.alike A hA c hc d hd hBc.1]
      exact ⟨fun hd => ⟨hd.1, iff_of_false hBc.2 hd.2⟩,
        fun hd => ⟨hd.1, fun hL => hBc.2 (hd.2.2 hL)⟩⟩

theorem Atomic.label_iff (h : Atomic U Ls As) {A : α → Prop} (hA : A ∈ As) (hL : L ∈ Ls) {c d : α}
    (hc : c ∈ U) (hd : d ∈ U) (hAc : A c) (hAd : A d) : L c ↔ L d :=
  (h.alike A hA c hc d hd hAc).1 hAd L hL

/-- The partition of other points, if each old point is on the same labels as the image of some new
one. -/
theorem Atomic.pull {β : Type} {V : Set β} {φ : β → α} {Ls' : List (β → Prop)} (h : Atomic U Ls As)
    (hmaps : ∀ c ∈ V, φ c ∈ U) (honto : ∀ t ∈ U, ∃ c ∈ V, ∀ L ∈ Ls, L t ↔ L (φ c))
    (hLs : List.Forall₂ (fun L L' => ∀ c ∈ V, L (φ c) ↔ L' c) Ls Ls') :
    Atomic V Ls' (As.map fun A c => A (φ c)) where
  inhabited := by
    refine List.forall_mem_map.2 fun A hA => ?_
    obtain ⟨t, ht, hAt⟩ := h.inhabited A hA
    obtain ⟨c, hc, hsame⟩ := honto t ht
    exact ⟨c, hc, (h.alike A hA t ht _ (hmaps c hc) hAt).2 hsame⟩
  apart := List.pairwise_map.2 (h.apart.imp fun hAB c hc => hAB _ (hmaps c hc))
  covers c hc := by
    obtain ⟨A, hA, hAc⟩ := h.covers _ (hmaps c hc)
    exact ⟨_, List.mem_map_of_mem hA, hAc⟩
  alike := by
    refine List.forall_mem_map.2 fun A hA c hc d hd hAc => ?_
    rw [h.alike A hA _ (hmaps c hc) _ (hmaps d hd) hAc]
    constructor
    · intro hsame L' hL'
      obtain ⟨L, hL, hiff⟩ := exists_left_of_forall₂ hLs L' hL'
      rw [← hiff c hc, ← hiff d hd]
      exact hsame L hL
    · intro hsame L hL
      obtain ⟨L', hL', hiff⟩ := exists_right_of_forall₂ hLs L hL
      rw [hiff c hc, hiff d hd]
      exact hsame L' hL'

end Atomic

variable {w w' : Workspace} {m : Manager} {L A : Nat → Prop} {Ls As : List (Nat → Prop)}
  {F : Assignment → Prop} {Fs Gs Hs : List (Assignment → Prop)} {on : SymbolSet}
  {labels blocks : List SymbolSet}

namespace SymbolSet

theorem Shows.letter_iff (h : on.Shows m L) (h' : on.Shows m A) {c : Nat} (hc : c < letterCount) :
    L c ↔ A c := by
  have hread : alphabet.read (alphabet.write c fun _ => false) = c :=
    Domain.read_write (d := alphabet) hc _
  have hL := h.denotes.holds (alphabet.write c fun _ => false)
  have hA := h'.denotes.holds (alphabet.write c fun _ => false)
  rw [hread] at hL hA
  exact hL.symm.trans hA

theorem universal_shows (hm : m.Canonical) : (universal m.id).Shows m fun _ => True :=
  ⟨rfl, .one hm⟩

theorem empty_shows (hm : m.Canonical) : (empty m.id).Shows m fun _ => False := ⟨rfl, .zero hm⟩

end SymbolSet

abbrev Labelled (m : Manager) : List (Nat → Prop) → List SymbolSet → Prop :=
  List.Forall₂ fun L on => on.Shows m L

theorem Labelled.later (h : Labelled w.current Ls labels) (hl : w.Leads w') :
    Labelled w'.current Ls labels := h.imp fun _ _ hon => hon.later hl

theorem exists_labelled (h : ∀ on ∈ labels, ∃ L, on.Shows m L) : ∃ Ls, Labelled m Ls labels := by
  induction labels with
  | nil => exact ⟨[], .nil⟩
  | cons on labels ih =>
    obtain ⟨L, hL⟩ := h on (List.mem_cons_self ..)
    obtain ⟨Ls, hLs⟩ := ih fun on' hon' => h on' (List.mem_cons_of_mem _ hon')
    exact ⟨L :: Ls, .cons hL hLs⟩

abbrev Denoted (m : Manager) : List (Assignment → Prop) → List SymbolSet → Prop :=
  List.Forall₂ fun F on => on.Denotes m F

theorem Denoted.later (h : Denoted w.current Fs labels) (hl : w.Leads w') :
    Denoted w'.current Fs labels := h.imp fun _ _ hon => hon.later hl

namespace MatrixNfa

theorem split_yields (hw : w.current.WellFormed) (h : Denoted w.current Gs blocks)
    (hon : on.Denotes w.current F) :
    Yields w (do
      let split ← blocks.mapM fun atom => do
        let inside ← atom.inter on
        return [inside, ← atom.sdiff on]
      return split.flatten.filter (!·.isEmpty)) fun bs m =>
        Denoted m (pieces Set.univ F Gs) bs := by
  classical
  apply Runs.bind (mapM_yields (Q := fun G bs m => Denoted m (halves F G) bs) hw
    (List.Forall₂.imp ?_ h) fun G bs w1 w2 hl hbs => Denoted.later hbs hl)
  · intro split w1 hl1 hsplit
    refine Runs.pure hl1.after (List.rel_filter (fun G on hG => ?_) (List.rel_flatten ?_))
    · change decide _ = true ↔ (!on.isEmpty) = true
      rw [decide_eq_true_eq, Bool.not_eq_true', ← Bool.not_eq_true,
        hG.isEmpty_iff hl1.after.canonical]
      simp
    · exact List.forall₂_map_left_iff.2 hsplit
  · intro G atom hatom w1 hl1
    apply Runs.bind (SymbolSet.inter_denotes (hatom.later hl1) (hon.later hl1) hl1.after)
    intro inside w2 hl2 hinside
    have hl := hl1.trans hl2
    apply Runs.bind (SymbolSet.sdiff_denotes (hatom.later hl) (hon.later hl) hl2.after)
    intro outside w3 hl3 houtside
    exact Runs.pure hl3.after (.cons (hinside.later hl3) (.cons houtside .nil))

theorem splitAll_yields (hw : w.current.WellFormed) (h : Denoted w.current Fs labels)
    (hblocks : Denoted w.current Gs blocks) (hatomic : Atomic Set.univ Hs Gs) :
    Yields w (labels.foldlM (fun atoms label => do
      let split ← atoms.mapM fun atom => do
        let inside ← atom.inter label
        return [inside, ← atom.sdiff label]
      return split.flatten.filter (!·.isEmpty)) blocks) fun bs m =>
        ∃ Gs, Denoted m Gs bs ∧ Atomic Set.univ (Hs ++ Fs) Gs := by
  induction labels generalizing w Fs Hs Gs blocks with
  | nil =>
    cases h
    rw [List.append_nil]
    exact Runs.pure hw ⟨Gs, hblocks, hatomic⟩
  | cons on labels ih =>
    cases h with
    | @cons F _ Fs _ hon hlabels =>
      rw [List.foldlM_cons]
      apply Runs.bind (split_yields hw hblocks hon)
      intro bs w1 hl1 hbs
      have hrest := ih hl1.after (Denoted.later hlabels hl1) hbs (hatomic.split (L := F))
      rwa [List.append_assoc] at hrest

/-- Whatever the labels are, their atoms partition the assignments, and assignments are in one atom
exactly if they are on the same labels. -/
theorem atoms_denotes (hw : w.current.WellFormed) (h : Denoted w.current Fs labels) :
    Yields w (atoms labels) fun bs m => ∃ Gs, Denoted m Gs bs ∧ Atomic Set.univ Fs Gs :=
  .ask_bind rfl (splitAll_yields hw h
    (.cons (SymbolSet.universal_shows hw.canonical).toDenotes .nil) (atomic_nil Set.univ_nonempty))

/-- The atoms of sets of letters are sets of letters, and partition the alphabet: letters are in one
atom exactly if they are on the same labels. -/
theorem atoms_yields (hw : w.current.WellFormed) (h : Labelled w.current Ls labels) :
    Yields w (atoms labels) fun bs m =>
      ∃ As, Labelled m As bs ∧ Atomic (Set.Iio letterCount) Ls As := by
  have hread : ∀ c < letterCount, alphabet.read (alphabet.write c fun _ => false) = c :=
    fun c hc => Domain.read_write (d := alphabet) hc _
  have hletter : ∀ t, ∀ F ∈ Ls.map fun (L : Nat → Prop) t => L (alphabet.read t),
      F t ↔ F (alphabet.write (alphabet.read t) fun _ => false) := fun t =>
    List.forall_mem_map.2 fun L _ => iff_of_eq (congrArg L (hread _ (alphabet.read_lt t)).symm)
  have hlabels : Denoted w.current (Ls.map fun L t => L (alphabet.read t)) labels :=
    List.forall₂_map_left_iff.2 (h.imp fun _ _ hon => hon.toDenotes)
  refine (atoms_denotes hw hlabels).imp ?_
  rintro bs w1 hl1 ⟨Gs, hbs, hatomic⟩
  have hpulled : Atomic (Set.Iio letterCount) Ls
      (Gs.map fun G c => G (alphabet.write c fun _ => false)) := by
    refine hatomic.pull (fun _ _ => trivial)
      (fun t _ => ⟨_, alphabet.read_lt t, hletter t⟩) (List.forall₂_map_left_iff.2 ?_)
    exact List.forall₂_same.2 fun L _ c hc => iff_of_eq (congrArg L (hread c hc))
  refine ⟨_, ?_, hpulled⟩
  rw [Labelled, List.forall₂_map_left_iff]
  have hmem := (List.forall₂_and_left (p := (· ∈ Gs)) Gs bs).2 ⟨fun _ hG => hG, hbs⟩
  refine hmem.imp fun G on hG => ⟨hG.2.home, hG.2.denotes.congr fun t => ?_⟩
  have halike := hatomic.alike G hG.1
  constructor
  · exact fun hGt => (halike t trivial _ trivial hGt).2 (hletter t)
  · exact fun hGt => (halike _ trivial t trivial hGt).2 fun F hF => (hletter t F hF).symm

end MatrixNfa

end SymbolicAutomata
