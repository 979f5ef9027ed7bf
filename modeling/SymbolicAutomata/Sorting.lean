/-!
# Stable sorting by a key

Insertion sort. Lists that are sorted already, as those of the variables of a domain are, cost one
comparison for each element. The result is a permutation of the list, in ascending order of keys.
-/
namespace SymbolicAutomata

variable {α : Type}

def insertByKey (key : α → Nat) (x : α) : List α → List α
  | [] => [x]
  | y :: ys => if key x ≤ key y then x :: y :: ys else y :: insertByKey key x ys

/-- Elements of equal keys keep their order. -/
def sortByKey (key : α → Nat) (xs : List α) : List α := xs.foldr (insertByKey key) []

theorem insertByKey_perm (key : α → Nat) (x : α) (ys : List α) :
    (insertByKey key x ys).Perm (x :: ys) := by
  induction ys with
  | nil => exact .refl _
  | cons y ys ih =>
    simp only [insertByKey]
    split
    · exact .refl _
    · exact (ih.cons y).trans (.swap x y ys)

theorem sortByKey_perm (key : α → Nat) (xs : List α) : (sortByKey key xs).Perm xs := by
  induction xs with
  | nil => exact .refl _
  | cons x xs ih => exact (insertByKey_perm key x _).trans (ih.cons x)

theorem mem_sortByKey {key : α → Nat} {x : α} {xs : List α} :
    x ∈ sortByKey key xs ↔ x ∈ xs :=
  (sortByKey_perm key xs).mem_iff

theorem insertByKey_pairwise {key : α → Nat} {x : α} {ys : List α}
    (h : ys.Pairwise (key · ≤ key ·)) : (insertByKey key x ys).Pairwise (key · ≤ key ·) := by
  induction ys with
  | nil => simp [insertByKey]
  | cons y ys ih =>
    obtain ⟨hy, hys⟩ := List.pairwise_cons.1 h
    simp only [insertByKey]
    split
    · rename_i hx
      refine List.pairwise_cons.2 ⟨fun z hz => ?_, h⟩
      rcases List.mem_cons.1 hz with rfl | hz
      · exact hx
      · exact Nat.le_trans hx (hy z hz)
    · rename_i hx
      refine List.pairwise_cons.2 ⟨fun z hz => ?_, ih hys⟩
      rcases List.mem_cons.1 ((insertByKey_perm key x ys).mem_iff.1 hz) with rfl | hz
      · omega
      · exact hy z hz

theorem sortByKey_pairwise (key : α → Nat) (xs : List α) :
    (sortByKey key xs).Pairwise (key · ≤ key ·) := by
  induction xs with
  | nil => exact .nil
  | cons x xs ih => exact insertByKey_pairwise ih

end SymbolicAutomata
