import SymbolicAutomata.Proofs.HashConsing
import Mathlib.Data.List.Basic
/-!
# What a table answers

The answers of a table depend on the order in which its cells were made, on which of them `put` made
and on when the chains were last rebuilt, and on neither slots nor links. A ledger keeps just that.
A rebuilding links the cells made by `add` as well, so that from then on `put` finds them.
-/
namespace SymbolicAutomata.Table

variable {α : Type}

inductive Call (α : Type) where
  | put (v : α)
  | add (v : α)
deriving DecidableEq

def Call.value : Call α → α
  | .put v => v
  | .add v => v

section Calls

variable [Slotted α] [DecidableEq α] [Inhabited α]

def Call.run (t : Table α) : Call α → Except Failure (Nat × Table α)
  | .put v => t.put v
  | .add v => .ok (t.add v)

def run (t : Table α) : List (Call α) → Except Failure (List Nat × Table α)
  | [] => .ok ([], t)
  | c :: cs => do
    let (i, t) ← c.run t
    let (is, t) ← t.run cs
    return (i :: is, t)

end Calls

/-- The calls that made the cells, oldest first, how many cells the last rebuilding linked, and the
number of buckets, which tells when the next one is due. -/
structure Ledger (α : Type) where
  made : List (Call α)
  rebuilt : Nat
  buckets : Nat
deriving DecidableEq

namespace Ledger

variable {l : Ledger α} {c : Call α} {v w : α} {i : Nat}

def blank (bits : Nat) : Ledger α := ⟨[], 0, 2 ^ min bits 16⟩

def fresh (l : Ledger α) : Nat := l.made.length + 1

def append (l : Ledger α) (c : Call α) : Ledger α := { l with made := l.made ++ [c] }

/-- Twice the buckets are due once they hold four cells on average. -/
def balance (l : Ledger α) : Ledger α :=
  if 4 * l.buckets < l.made.length ∧ l.buckets < 2 ^ 24 then
    ⟨l.made, l.made.length, 2 * l.buckets⟩
  else l

def select (l : Ledger α) (p : Call α → Nat → Bool) : List Nat :=
  ((l.made.zipIdx 1).filter fun q => p q.1 q.2).map Prod.snd

section Answers

variable [DecidableEq α]

/-- The cells that a call of `put` with this value made. -/
def owned (l : Ledger α) (v : α) : List Nat := l.select fun c _ => c = .put v

/-- The cells of the value that `add` made and the last rebuilding linked. -/
def adopted (l : Ledger α) (v : α) : List Nat :=
  l.select fun c i => c = .add v ∧ i ≤ l.rebuilt

/-- The cells of the value that stand on a chain. -/
def linked (l : Ledger α) (v : α) : List Nat := l.owned v ++ l.adopted v

/-- What `put` answers: the newest linked cell of the value, or else a fresh one. -/
def answer (l : Ledger α) (v : α) : Nat := (l.linked v).max?.getD l.fresh

/-- What `put` would answer if only the cells made by `put` took part. -/
def promised (l : Ledger α) (v : α) : Nat := (l.owned v).max?.getD l.fresh

def step (l : Ledger α) : Call α → Nat × Ledger α
  | .put v =>
    match (l.linked v).max? with
    | some i => (i, l)
    | none => (l.fresh, (l.append (.put v)).balance)
  | .add v => (l.fresh, l.append (.add v))

def run (l : Ledger α) : List (Call α) → List Nat × Ledger α
  | [] => ([], l)
  | c :: cs =>
    let (i, l) := l.step c
    let (is, l) := l.run cs
    (i :: is, l)

end Answers

theorem mem_select {p : Call α → Nat → Bool} :
    i ∈ l.select p ↔ ∃ c, (c, i) ∈ l.made.zipIdx 1 ∧ p c i = true := by
  simp [select]

theorem made_balance : l.balance.made = l.made := by
  unfold balance
  split_ifs <;> rfl

theorem mem_zipIdx_append {d : Call α} :
    (d, i) ∈ (l.append c).made.zipIdx 1 ↔ (d, i) ∈ l.made.zipIdx 1 ∨ d = c ∧ i = l.fresh := by
  rw [append, List.zipIdx_append, List.mem_append, fresh, Nat.add_comm]
  simp

theorem bounds_of_mem (h : (c, i) ∈ l.made.zipIdx 1) : 0 < i ∧ i ≤ l.made.length := by
  obtain ⟨h1, hi⟩ := List.mem_zipIdx_iff_le_and_getElem?_sub.1 h
  have := (List.getElem?_eq_some_iff.1 hi).1
  simp only at h1 this
  omega

variable [DecidableEq α]

theorem mem_owned : i ∈ l.owned v ↔ (.put v, i) ∈ l.made.zipIdx 1 := by
  simp [owned, mem_select]

theorem mem_adopted : i ∈ l.adopted v ↔ (.add v, i) ∈ l.made.zipIdx 1 ∧ i ≤ l.rebuilt := by
  simp [adopted, mem_select]

theorem mem_linked : i ∈ l.linked v ↔ i ∈ l.owned v ∨ i ∈ l.adopted v := List.mem_append

theorem le_of_mem_linked (h : i ∈ l.linked v) : 0 < i ∧ i ≤ l.made.length := by
  rcases mem_linked.1 h with h | h
  · exact bounds_of_mem (mem_owned.1 h)
  · exact bounds_of_mem (mem_adopted.1 h).1

theorem mem_linked_append_put :
    i ∈ (l.append (.put v)).linked w ↔ i ∈ l.linked w ∨ v = w ∧ i = l.fresh := by
  rw [mem_linked, mem_linked, mem_owned, mem_owned, mem_adopted, mem_adopted, mem_zipIdx_append,
    mem_zipIdx_append]
  simp only [Call.put.injEq, reduceCtorEq, false_and, or_false, eq_comm (a := w)]
  exact or_right_comm

theorem mem_linked_append_add (hl : l.rebuilt ≤ l.made.length) :
    i ∈ (l.append (.add v)).linked w ↔ i ∈ l.linked w := by
  rw [mem_linked, mem_linked, mem_owned, mem_owned, mem_adopted, mem_adopted, mem_zipIdx_append,
    mem_zipIdx_append]
  have hlate : ¬ (i = l.fresh ∧ i ≤ l.rebuilt) := by
    unfold fresh
    omega
  simp only [reduceCtorEq, false_and, or_false, Call.add.injEq, append]
  tauto

theorem exists_mem_linked (hl : l.made.length ≤ l.rebuilt) (h0 : 0 < i) (hi : i ≤ l.made.length) :
    ∃ v, i ∈ l.linked v := by
  obtain ⟨c, hc⟩ : ∃ c, (c, i) ∈ l.made.zipIdx 1 :=
    ⟨l.made[i - 1], List.mem_zipIdx_iff_le_and_getElem?_sub.2
      ⟨h0, List.getElem?_eq_getElem (by omega)⟩⟩
  cases c with
  | put v => exact ⟨v, mem_linked.2 (.inl (mem_owned.2 hc))⟩
  | add v => exact ⟨v, mem_linked.2 (.inr (mem_adopted.2 ⟨hc, by omega⟩))⟩

theorem max?_getD (xs : List Nat) (n : Nat) : xs = [] ∧ xs.max?.getD n = n ∨
    xs.max?.getD n ∈ xs ∧ ∀ i ∈ xs, i ≤ xs.max?.getD n := by
  cases hmax : xs.max? with
  | none => exact .inl ⟨List.max?_eq_none_iff.1 hmax, rfl⟩
  | some k => exact .inr (List.max?_eq_some_iff.1 hmax)

/-- The answer is the promised one exactly if no cell of the value that a rebuilding linked is newer
than the one that `put` made. -/
theorem answer_eq_promised_iff :
    l.answer v = l.promised v ↔ ∀ i ∈ l.adopted v, ∃ j ∈ l.owned v, i < j := by
  have hanswer := max?_getD (l.linked v) l.fresh
  have hpromised := max?_getD (l.owned v) l.fresh
  change _ ∧ l.answer v = _ ∨ l.answer v ∈ _ ∧ ∀ i ∈ _, i ≤ l.answer v at hanswer
  change _ ∧ l.promised v = _ ∨ l.promised v ∈ _ ∧ ∀ i ∈ _, i ≤ l.promised v at hpromised
  constructor
  · intro heq i hi
    have hlinked : i ∈ l.linked v := mem_linked.2 (.inr hi)
    have hne : l.linked v ≠ [] := List.ne_nil_of_mem hlinked
    obtain ⟨hmem, hgreatest⟩ := hanswer.resolve_left fun h => hne h.1
    have hbound := (le_of_mem_linked hmem).2
    rcases hpromised with ⟨-, hfresh⟩ | ⟨hown, -⟩
    · rw [heq, hfresh, fresh] at hbound
      omega
    · refine ⟨_, hown, Nat.lt_of_le_of_ne (heq ▸ hgreatest i hlinked) fun hsame => ?_⟩
      have hput := (List.mem_zipIdx_iff_le_and_getElem?_sub.1 (mem_owned.1 hown)).2
      have hadd := (List.mem_zipIdx_iff_le_and_getElem?_sub.1 (mem_adopted.1 hi).1).2
      rw [← hsame] at hput
      simp [hput] at hadd
  · intro h
    rcases hanswer with ⟨hempty, hfresh⟩ | ⟨hmem, hgreatest⟩
    · have hown : l.owned v = [] := (List.append_eq_nil_iff.1 hempty).1
      rw [hfresh, promised, hown]
      rfl
    · have hown : l.answer v ∈ l.owned v := by
        refine (mem_linked.1 hmem).resolve_right fun hadopted => ?_
        obtain ⟨j, hj, hlt⟩ := h _ hadopted
        exact absurd (hgreatest j (mem_linked.2 (.inl hj))) (Nat.not_le.2 hlt)
      obtain ⟨hin, hmax⟩ := hpromised.resolve_left fun h => List.ne_nil_of_mem hown h.1
      exact Nat.le_antisymm (hmax _ hown) (hgreatest _ (mem_linked.2 (.inl hin)))

theorem step_put_of_some (h : (l.linked v).max? = some i) : l.step (.put v) = (i, l) := by
  simp only [step, h]

theorem step_put_of_none (h : (l.linked v).max? = none) :
    l.step (.put v) = (l.fresh, (l.append (.put v)).balance) := by
  simp only [step, h]

theorem step_put_fst : (l.step (.put v)).1 = l.answer v := by
  cases hmax : (l.linked v).max? with
  | some i => rw [step_put_of_some hmax, answer, hmax, Option.getD_some]
  | none => rw [step_put_of_none hmax, answer, hmax, Option.getD_none]

theorem made_prefix_step (l : Ledger α) (c : Call α) : l.made <+: (l.step c).2.made := by
  cases c with
  | add v => exact List.prefix_append ..
  | put v =>
    cases hmax : (l.linked v).max? with
    | some i => exact ⟨[], by rw [step_put_of_some hmax, List.append_nil]⟩
    | none =>
      rw [step_put_of_none hmax, made_balance]
      exact List.prefix_append ..

theorem made_prefix_run (l : Ledger α) (cs : List (Call α)) : l.made <+: (l.run cs).2.made := by
  induction cs generalizing l with
  | nil => exact List.prefix_refl _
  | cons c cs ih => exact (l.made_prefix_step c).trans (ih _)

/-- No value was put into two cells. -/
def Single (l : Ledger α) : Prop := ∀ v, ∀ i ∈ l.owned v, ∀ j ∈ l.owned v, i = j

theorem Single.step (h : l.Single) (c : Call α) : (l.step c).2.Single := by
  cases c with
  | add v =>
    intro w i hi j hj
    simp only [Ledger.step, mem_owned, mem_zipIdx_append, reduceCtorEq, false_and, or_false]
      at hi hj
    exact h w i (mem_owned.2 hi) j (mem_owned.2 hj)
  | put v =>
    cases hmax : (l.linked v).max? with
    | some i =>
      rw [step_put_of_some hmax]
      exact h
    | none =>
      have hnone : ∀ i, (Call.put v, i) ∉ l.made.zipIdx 1 := fun i hi => by
        have hi : i ∈ l.linked v := mem_linked.2 (.inl (mem_owned.2 hi))
        rw [List.max?_eq_none_iff.1 hmax] at hi
        exact List.not_mem_nil hi
      rw [step_put_of_none hmax]
      intro w i hi j hj
      simp only [mem_owned, made_balance, mem_zipIdx_append, Call.put.injEq] at hi hj
      by_cases hvw : w = v
      · subst hvw
        rw [(hi.resolve_left (hnone i)).2, (hj.resolve_left (hnone j)).2]
      · exact h w i (mem_owned.2 (hi.resolve_right fun h => hvw h.1)) j
          (mem_owned.2 (hj.resolve_right fun h => hvw h.1))

theorem Single.run (h : l.Single) (cs : List (Call α)) : (l.run cs).2.Single := by
  induction cs generalizing l with
  | nil => exact h
  | cons c cs ih => exact ih (h.step c)

end Ledger

section Tracks

variable [Slotted α] [DecidableEq α] {t u : Table α} {l : Ledger α} {v w : α} {i j : Nat}

/-- The table stands as the ledger tells: its cells hold the values, and those that can be reached
from the heads are the linked ones. -/
structure Tracks (t : Table α) (l : Ledger α) : Prop where
  sound : t.Sound fun i => ∃ v, i ∈ l.linked v
  last : t.last = l.made.length
  rebuilt : l.rebuilt ≤ l.made.length
  buckets : t.buckets.size = l.buckets
  values : ∀ c i, (c, i) ∈ l.made.zipIdx 1 → t.values[i]? = some c.value
  only : ∀ v i, Reaches t.links (t.head v) i → ∃ w, i ∈ l.linked w

theorem Tracks.value_of_linked (h : t.Tracks l) (hi : i ∈ l.linked v) : t.values[i]? = some v := by
  rcases Ledger.mem_linked.1 hi with hi | hi
  · exact h.values _ _ (Ledger.mem_owned.1 hi)
  · exact h.values _ _ (Ledger.mem_adopted.1 hi).1

theorem Tracks.reaches_iff (h : t.Tracks l) :
    Reaches t.links (t.head v) i ∧ t.values[i]? = some v ↔ i ∈ l.linked v := by
  constructor
  · rintro ⟨hr, hv⟩
    obtain ⟨w, hw⟩ := h.only v i hr
    obtain rfl : w = v := Option.some.inj ((h.value_of_linked hw).symm.trans hv)
    exact hw
  · intro hi
    have hv := h.value_of_linked hi
    have hle := Ledger.le_of_mem_linked hi
    exact ⟨h.sound.chained.reached i v hle.1 (by rw [h.last]; exact hle.2) ⟨v, hi⟩ hv, hv⟩

/-- A search finds the newest linked cell of the value. -/
theorem Tracks.find?_eq (h : t.Tracks l) (v : α) : t.find? v = .ok (l.linked v).max? := by
  have hhead := h.sound.chained.head_le v
  have hroom := h.sound.room
  have hfuel : t.head v < t.capacity + 1 := by unfold capacity; omega
  change t.findFrom v (t.capacity + 1) (t.head v) = _
  rcases findFrom_spec h.sound v hhead hfuel with ⟨j, hj, hr, hv, hnewest⟩ | ⟨hnone, hall⟩
  · have hmax : (l.linked v).max? = some j := by
      refine List.max?_eq_some_iff.2 ⟨h.reaches_iff.1 ⟨hr, hv⟩, fun k hk => ?_⟩
      obtain ⟨hkr, hkv⟩ := h.reaches_iff.2 hk
      exact hnewest k hkr hkv
    rw [hj, hmax]
  · have hempty : l.linked v = [] := List.eq_nil_iff_forall_not_mem.2 fun k hk => by
      obtain ⟨hkr, hkv⟩ := h.reaches_iff.2 hk
      exact hall k hkr hkv
    rw [hnone, hempty]
    rfl

theorem Tracks.add [Inhabited α] (h : t.Tracks l) (v : α) :
    (t.add v).2.Tracks (l.append (.add v)) := by
  have hlinked : ∀ i w, i ∈ (l.append (.add v)).linked w ↔ i ∈ l.linked w := fun i w =>
    Ledger.mem_linked_append_add h.rebuilt
  have hle : ∀ i, (∃ w, i ∈ l.linked w) → i ≤ t.last := by
    rintro i ⟨w, hw⟩
    rw [h.last]
    exact (Ledger.le_of_mem_linked hw).2
  obtain ⟨he, hv⟩ := h.sound.extends_add v
  have hsound := h.sound.add v hle
  generalize (t.add v).2 = u at he hv hsound
  have hhead : ∀ w, u.head w = t.head w := fun w => by rw [head, head, he.buckets]
  have hlength : (l.append (.add v)).made.length = l.made.length + 1 := by simp [Ledger.append]
  refine ⟨hsound.mono fun i hi => hi.imp fun w => (hlinked i w).1, ?_, ?_, ?_, ?_, ?_⟩
  · rw [he.last, hlength, h.last]
  · rw [hlength]
    exact Nat.le_succ_of_le h.rebuilt
  · rw [he.buckets]
    exact h.buckets
  · intro c i hc
    rcases Ledger.mem_zipIdx_append.1 hc with hc | ⟨rfl, rfl⟩
    · have hi := (Ledger.bounds_of_mem hc).2
      rw [he.values i (by rw [h.last]; exact hi)]
      exact h.values c i hc
    · rw [Ledger.fresh, ← h.last]
      exact hv
  · intro w i hi
    have hdown : Descends u.links t.last := fun i j h0 hi hj =>
      h.sound.chained.links i j h0 hi (by rwa [← he.links i hi])
    rw [hhead] at hi
    have hback := hi.congr hdown (h.sound.chained.head_le w) fun k _ hk => (he.links k hk).symm
    exact (h.only w i hback).imp fun x hx => (hlinked i x).2 hx

/-- A cell that `put` makes is an added one that is linked at once. -/
theorem Tracks.link_add [Inhabited α] (h : t.Tracks l) (v : α) :
    ((t.add v).2.link (bucketOf t.buckets.size v) (t.last + 1)).Tracks (l.append (.put v)) := by
  have hsound := h.sound.link_add v
  have hadd := h.add v
  obtain ⟨he, hv⟩ := h.sound.extends_add v
  generalize (t.add v).2 = u at hsound hadd he hv
  have hfresh : l.fresh = t.last + 1 := by rw [Ledger.fresh, h.last]
  have hlength : (l.append (.put v)).made.length = (l.append (.add v)).made.length := by
    simp [Ledger.append]
  refine ⟨hsound.mono ?_, hadd.last.trans hlength.symm, hlength ▸ hadd.rebuilt, ?_, ?_, ?_⟩
  · rintro i ⟨w, hw⟩
    rw [Ledger.mem_linked_append_put, hfresh] at hw
    exact hw.imp (fun hw => ⟨w, hw⟩) And.right
  · exact (Array.size_setIfInBounds ..).trans hadd.buckets
  · intro c i hc
    rcases Ledger.mem_zipIdx_append.1 hc with hc | ⟨rfl, rfl⟩
    · exact hadd.values c i (Ledger.mem_zipIdx_append.2 (.inl hc))
    · rw [hfresh]
      exact hv
  · intro w i hi
    have hold := h.sound.chained.congr he.buckets (fun i _ hi => he.links i hi)
      fun i _ hi => he.values i hi
    have hroom := he.room
    have hsizes := he.sizes
    rw [← he.buckets] at hi
    rcases hold.reaches_of_link (by omega) hi with rfl | hi
    · exact ⟨v, Ledger.mem_linked_append_put.2 (.inr ⟨rfl, hfresh.symm⟩)⟩
    · refine (hadd.only w i hi).imp fun x hx => ?_
      rw [Ledger.mem_linked_append_add h.rebuilt] at hx
      exact Ledger.mem_linked_append_put.2 (.inl hx)

theorem Tracks.balance (h : t.Tracks l) : t.balance.Tracks l.balance := by
  unfold Table.balance Ledger.balance
  rw [h.buckets, h.last, Nat.pow_eq]
  by_cases hdue : 4 * l.buckets < l.made.length ∧ l.buckets < 2 ^ 24
  · have hsome := h.sound.someBucket
    rw [h.buckets] at hsome
    obtain ⟨hs, hlast, hv, hb⟩ := rehash_spec (n := 2 * l.buckets) h.sound.sizes h.sound.room
      (by omega) (by omega)
    rw [if_pos hdue, if_pos hdue]
    refine ⟨hs.mono fun _ _ => trivial, hlast.trans h.last, Nat.le_refl _, hb, ?_, ?_⟩
    · intro c i hc
      rw [hv]
      exact h.values c i hc
    · intro v i hi
      have hle := hi.le hs.chained.links (hs.chained.head_le v)
      have hhead := hs.chained.head_le v
      rw [hlast, h.last] at hhead
      exact Ledger.exists_mem_linked (Nat.le_refl _) hle.1 (Nat.le_trans hle.2 hhead)
  · rw [if_neg hdue, if_neg hdue]
    exact h

/-- A call gives the answer of the ledger, and the table goes on as the ledger does. -/
theorem Tracks.step [Inhabited α] (h : t.Tracks l) (c : Call α) :
    ∃ u, c.run t = .ok ((l.step c).1, u) ∧ u.Tracks (l.step c).2 := by
  cases c with
  | add v =>
    refine ⟨(t.add v).2, ?_, h.add v⟩
    have hi : (t.add v).1 = l.fresh := by
      rw [Ledger.fresh, ← h.last]
      exact index_add t v
    simp only [Call.run, Ledger.step, ← hi]
  | put v =>
    have hfind := h.find?_eq v
    cases hmax : (l.linked v).max? with
    | some i =>
      rw [hmax] at hfind
      rw [Ledger.step_put_of_some hmax]
      refine ⟨t, ?_, h⟩
      simp only [Call.run, put, hfind]
      rfl
    | none =>
      rw [hmax] at hfind
      rw [Ledger.step_put_of_none hmax]
      refine ⟨_, ?_, (h.link_add v).balance⟩
      simp only [Call.run, put, hfind, Ledger.fresh, ← h.last]
      exact congrArg Except.ok (insertNew_eq t v)

/-- By induction, so do any number of calls. -/
theorem Tracks.run [Inhabited α] (h : t.Tracks l) (cs : List (Call α)) :
    ∃ u, t.run cs = .ok ((l.run cs).1, u) ∧ u.Tracks (l.run cs).2 := by
  induction cs generalizing t l with
  | nil => exact ⟨t, rfl, h⟩
  | cons c cs ih =>
    obtain ⟨t', hc, ht'⟩ := h.step c
    obtain ⟨u, hcs, hu⟩ := ih ht'
    refine ⟨u, ?_, hu⟩
    simp only [Table.run, hc, bind, Except.bind, hcs]
    rfl

theorem exists_new [Inhabited α] {bits : Nat} (hbits : bits ≤ 31) :
    ∃ t : Table α, new bits = .ok t ∧ t.Tracks (Ledger.blank bits) := by
  have hpos : 0 < 2 ^ min bits 16 := Nat.two_pow_pos _
  have hle : 2 ^ min bits 16 ≤ 2 ^ 16 := Nat.pow_le_pow_right (by omega) (Nat.min_le_right ..)
  have hheads : ∀ b i : Nat, (Array.replicate (2 ^ min bits 16) 0)[b]? = some i → i = 0 := by
    intro b i hi
    rw [Array.getElem?_replicate] at hi
    split_ifs at hi
    exact (Option.some.inj hi).symm
  refine ⟨_, by rw [new, if_pos hbits],
    ⟨⟨?_, ?_, ?_, ?_, ?_, ?_, ?_⟩, rfl, Nat.le_refl _, ?_, ?_, ?_⟩⟩
  · simp
  · rw [Array.size_replicate]
    exact Nat.two_pow_pos bits
  · rwa [Array.size_replicate]
  · rw [Array.size_replicate]
    exact Nat.lt_of_le_of_lt hle (by decide)
  · intro b i hi
    exact Nat.le_of_eq (hheads b i hi)
  · intro i j h0 hi
    exact absurd hi (Nat.not_le.2 h0)
  · intro i v h0 hi
    exact absurd hi (Nat.not_le.2 h0)
  · simp [Ledger.blank]
  · intro c i hc
    simp [Ledger.blank] at hc
  · intro v i hi
    have hhead : head ⟨Array.replicate (Nat.pow 2 bits) default, Array.replicate (Nat.pow 2 bits) 0,
        Array.replicate (Nat.pow 2 (min bits 16)) 0, 0⟩ v = 0 := by
      unfold head
      cases hb : (Array.replicate (Nat.pow 2 (min bits 16)) 0)[bucketOf _ v]? with
      | none => rfl
      | some k => exact hheads _ k hb
    rw [hhead] at hi
    cases hi with
    | here used => exact absurd rfl used
    | next used => exact absurd rfl used

theorem Tracks.value_kept [Inhabited α] (h : t.Tracks l) (cs : List (Call α)) {is : List Nat}
    (hu : t.run cs = .ok (is, u)) (hi : i ≤ t.size) : u.value i = t.value i := by
  obtain ⟨u', hu', htracks⟩ := h.run cs
  obtain rfl : u = u' := congrArg Prod.snd (Except.ok.inj (hu.symm.trans hu'))
  rcases Nat.eq_zero_or_pos i with rfl | h0
  · rfl
  have hle : i ≤ l.made.length := by rwa [← h.last]
  have hc : (l.made[i - 1], i) ∈ l.made.zipIdx 1 :=
    List.mem_zipIdx_iff_le_and_getElem?_sub.2 ⟨h0, List.getElem?_eq_getElem (by omega)⟩
  obtain ⟨rest, hrest⟩ := l.made_prefix_run cs
  have hc' : (l.made[i - 1], i) ∈ (l.run cs).2.made.zipIdx 1 := by
    rw [← hrest, List.zipIdx_append]
    exact List.mem_append_left _ hc
  have hne : i ≠ 0 := by omega
  exact (read_eq hne (htracks.values _ _ hc')).trans (read_eq hne (h.values _ _ hc)).symm

/-- After any calls on a new table, with any slots, the indices are 1, 2, 3 and so on in the order
of creation, each cell holds the value that it was made for and keeps it, and `add` gives a fresh
index. No value is put into two cells, and `put` answers with the newest linked cell. This is the
one that `put` made, or a fresh one if there is none, exactly if each cell that `add` made for the
value before the last rebuilding is older than one that `put` made. -/
theorem put_of_calls [Inhabited α] {bits : Nat} (hbits : bits ≤ 31) (cs : List (Call α)) (v : α) :
    ∃ (t u : Table α) (l : Ledger α) (is : List Nat), new bits = .ok t ∧
      (Ledger.blank bits).run cs = (is, l) ∧ t.run cs = .ok (is, u) ∧ u.size = l.made.length ∧
      (∀ c i, (c, i) ∈ l.made.zipIdx 1 → u.value i = .ok c.value) ∧
      (∀ more is' u', u.run more = .ok (is', u') → ∀ i ≤ u.size, u'.value i = u.value i) ∧
      (u.add v).1 = u.size + 1 ∧ l.Single ∧ (∃ u', u.put v = .ok (l.answer v, u')) ∧
      (l.answer v = l.promised v ↔ ∀ i ∈ l.adopted v, ∃ j ∈ l.owned v, i < j) := by
  obtain ⟨t, ht, hblank⟩ := exists_new (α := α) hbits
  obtain ⟨u, hu, htracks⟩ := hblank.run cs
  have hsingle : (Ledger.blank bits : Ledger α).Single := by simp [Ledger.Single, Ledger.owned,
    Ledger.select, Ledger.blank]
  refine ⟨t, u, _, _, ht, rfl, hu, htracks.last, fun c i hc => ?_, fun more is' u' hu' i hi =>
    htracks.value_kept more hu' hi, index_add u v, hsingle.run cs, ?_,
    Ledger.answer_eq_promised_iff⟩
  · have h0 := (Ledger.bounds_of_mem hc).1
    exact read_eq (by omega) (htracks.values c i hc)
  · obtain ⟨u', hu', -⟩ := htracks.step (.put v)
    rw [Ledger.step_put_fst] at hu'
    exact ⟨u', hu'⟩

/-- Before the first rebuilding, `put` passes over a newer cell that `add` made. -/
theorem put_of_calls_first : ∃ t u : Table (UInt64 × UInt64), new 2 = .ok t ∧
    t.run [.put (5, 0), .add (5, 0), .put (6, 0)] = .ok ([1, 2, 3], u) ∧ u.size = 3 ∧
      u.value 2 = .ok (5, 0) ∧ (u.add (5, 0)).1 = 4 ∧ ∃ u', u.put (5, 0) = .ok (1, u') := by
  obtain ⟨t, u, l, is, ht, hl, hu, hsize, hvalues, -, hadd, -, hput, -⟩ :=
    put_of_calls (by decide : 2 ≤ 31) [.put (5, 0), .add (5, 0), .put (6, 0)]
      ((5, 0) : UInt64 × UInt64)
  have hrun : (Ledger.blank 2).run [.put ((5, 0) : UInt64 × UInt64), .add (5, 0), .put (6, 0)] =
      ([1, 2, 3], ⟨[.put (5, 0), .add (5, 0), .put (6, 0)], 0, 4⟩) := by
    decide +kernel
  obtain ⟨rfl, rfl⟩ := Prod.mk.inj (hrun.symm.trans hl)
  exact ⟨t, u, ht, hu, hsize, hvalues (.add (5, 0)) 2 (by decide), hadd.trans (by rw [hsize]; rfl),
    hput⟩

/-- A cell made by `add` that a rebuilding has linked, with no other cell of its value. -/
def strayCalls : List (Call (UInt64 × UInt64)) :=
  [.add (7, 7), .put (0, 0), .put (1, 1), .put (2, 0), .put (3, 1)]

/-- A cell made by `add` that a rebuilding has linked, newer than the one that `put` made. -/
def shadowedCalls : List (Call (UInt64 × UInt64)) :=
  [.put (7, 7), .add (7, 7), .put (0, 0), .put (1, 1), .put (2, 0)]

/-- After a rebuilding `put` finds cells that it did not make. -/
theorem put_finds_added :
    (new 0 >>= fun t => t.run (strayCalls ++ [.put (7, 7)])).map Prod.fst =
        .ok [1, 2, 3, 4, 5, 1] ∧
      ((Ledger.blank 0).run strayCalls).2.promised (7, 7) = 6 ∧
    (new 0 >>= fun t => t.run (shadowedCalls ++ [.put (7, 7)])).map Prod.fst =
        .ok [1, 2, 3, 4, 5, 2] ∧
      ((Ledger.blank 0).run shadowedCalls).2.promised (7, 7) = 1 := by
  decide +kernel

end Tracks
end SymbolicAutomata.Table
