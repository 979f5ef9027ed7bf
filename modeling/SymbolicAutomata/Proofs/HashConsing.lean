import SymbolicAutomata.Table
import Mathlib.Algebra.Group.Nat.Defs
import Mathlib.Tactic.Common
/-!
# Hash-consing keeps equal values in one cell

Links lead from newer cells to older ones, so a chain ends, and every linked cell is on the chain of
its value. Growth and rebuilding keep both facts. A search therefore ends, and it finds the cell of
an equal linked value if there is one.
-/
namespace SymbolicAutomata.Table

variable {α : Type}

theorem read_eq {β : Type} {xs : Array β} {i : Nat} {x : β} (hi : i ≠ 0)
    (h : xs[i]? = some x) : read xs i = .ok x := by
  simp [read, hi, h]

inductive Reaches (links : Array Nat) : Nat → Nat → Prop
  | here {i : Nat} (used : i ≠ 0) : Reaches links i i
  | next {i j k : Nat} (used : i ≠ 0) (link : links[i]? = some k) (rest : Reaches links k j) :
      Reaches links i j

/-- The links of the first `n` cells lead to older cells. -/
def Descends (links : Array Nat) (n : Nat) : Prop :=
  ∀ i j, 0 < i → i ≤ n → links[i]? = some j → j < i

theorem Reaches.le {links : Array Nat} {n i j : Nat} (h : Reaches links i j)
    (hd : Descends links n) (hi : i ≤ n) : 0 < j ∧ j ≤ i := by
  induction h with
  | here used => omega
  | @next i j k used link rest ih =>
    have hk := hd i k (by omega) hi link
    have := ih (by omega)
    omega

theorem Reaches.congr {links links' : Array Nat} {n i j : Nat} (h : Reaches links i j)
    (hd : Descends links n) (hi : i ≤ n)
    (heq : ∀ l, 0 < l → l ≤ n → links'[l]? = links[l]?) : Reaches links' i j := by
  induction h with
  | here used => exact .here used
  | @next i j k used link rest ih =>
    have hk := hd i k (by omega) hi link
    exact .next used ((heq i (by omega) hi).trans link) (ih (by omega))

theorem cells_alloc_new [Inhabited α] {bits i : Nat} {t : Table α} (h : new bits = .ok t)
    (hi : i ≤ 1) : t.alloc.values[i]? = some default := by
  unfold new at h
  split_ifs at h
  cases h
  have hcells : 0 < 2 ^ bits := Nat.two_pow_pos _
  simp only [alloc, Array.size_replicate, Nat.pow_eq, Nat.zero_add]
  split_ifs with hfree
  · rw [Array.getElem?_replicate, if_pos (by omega)]
  · rw [Array.replicate_append_replicate, Array.getElem?_replicate, if_pos (by omega)]

section Chains

variable [Slotted α]

def head (t : Table α) (v : α) : Nat := t.buckets[bucketOf t.buckets.size v]?.getD 0

/-- The chains of the first `n` cells, on which all linked ones are. -/
structure Chained (t : Table α) (n : Nat) (linked : Nat → Prop) : Prop where
  heads : ∀ b i : Nat, t.buckets[b]? = some i → i ≤ n
  links : Descends t.links n
  reached : ∀ (i : Nat) (v : α), 0 < i → i ≤ n → linked i → t.values[i]? = some v →
    Reaches t.links (t.head v) i

structure Sound (t : Table α) (linked : Nat → Prop) : Prop where
  sizes : t.links.size = t.values.size
  room : t.last < t.values.size
  someBucket : 0 < t.buckets.size
  fewBuckets : t.buckets.size < 2 ^ 25
  chained : t.Chained t.last linked

theorem Sound.mono {t : Table α} {linked linked' : Nat → Prop} (h : t.Sound linked)
    (hle : ∀ i, linked' i → linked i) : t.Sound linked' where
  sizes := h.sizes
  room := h.room
  someBucket := h.someBucket
  fewBuckets := h.fewBuckets
  chained := ⟨h.chained.heads, h.chained.links, fun i v h0 hi hl hv =>
    h.chained.reached i v h0 hi (hle i hl) hv⟩

theorem bucketOf_lt {n : Nat} (v : α) (h : 0 < n) (hn : n < 2 ^ 25) : bucketOf n v < n := by
  have hm : n % 2 ^ 64 = n := Nat.mod_eq_of_lt (by omega)
  simp only [bucketOf, UInt64.toNat_mod, UInt64.toNat_ofNat', hm]
  exact Nat.mod_lt _ h

theorem Chained.head_le {t : Table α} {n : Nat} {linked : Nat → Prop} (h : t.Chained n linked)
    (v : α) : t.head v ≤ n := by
  unfold head
  cases hb : t.buckets[bucketOf t.buckets.size v]? with
  | none => simp
  | some i => simpa using h.heads _ i hb

theorem Chained.congr {t u : Table α} {n : Nat} {linked : Nat → Prop} (h : t.Chained n linked)
    (hb : u.buckets = t.buckets) (hl : ∀ i, 0 < i → i ≤ n → u.links[i]? = t.links[i]?)
    (hv : ∀ i, 0 < i → i ≤ n → u.values[i]? = t.values[i]?) : u.Chained n linked where
  heads b i hi := h.heads b i (by rwa [← hb])
  links i j hi hn hj := h.links i j hi hn (by rwa [← hl i hi hn])
  reached i v hi hn hp hj := by
    have hr := h.reached i v hi hn hp (by rwa [← hv i hi hn])
    have he : u.head v = t.head v := by rw [head, head, hb]
    rw [he]
    exact hr.congr h.links (h.head_le v) hl

/-- A new cell that leads nowhere and is not linked leaves the chains as they are. -/
theorem Chained.grow {t : Table α} {n : Nat} {linked : Nat → Prop} (h : t.Chained n linked)
    (hlinked : ∀ i, linked i → i ≤ n) (hnew : t.links[n + 1]? = some 0) :
    t.Chained (n + 1) linked where
  heads b i hi := Nat.le_succ_of_le (h.heads b i hi)
  links i j h0 hi hj := by
    rcases Nat.lt_or_ge n i with hlt | hle
    · obtain rfl : i = n + 1 := by omega
      obtain rfl := Option.some.inj (hnew.symm.trans hj)
      exact h0
    · exact h.links i j h0 hle hj
  reached i v h0 _ hp hv := h.reached i v h0 (hlinked i hp) hp hv

/-- A new cell at the head of its chain leaves the other cells on theirs. -/
theorem Chained.link {t : Table α} {n : Nat} {linked : Nat → Prop} {v : α}
    (h : t.Chained n linked) (hn : n + 1 < t.links.size) (hv : t.values[n + 1]? = some v)
    (hb : bucketOf t.buckets.size v < t.buckets.size) :
    (t.link (bucketOf t.buckets.size v) (n + 1)).Chained (n + 1)
      (fun i => linked i ∨ i = n + 1) := by
  have hold : ∀ i, 0 < i → i ≤ n →
      (t.links.setIfInBounds (n + 1) (t.head v))[i]? = t.links[i]? := by
    intro i _ hi
    rw [Array.getElem?_setIfInBounds_ne (by omega)]
  have hnew : (t.links.setIfInBounds (n + 1) (t.head v))[n + 1]? = some (t.head v) := by
    rw [Array.getElem?_setIfInBounds_self_of_lt hn]
  refine ⟨?_, ?_, ?_⟩
  · intro b i hi
    change (t.buckets.setIfInBounds _ (n + 1))[b]? = some i at hi
    rw [Array.getElem?_setIfInBounds] at hi
    split_ifs at hi
    · simp at hi
      omega
    · have := h.heads b i hi
      omega
  · intro i j hi hin hj
    change (t.links.setIfInBounds (n + 1) (t.head v))[i]? = some j at hj
    rcases Nat.lt_or_ge n i with hlt | hle
    · obtain rfl : i = n + 1 := by omega
      rw [hnew] at hj
      have := h.head_le v
      simp at hj
      omega
    · exact h.links i j hi hle (by rwa [← hold i hi hle])
  · intro i w hi hin hp hw
    change t.values[i]? = some w at hw
    change Reaches (t.links.setIfInBounds (n + 1) (t.head v))
      ((t.buckets.setIfInBounds _ (n + 1))[bucketOf
        (t.buckets.setIfInBounds _ (n + 1)).size w]?.getD 0) i
    rw [Array.size_setIfInBounds, Array.getElem?_setIfInBounds]
    rcases Nat.lt_or_ge n i with hlt | hle
    · -- the new cell heads the chain of its own value
      obtain rfl : i = n + 1 := by omega
      obtain rfl : v = w := Option.some.inj (hv.symm.trans hw)
      simp only [↓reduceIte, hb, Option.getD_some]
      exact .here (by omega)
    · have hr := h.reached i w hi hle (hp.resolve_right (by omega)) hw
      have hr' := hr.congr h.links (h.head_le w) hold
      split_ifs with hbw
      · -- an older cell of the same chain comes after the new one
        have he : t.head w = t.head v := by rw [head, head, hbw]
        rw [he] at hr'
        change Reaches _ (n + 1) i
        exact .next (by omega) hnew hr'
      · exact hr'

/-- A new cell at the head of its chain makes no other cell reachable. -/
theorem Chained.reaches_of_link {t : Table α} {n i : Nat} {linked : Nat → Prop} {v w : α}
    (h : t.Chained n linked) (hn : n + 1 < t.links.size)
    (hr : Reaches (t.link (bucketOf t.buckets.size v) (n + 1)).links
      ((t.link (bucketOf t.buckets.size v) (n + 1)).head w) i) :
    i = n + 1 ∨ Reaches t.links (t.head w) i := by
  change Reaches (t.links.setIfInBounds (n + 1) (t.head v))
    ((t.buckets.setIfInBounds _ (n + 1))[bucketOf
      (t.buckets.setIfInBounds _ (n + 1)).size w]?.getD 0) i at hr
  have hold : ∀ k, 0 < k → k ≤ n →
      (t.links.setIfInBounds (n + 1) (t.head v))[k]? = t.links[k]? := by
    intro k _ hk
    rw [Array.getElem?_setIfInBounds_ne (by omega)]
  have hback : ∀ x, Reaches (t.links.setIfInBounds (n + 1) (t.head v)) (t.head x) i →
      Reaches t.links (t.head x) i := by
    intro x hx
    refine hx.congr (n := n) (fun k j h0 hk hj => ?_) (h.head_le x) fun k h0 hk =>
      (hold k h0 hk).symm
    exact h.links k j h0 hk (by rwa [← hold k h0 hk])
  rw [Array.size_setIfInBounds, Array.getElem?_setIfInBounds] at hr
  split_ifs at hr with hbw hlt
  · -- the chain now starts at the new cell and goes on as before
    have he : t.head w = t.head v := by rw [head, head, hbw]
    cases hr with
    | here used => exact .inl rfl
    | next used link rest =>
      rw [Option.getD_some, Array.getElem?_setIfInBounds_self_of_lt hn] at link
      obtain rfl := Option.some.inj link
      rw [he]
      exact .inr (hback v rest)
  · cases hr with
    | here used => exact absurd rfl used
    | next used => exact absurd rfl used
  · exact .inr (hback w hr)

/-- The chains of a table after the first `k` rounds of a rebuilding over `n` buckets. -/
def relinked (t : Table α) (n k : Nat) : Table α :=
  (List.range' 1 k).foldl
    (fun u i =>
      match u.values[i]? with
      | some v => u.link (bucketOf n v) i
      | none => u)
    ⟨t.values, t.links, Array.replicate n 0, t.last⟩

theorem relinked_succ (t : Table α) (n k : Nat) :
    t.relinked n (k + 1) = match (t.relinked n k).values[k + 1]? with
      | some v => (t.relinked n k).link (bucketOf n v) (k + 1)
      | none => t.relinked n k := by
  rw [relinked, List.range'_1_concat, List.foldl_append, Nat.add_comm 1 k]
  rfl

/-- Each round links one more cell. -/
theorem relinked_spec {t : Table α} {n : Nat} (hs : t.links.size = t.values.size)
    (hr : t.last < t.values.size) (h0 : 0 < n) (hn : n < 2 ^ 25) {k : Nat} (hk : k ≤ t.last) :
    (t.relinked n k).Chained k (fun _ => True) ∧ (t.relinked n k).values = t.values ∧
      (t.relinked n k).links.size = t.links.size ∧ (t.relinked n k).buckets.size = n ∧
      (t.relinked n k).last = t.last := by
  induction k with
  | zero =>
    refine ⟨⟨?_, ?_, ?_⟩, rfl, rfl, by simp [relinked], rfl⟩
    · intro b i hi
      simp only [relinked, List.range'_zero, List.foldl_nil, Array.getElem?_replicate] at hi
      split_ifs at hi
      simp at hi
      omega
    · intro i j hi hi'
      omega
    · intro i v hi hi'
      omega
  | succ k ih =>
    obtain ⟨hc, hv, hl, hb, hlast⟩ := ih (by omega)
    have hk' : k + 1 < (t.relinked n k).values.size := by rw [hv]; omega
    obtain ⟨v, hv'⟩ : ∃ v, (t.relinked n k).values[k + 1]? = some v :=
      ⟨_, Array.getElem?_eq_getElem hk'⟩
    have hlt : bucketOf (t.relinked n k).buckets.size v < (t.relinked n k).buckets.size := by
      rw [hb]
      exact bucketOf_lt v h0 hn
    have hlink := hc.link (by omega) hv' hlt
    rw [hb] at hlink
    simp only [relinked_succ, hv']
    refine ⟨⟨hlink.heads, hlink.links, fun i w hi hin _ hw => ?_⟩, hv, ?_, ?_, hlast⟩
    · exact hlink.reached i w hi hin (.inl trivial) hw
    · simpa [link] using hl
    · simpa [link] using hb

/-- A rebuilding links every cell. -/
theorem rehash_spec {t : Table α} {n : Nat} (hs : t.links.size = t.values.size)
    (hr : t.last < t.values.size) (h0 : 0 < n) (hn : n < 2 ^ 25) :
    (t.rehash n).Sound (fun _ => True) ∧ (t.rehash n).last = t.last ∧
      (t.rehash n).values = t.values ∧ (t.rehash n).buckets.size = n := by
  obtain ⟨hc, hv, hl, hb, hlast⟩ := relinked_spec hs hr h0 hn (Nat.le_refl _)
  change (t.relinked n t.last).Sound _ ∧ (t.relinked n t.last).last = _ ∧
    (t.relinked n t.last).values = _ ∧ (t.relinked n t.last).buckets.size = n
  refine ⟨⟨?_, ?_, ?_, ?_, ?_⟩, hlast, hv, hb⟩
  · exact (hl.trans hs).trans (congrArg Array.size hv.symm)
  · rw [hlast, hv]
    exact hr
  · rwa [hb]
  · rwa [hb]
  · rwa [hlast]

theorem balance_spec {t : Table α} {linked : Nat → Prop} (h : t.Sound linked) :
    t.balance.Sound linked ∧ t.balance.last = t.last ∧ t.balance.values = t.values := by
  unfold balance
  split_ifs with hb
  · have hfew : 2 * t.buckets.size < 2 ^ 25 := by
      have := hb.2
      simp only [Nat.pow_eq] at this
      omega
    have hsome : 0 < 2 * t.buckets.size := by have := h.someBucket; omega
    obtain ⟨hs, hlast, hv, -⟩ := rehash_spec h.sizes h.room hsome hfew
    exact ⟨hs.mono fun _ _ => trivial, hlast, hv⟩
  · exact ⟨h, rfl, rfl⟩

section Insertion

variable [Inhabited α]

/-- One more cell is occupied; the others and the chains stay as they are. -/
structure Extends (t u : Table α) : Prop where
  last : u.last = t.last + 1
  buckets : u.buckets = t.buckets
  sizes : u.links.size = u.values.size
  room : t.last + 1 < u.values.size
  values : ∀ i ≤ t.last, u.values[i]? = t.values[i]?
  links : ∀ i ≤ t.last, u.links[i]? = t.links[i]?

theorem Sound.extends_alloc {t : Table α} {linked : Nat → Prop} (h : t.Sound linked) :
    t.Extends t.alloc := by
  have hsizes := h.sizes
  have hroom := h.room
  rcases t with ⟨values, links, buckets, last⟩
  simp only at hsizes hroom
  by_cases hfree : last + 1 < values.size
  · simp only [alloc, hfree, ↓reduceIte]
    exact ⟨rfl, rfl, hsizes, hfree, fun _ _ => rfl, fun _ _ => rfl⟩
  · simp only [alloc, hfree, ↓reduceIte]
    refine ⟨rfl, rfl, ?_, ?_, fun i hi => ?_, fun i hi => ?_⟩
    · simp [hsizes]
    · simp only [Array.size_append, Array.size_replicate]
      omega
    · exact Array.getElem?_append_left (by simp only at hi; omega)
    · exact Array.getElem?_append_left (by simp only at hi; omega)

theorem Sound.extends_add {t : Table α} {linked : Nat → Prop} (h : t.Sound linked) (v : α) :
    t.Extends (t.add v).2 ∧ (t.add v).2.values[t.last + 1]? = some v := by
  have he := h.extends_alloc
  unfold add
  generalize t.alloc = u at he
  rcases u with ⟨values, links, buckets, last⟩
  obtain ⟨hlast, hb, hs, hr, hv, hl⟩ := he
  simp only at hlast hb hs hr hv hl
  subst hlast
  refine ⟨⟨rfl, hb, by simpa using hs, by simpa using hr, fun i hi => ?_, fun i hi => ?_⟩, ?_⟩
  · simp only
    rw [Array.getElem?_setIfInBounds_ne (by omega), hv i hi]
  · simp only
    rw [Array.getElem?_setIfInBounds_ne (by omega), hl i hi]
  · exact Array.getElem?_setIfInBounds_self_of_lt hr

theorem Sound.links_add {t : Table α} {linked : Nat → Prop} (h : t.Sound linked) (v : α) :
    (t.add v).2.links[t.last + 1]? = some 0 := by
  have he := h.extends_alloc
  unfold add
  generalize t.alloc = u at he
  rcases u with ⟨values, links, buckets, last⟩
  obtain ⟨hlast, -, hs, hr, -, -⟩ := he
  simp only at hlast hs hr
  subst hlast
  exact Array.getElem?_setIfInBounds_self_of_lt (by omega)

/-- An added cell need not be linked. -/
theorem Sound.add {t : Table α} {linked : Nat → Prop} (h : t.Sound linked) (v : α)
    (hlinked : ∀ i, linked i → i ≤ t.last) : (t.add v).2.Sound linked := by
  obtain ⟨he, -⟩ := h.extends_add v
  have hnew := h.links_add v
  generalize (t.add v).2 = u at he hnew
  have hold : u.Chained t.last linked :=
    h.chained.congr he.buckets (fun i _ hi => he.links i hi) (fun i _ hi => he.values i hi)
  constructor
  · exact he.sizes
  · rw [he.last]
    exact he.room
  · rw [he.buckets]
    exact h.someBucket
  · rw [he.buckets]
    exact h.fewBuckets
  · rw [he.last]
    exact hold.grow hlinked hnew

theorem Sound.link_add {t : Table α} {linked : Nat → Prop} (h : t.Sound linked) (v : α) :
    ((t.add v).2.link (bucketOf t.buckets.size v) (t.last + 1)).Sound
      (fun i => linked i ∨ i = t.last + 1) := by
  obtain ⟨he, hv⟩ := h.extends_add v
  generalize (t.add v).2 = u at he hv
  have hlt := bucketOf_lt v h.someBucket h.fewBuckets
  have hroom := he.room
  have hsizes := he.sizes
  have hold : u.Chained t.last linked :=
    h.chained.congr he.buckets (fun i _ hi => he.links i hi) (fun i _ hi => he.values i hi)
  have hlink := hold.link (by omega) hv (by rwa [he.buckets])
  rw [he.buckets] at hlink
  refine ⟨?_, ?_, ?_, ?_, ?_⟩
  · simpa [link] using hsizes
  · change u.last < u.values.size
    rw [he.last]
    exact hroom
  · simpa [link, he.buckets] using h.someBucket
  · simpa [link, he.buckets] using h.fewBuckets
  · change Chained _ u.last _
    rw [he.last]
    exact hlink

theorem insertNew_eq (t : Table α) (v : α) : t.insertNew v =
    (t.last + 1, ((t.add v).2.link (bucketOf t.buckets.size v) (t.last + 1)).balance) := by
  have hi : (t.add v).1 = t.last + 1 := index_add t v
  unfold insertNew
  generalize t.add v = r at hi
  obtain ⟨i, u⟩ := r
  simp only at hi
  subst hi
  rfl

/-- A new value gets the next cell, on its chain, and nothing else moves. -/
theorem insertNew_spec {t : Table α} {linked : Nat → Prop} (h : t.Sound linked) (v : α) :
    (t.insertNew v).1 = t.last + 1 ∧
      (t.insertNew v).2.Sound (fun i => linked i ∨ i = t.last + 1) ∧
      (t.insertNew v).2.last = t.last + 1 ∧
      (t.insertNew v).2.values[t.last + 1]? = some v ∧
      ∀ i ≤ t.last, (t.insertNew v).2.values[i]? = t.values[i]? := by
  obtain ⟨he, hv⟩ := h.extends_add v
  obtain ⟨hs, hlast, hvals⟩ := balance_spec (h.link_add v)
  rw [insertNew_eq]
  refine ⟨rfl, hs, hlast.trans he.last, ?_, fun i hi => ?_⟩
  · simp only [hvals]
    exact hv
  · simp only [hvals]
    exact he.values i hi

theorem sound_alloc_new {bits : Nat} {t : Table α} (h : new bits = .ok t) :
    t.alloc.Sound (2 ≤ ·) ∧ t.alloc.last = 1 ∧ t.alloc.values[1]? = some default := by
  unfold new at h
  split_ifs at h with hbits
  cases h
  have hpos : 0 < 2 ^ min bits 16 := Nat.two_pow_pos _
  have hle : 2 ^ min bits 16 ≤ 2 ^ 16 := Nat.pow_le_pow_right (by omega) (Nat.min_le_right _ _)
  have hcells : 0 < 2 ^ bits := Nat.two_pow_pos _
  have hheads : ∀ b i : Nat, (Array.replicate (2 ^ min bits 16) 0)[b]? = some i → i ≤ 1 := by
    intro b i hi
    rw [Array.getElem?_replicate] at hi
    split_ifs at hi
    simp at hi
    omega
  by_cases hfree : 1 < 2 ^ bits
  · simp only [alloc, Array.size_replicate, Nat.pow_eq, Nat.zero_add, hfree, ↓reduceIte]
    refine ⟨⟨by simp, by simpa using hfree, by rwa [Array.size_replicate], by simp; omega, hheads,
      ?_, ?_⟩, trivial, by simp [hfree]⟩
    · intro i j hi hi1 hj
      rw [Array.getElem?_replicate] at hj
      split_ifs at hj
      simp at hj
      omega
    · intro i v _ hi1 hi2
      simp only at hi1
      omega
  · have hone : 2 ^ bits = 1 := by omega
    simp only [alloc, Array.size_replicate, Nat.pow_eq, hone, Nat.zero_add, Nat.lt_irrefl,
      ↓reduceIte]
    refine ⟨⟨rfl, by simp, by rwa [Array.size_replicate], by simp; omega, hheads, ?_, ?_⟩,
      trivial, rfl⟩
    · intro i j hi hi1 hj
      obtain rfl : i = 1 := by simp only at hi1; omega
      simp at hj
      omega
    · intro i v _ hi1 hi2
      simp only at hi1
      omega

end Insertion

section Search

variable [DecidableEq α]

/-- The search along a chain ends at the first cell that holds the value, which is the newest one of
the chain, or at the chain's end. -/
theorem findFrom_spec {t : Table α} {linked : Nat → Prop} (h : t.Sound linked) (v : α)
    {fuel i : Nat} (hi : i ≤ t.last) (hf : i < fuel) :
    (∃ j, t.findFrom v fuel i = .ok (some j) ∧ Reaches t.links i j ∧ t.values[j]? = some v ∧
        ∀ k, Reaches t.links i k → t.values[k]? = some v → k ≤ j) ∨
      t.findFrom v fuel i = .ok none ∧ ∀ j, Reaches t.links i j → t.values[j]? ≠ some v := by
  induction fuel generalizing i with
  | zero => omega
  | succ fuel ih =>
    have hsizes := h.sizes
    have hroom := h.room
    rcases eq_or_ne i 0 with rfl | h0
    · refine .inr ⟨rfl, fun j hj => ?_⟩
      cases hj with
      | here used => exact absurd rfl used
      | next used => exact absurd rfl used
    obtain ⟨w, hw⟩ : ∃ w, t.values[i]? = some w := ⟨_, Array.getElem?_eq_getElem (by omega)⟩
    obtain ⟨k, hk⟩ : ∃ k, t.links[i]? = some k := ⟨_, Array.getElem?_eq_getElem (by omega)⟩
    have hval : t.value i = .ok w := read_eq h0 hw
    have hnext : t.next i = .ok k := read_eq h0 hk
    have hki := h.chained.links i k (by omega) hi hk
    by_cases hwv : w = v
    · subst hwv
      refine .inl ⟨i, ?_, .here h0, hw, fun k hk _ => (hk.le h.chained.links hi).2⟩
      simp [findFrom, h0, hval, bind, Except.bind, pure, Except.pure]
    · have hstep : t.findFrom v (fuel + 1) i = t.findFrom v fuel k := by
        simp [findFrom, h0, hval, hnext, hwv, bind, Except.bind]
      rw [hstep]
      rcases ih (i := k) (by omega) (by omega) with ⟨j, hj, hr, hjv, hnewest⟩ | ⟨hnone, hall⟩
      · refine .inl ⟨j, hj, .next h0 hk hr, hjv, fun l hl hlv => ?_⟩
        cases hl with
        | here used => simp [hw, hwv] at hlv
        | next used link rest =>
          obtain rfl := Option.some.inj (hk.symm.trans link)
          exact hnewest l rest hlv
      · refine .inr ⟨hnone, fun j hj => ?_⟩
        cases hj with
        | here used => simpa [hw] using hwv
        | next used link rest =>
          obtain rfl := Option.some.inj (hk.symm.trans link)
          exact hall j rest

theorem find?_spec {t : Table α} {linked : Nat → Prop} (h : t.Sound linked) (v : α) :
    (∃ j, t.find? v = .ok (some j) ∧ 0 < j ∧ j ≤ t.last ∧ t.values[j]? = some v) ∨
      t.find? v = .ok none ∧
        ∀ i, 0 < i → i ≤ t.last → linked i → t.values[i]? ≠ some v := by
  have hhead := h.chained.head_le v
  have hroom := h.room
  have hfuel : t.head v < t.capacity + 1 := by unfold capacity; omega
  rcases findFrom_spec h v hhead hfuel with ⟨j, hj, hr, hv, -⟩ | ⟨hnone, hall⟩
  · have hle := hr.le h.chained.links hhead
    exact .inl ⟨j, hj, hle.1, by omega, hv⟩
  · exact .inr ⟨hnone, fun i hi hin hp hv => hall i (h.chained.reached i v hi hin hp hv) hv⟩

end Search

end Chains

end SymbolicAutomata.Table
