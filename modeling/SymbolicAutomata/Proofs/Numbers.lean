import SymbolicAutomata.Encoding
import SymbolicAutomata.Proofs.Quantifiers
import SymbolicAutomata.Proofs.Substitutions
import Mathlib.Data.Nat.Bitwise
import Mathlib.Data.List.Nodup
/-!
# Numbers on domains

An assignment carries a number on each domain. A quantified domain ranges over its numbers, and a
renaming between two domains reads the number of the one from the other.
-/
namespace SymbolicAutomata

open Manager

theorem le_two_pow_bitsNeeded (n : Nat) : n ≤ 2 ^ bitsNeeded n :=
  bitsNeeded_le_iff.1 (Nat.le_refl _)

theorem ascending_toList (vs : Std.TreeSet Nat) : vs.toList.Pairwise (· < ·) :=
  Std.TreeSet.ordered_toList.imp fun h => Nat.compare_eq_lt.1 h

namespace Domain

variable {d e : Domain} {s t : Assignment} {i v : Nat}

def read (d : Domain) (s : Assignment) : Nat := Nat.ofBits fun i : Fin d.len => s (d.base + i)

theorem testBit_read (d : Domain) (s : Assignment) (i : Nat) :
    (d.read s).testBit i = (decide (i < d.len) && s (d.base + i)) := by
  unfold read
  by_cases h : i < d.len
  · simp [h]
  · rw [Nat.testBit_ofBits_ge _ _ (Nat.not_lt.1 h)]
    simp [h]

theorem read_lt (d : Domain) (s : Assignment) : d.read s < 2 ^ d.len := Nat.ofBits_lt_two_pow _

theorem read_eq_iff (hv : v < 2 ^ d.len) :
    d.read s = v ↔ ∀ i < d.len, s (d.base + i) = v.testBit i := by
  constructor
  · rintro rfl i hi
    simp [testBit_read, hi]
  · intro h
    apply Nat.eq_of_testBit_eq
    intro i
    rw [testBit_read]
    by_cases hi : i < d.len
    · simp [hi, h i hi]
    · have hlt : v < 2 ^ i := Nat.lt_of_lt_of_le hv (Nat.pow_le_pow_right (by omega) (by omega))
      simp [hi, Nat.testBit_lt_two_pow hlt]

theorem read_congr (h : ∀ v, d.base ≤ v → v < d.base + d.len → s v = t v) :
    d.read s = d.read t := by
  unfold read
  congr 1
  funext i
  exact h _ (by omega) (by omega)

def write (d : Domain) (v : Nat) (s : Assignment) : Assignment := fun w =>
  if d.base ≤ w ∧ w < d.base + d.len then v.testBit (w - d.base) else s w

theorem read_write (hv : v < 2 ^ d.len) (s : Assignment) : d.read (d.write v s) = v := by
  rw [read_eq_iff hv]
  intro i hi
  simp [write, hi]

theorem write_agreeOff (d : Domain) (v : Nat) (s : Assignment) : AgreeOff d s (d.write v s) := by
  intro w hw
  simp [write, hw]

def Apart (d e : Domain) : Prop :=
  ∀ v, d.base ≤ v → v < d.base + d.len → e.base ≤ v → e.base + e.len ≤ v

theorem Apart.symm (h : d.Apart e) : e.Apart d := by
  intro v h1 h2 h3
  by_contra hlt
  have := h v h3 (by omega) h1
  omega

theorem apart_of_le (h : d.base + d.len ≤ e.base) : d.Apart e := by
  intro v h1 h2 h3
  omega

theorem Apart.read_eq (h : d.Apart e) (hst : AgreeOff e s t) : d.read s = d.read t := by
  apply read_congr
  intro v h1 h2
  apply hst
  have := h v h1 h2
  omega

def Free (d : Domain) (P : Assignment → Prop) : Prop := ∀ s t, AgreeOff d s t → (P s ↔ P t)

theorem exists_agreeOff {G : Nat → Assignment → Prop} (hG : ∀ v, d.Free (G v)) :
    (∃ t, AgreeOff d s t ∧ G (d.read t) t) ↔ ∃ v < 2 ^ d.len, G v s := by
  constructor
  · rintro ⟨t, hst, ht⟩
    exact ⟨d.read t, d.read_lt t, (hG _ s t hst).2 ht⟩
  · rintro ⟨v, hv, hs⟩
    have hst := d.write_agreeOff v s
    refine ⟨d.write v s, hst, ?_⟩
    rw [read_write hv]
    exact (hG v s _ hst).1 hs

theorem low_eq {n : Nat} (h : n ≤ d.len) : d.low n = .ok (d.withLen n) := by simp [low, h]

theorem read_withLen {n : Nat} (h : n ≤ d.len) : (d.withLen n).read s = d.read s % 2 ^ n := by
  apply Nat.eq_of_testBit_eq
  intro i
  rw [testBit_read, Nat.testBit_mod_two_pow, testBit_read, withLen_len, withLen_base]
  by_cases hi : i < n
  · simp [hi, Nat.lt_of_lt_of_le hi h]
  · simp [hi]

/-- A number is its highest bit and the rest. -/
theorem eq_mod_add_top {x n : Nat} (h : x < 2 ^ (n + 1)) :
    x = x % 2 ^ n + if x.testBit n then 2 ^ n else 0 := by
  rw [Nat.testBit_eq_decide_div_mod_eq]
  have hdiv : x / 2 ^ n < 2 := by
    rw [Nat.div_lt_iff_lt_mul (Nat.two_pow_pos n), Nat.mul_comm, ← Nat.pow_succ]
    exact h
  have hsplit := Nat.div_add_mod x (2 ^ n)
  generalize x / 2 ^ n = q at hdiv hsplit ⊢
  rcases (by omega : q = 0 ∨ q = 1) with rfl | rfl
  · simp only [Nat.mul_zero, Nat.zero_add] at hsplit
    simp [hsplit]
  · simp only [Nat.mul_one] at hsplit
    simp
    omega

theorem read_succ {n : Nat} :
    (d.withLen (n + 1)).read s = (d.withLen n).read s + if s (d.base + n) then 2 ^ n else 0 := by
  have hmod := read_withLen (d := d.withLen (n + 1)) (s := s) (Nat.le_succ n)
  have hbit := testBit_read (d.withLen (n + 1)) s n
  simp only [withLen_len, withLen_base, Nat.lt_succ_self, decide_true, Bool.true_and] at hbit
  have htop := eq_mod_add_top ((d.withLen (n + 1)).read_lt s)
  rw [hbit, ← hmod] at htop
  exact htop

/-- The bits from `n` on carry the quotient by `2 ^ n`. -/
theorem read_upper {n : Nat} (hbase : e.base = d.base + n) (hlen : n + e.len = d.len)
    (s : Assignment) : e.read s = d.read s / 2 ^ n := by
  apply Nat.eq_of_testBit_eq
  intro i
  rw [← Nat.shiftRight_eq_div_pow, Nat.testBit_shiftRight, testBit_read, testBit_read, hbase]
  have hiff : i < e.len ↔ n + i < d.len := by omega
  simp only [hiff, Nat.add_assoc]

theorem high_spec {n stop : Nat} (hstop : d.stop = .ok stop) (h : n ≤ d.len) :
    ∃ e : Domain, d.high n = .ok e ∧ e.base = d.base + (d.len - n) ∧ e.len = n ∧
      ∀ s, e.read s = d.read s / 2 ^ (d.len - n) := by
  have hbase := d.base_ne_zero
  obtain rfl := stop_eq hstop
  have hsub : d.base + d.len - n = d.base + (d.len - n) := by omega
  have hsum : d.len - n + n = d.len := by omega
  refine ⟨⟨d.base + (d.len - n), n, by omega⟩, ?_, rfl, rfl, read_upper rfl hsum⟩
  have hle : n ≤ d.base + d.len := by omega
  simp [high, h, hstop, subtract, hle, Domain.new, bind, Except.bind, hsub, hbase]

theorem vars_eq {n : Nat} (h : d.stop = .ok n) : d.vars = .ok (List.range' d.base d.len) := by
  simp [vars, h, bind, Except.bind, pure, Except.pure]

theorem bit_eq (h : d.base + d.len ≤ 2 ^ 32) (hi : i < d.len) : d.bit i = .ok (d.base + i) := by
  simp only [bit, hi, ↓reduceIte]
  exact fits_eq_ok_iff.2 ⟨Nat.lt_of_lt_of_le (by omega) h, rfl⟩

theorem stop_of_le (h : d.base + d.len < 2 ^ 32) : d.stop = .ok (d.base + d.len) :=
  stop_eq_ok_iff.2 ⟨h, rfl⟩

theorem overlaps_eq {n k : Nat} (hd : d.stop = .ok n) (he : e.stop = .ok k)
    [Decidable (d.Apart e)] : d.overlaps e = .ok (!decide (d.Apart e)) := by
  obtain rfl := stop_eq hd
  obtain rfl := stop_eq he
  unfold overlaps
  by_cases hempty : d.len = 0 ∨ e.len = 0
  · have hapart : d.Apart e := by
      intro v h1 h2 h3
      omega
    simp [isEmpty, hempty, hapart]
  · have hiff : d.Apart e ↔ ¬ (d.base < e.base + e.len ∧ e.base < d.base + d.len) := by
      constructor
      · intro h hlt
        have := h (max d.base e.base) (by omega) (by omega) (by omega)
        omega
      · intro h v h1 h2 h3
        omega
    have hne : (d.isEmpty || e.isEmpty) = false := by simp [isEmpty]; omega
    simp only [hne, Bool.false_eq_true, ↓reduceIte, hd, he, bind, Except.bind, pure, Except.pure,
      decide_eq_decide.2 hiff]
    by_cases h1 : d.base < e.base + e.len <;> by_cases h2 : e.base < d.base + d.len <;>
      simp [h1, h2]

end Domain

namespace Bdd

variable {w : Workspace} {d : Domain} {v : Nat}

def Literal.Holds (s : Assignment) (l : Int) : Prop := s l.natAbs = decide (0 < l)

theorem guardLiteral_yields {f : Ref} {F : Assignment → Prop} {l : Int}
    (hw : w.current.WellFormed) (hl : l ≠ 0) (hF : w.current.Denotes f F)
    (habove : w.current.Above l.natAbs f) :
    Yields w (guardLiteral f l) fun r m => m.Denotes r fun s => Literal.Holds s l ∧ F s := by
  have hpos : 0 < l.natAbs := by omega
  unfold guardLiteral Literal.Holds
  split_ifs with hneg
  · have hsign : ¬ 0 < l := by omega
    refine (node_yields hw hpos hF (.zero hw.canonical) habove above_zero).imp
      fun r w' _ hr => hr.congr fun s => ?_
    cases s l.natAbs <;> simp [hsign]
  · have hsign : 0 < l := by omega
    refine (node_yields hw hpos (.zero hw.canonical) hF above_zero habove).imp
      fun r w' _ hr => hr.congr fun s => ?_
    cases s l.natAbs <;> simp [hsign]

/-- A cube of ordered literals is made from the last one up. -/
theorem foldr_guardLiteral_yields {ls : List Int} (hw : w.current.WellFormed)
    (hne : ∀ l ∈ ls, l ≠ 0) (hls : ls.Pairwise (Int.natAbs · < Int.natAbs ·)) :
    Yields w (ls.foldrM (fun l f => guardLiteral f l) .one) fun r m =>
      m.Denotes r fun s => ∀ l ∈ ls, Literal.Holds s l := by
  induction ls generalizing w with
  | nil => exact Runs.pure hw ((Denotes.one hw.canonical).congr fun s => by simp)
  | cons l ls ih =>
    obtain ⟨hl, hls⟩ := List.pairwise_cons.1 hls
    rw [List.foldrM_cons]
    refine .bind (ih hw (fun k hk => hne k (by simp [hk])) hls) fun f w1 hl1 hF => ?_
    have habove : w1.current.Above l.natAbs f := by
      apply hF.above hl1.after.canonical
      intro s t hst hs k hk
      unfold Literal.Holds
      rw [← hst _ (hl k hk)]
      exact hs k hk
    refine (guardLiteral_yields hl1.after (hne l (by simp)) hF habove).imp
      fun r w2 _ hr => hr.congr fun s => ?_
    simp

theorem pairwise_natAbs_lt {ls : List Int} (hle : ls.Pairwise (Int.natAbs · ≤ Int.natAbs ·))
    (hls : (ls.map Int.natAbs).Nodup) : ls.Pairwise (Int.natAbs · < Int.natAbs ·) :=
  (hle.and (List.pairwise_map.1 hls)).imp fun h => by omega

theorem sorted_natAbs {ls : List Int} (hls : (ls.map Int.natAbs).Nodup) :
    (sortByKey Int.natAbs ls).Pairwise (Int.natAbs · < Int.natAbs ·) :=
  pairwise_natAbs_lt (sortByKey_pairwise Int.natAbs ls)
    (((sortByKey_perm Int.natAbs ls).map Int.natAbs).nodup_iff.2 hls)

theorem cube_yields {ls : List Int} (hw : w.current.WellFormed) (hleast : leastWord ∉ ls)
    (hne : ∀ l ∈ ls, l ≠ 0) (hls : (ls.map Int.natAbs).Nodup) :
    Yields w (cube ls) fun r m => m.Denotes r fun s => ∀ l ∈ ls, Literal.Holds s l := by
  unfold cube
  rw [if_neg (by simpa using hleast), List.foldlM_reverse]
  refine (foldr_guardLiteral_yields hw (fun l hl => hne l (mem_sortByKey.1 hl))
    (sorted_natAbs hls)).imp fun r w' _ hr => hr.congr fun s => ?_
  simp only [mem_sortByKey]

theorem mapM_eq_ok {α β : Type} {f : α → Except Failure β} {g : α → β} {xs : List α}
    (h : ∀ x ∈ xs, f x = .ok (g x)) : xs.mapM f = .ok (xs.map g) := by
  induction xs with
  | nil => rfl
  | cons x xs ih =>
    rw [List.mapM_cons, h x (by simp), ih fun y hy => h y (by simp [hy])]
    rfl

def signedLiteral (b : Bool) (v : Nat) : Int := if b then v else -v

theorem natAbs_signedLiteral (b : Bool) (v : Nat) : (signedLiteral b v).natAbs = v := by
  cases b <;> simp [signedLiteral]

theorem holds_signedLiteral {s : Assignment} {b : Bool} {v : Nat} (hv : 0 < v) :
    Literal.Holds s (signedLiteral b v) ↔ s v = b := by
  rw [Literal.Holds, natAbs_signedLiteral]
  have hneg : ¬ (v : Int) < 0 := by omega
  cases b <;> simp [signedLiteral, hv, hneg]

/-- Below `2 ^ 31` a variable and its literals are the same numbers. -/
theorem signLiteral_eq (b : Bool) (hv : v < 2 ^ 31) :
    (if b then .ok (signedWord v) else negateWord (signedWord v) : Except Failure Int) =
      .ok (signedLiteral b v) := by
  have hlt : v < Nat.pow 2 31 := hv
  have hne : (v : Int) ≠ leastWord := by unfold leastWord; omega
  have hword : signedWord v = (v : Int) := by simp only [signedWord, hlt, ↓reduceIte]
  rw [hword]
  cases b <;> simp [negateWord, hne, signedLiteral]

theorem valueLiterals_of {l : Bool → Nat → Int} (hlen : d.len ≤ 64)
    (hl : ∀ b, ∀ x ∈ List.range' d.base d.len, (if b then .ok (signedWord x)
      else negateWord (signedWord x) : Except Failure Int) = .ok (l b x)) :
    valueLiterals v (List.range' d.base d.len) =
      .ok ((List.range d.len).map fun i => l (v.testBit i) (d.base + i)) := by
  have hmap : (List.range d.len).map (fun i => l (v.testBit i) (d.base + i)) =
      (List.range' d.base d.len).zipIdx.map fun p => l (v.testBit p.2) p.1 := by
    apply List.ext_getElem
    · simp
    · intro i h1 h2
      simp
  unfold valueLiterals
  rw [hmap]
  refine mapM_eq_ok fun p hp => ?_
  obtain ⟨x, i⟩ := p
  obtain ⟨-, hi, -⟩ := List.mem_zipIdx hp
  simp only [List.length_range', Nat.zero_add] at hi
  have h64 : i < 64 := by omega
  have hbit : wordBit v i = .ok (v.testBit i) := if_pos h64
  simp only [hbit]
  rw [← hl (v.testBit i) x (List.fst_mem_of_mem_zipIdx hp)]
  cases v.testBit i <;> rfl

theorem valueLiterals_eq (hlen : d.len ≤ 64) (hend : d.base + d.len ≤ 2 ^ 31) :
    valueLiterals v (List.range' d.base d.len) =
      .ok ((List.range d.len).map fun i => signedLiteral (v.testBit i) (d.base + i)) := by
  refine valueLiterals_of hlen fun b x hx => signLiteral_eq b ?_
  have := List.mem_range'_1.1 hx
  omega

theorem signedCube_yields (bits : Nat → Bool) (hw : w.current.WellFormed)
    (hend : d.base + d.len ≤ 2 ^ 31) :
    Yields w (cube ((List.range d.len).map fun i => signedLiteral (bits i) (d.base + i)))
      fun r m => m.Denotes r fun s => ∀ i < d.len, s (d.base + i) = bits i := by
  have hbase := d.base_ne_zero
  refine (cube_yields hw ?_ ?_ ?_).imp fun r w' _ hr => hr.congr fun s => ?_
  · intro hmem
    obtain ⟨i, hi, heq⟩ := List.mem_map.1 hmem
    have := natAbs_signedLiteral (bits i) (d.base + i)
    rw [heq] at this
    have hi := List.mem_range.1 hi
    simp only [leastWord] at this
    omega
  · intro l hl
    obtain ⟨i, -, rfl⟩ := List.mem_map.1 hl
    have := natAbs_signedLiteral (bits i) (d.base + i)
    omega
  · rw [List.map_map]
    refine List.Nodup.map_on (fun i _ j _ hij => ?_) List.nodup_range
    simp only [Function.comp, natAbs_signedLiteral] at hij
    omega
  · rw [List.forall_mem_map]
    simp only [List.mem_range]
    refine forall₂_congr fun i _ => ?_
    exact holds_signedLiteral (by omega)

theorem value_yields (hw : w.current.WellFormed) (hlen : d.len ≤ 64)
    (hend : d.base + d.len ≤ 2 ^ 31) (hv : v < 2 ^ d.len) :
    Yields w (value d v) fun r m => m.Denotes r fun s => d.read s = v := by
  have hshift : v >>> d.len = 0 := by
    rw [Nat.shiftRight_eq_div_pow, Nat.div_eq_of_lt hv]
  have hstop : d.stop = .ok (d.base + d.len) := Domain.stop_of_le (by omega)
  unfold value
  simp only [hshift, ne_eq, not_true_eq_false, and_false, ↓reduceIte]
  refine .lift_bind (Domain.vars_eq hstop) (.lift_bind (valueLiterals_eq hlen hend) ?_)
  refine (signedCube_yields _ hw hend).imp fun r w' _ hr => hr.congr fun s => ?_
  rw [Domain.read_eq_iff hv]

theorem fill_yields {b : Bool} (hw : w.current.WellFormed) (hend : d.base + d.len ≤ 2 ^ 31) :
    Yields w (fill d b) fun r m => m.Denotes r fun s => ∀ i < d.len, s (d.base + i) = b := by
  have hstop : d.stop = .ok (d.base + d.len) := Domain.stop_of_le (by omega)
  have hliterals : fillLiterals b (List.range' d.base d.len) =
      .ok ((List.range d.len).map fun i => signedLiteral b (d.base + i)) := by
    unfold fillLiterals
    rw [List.range'_eq_map_range, List.mapM_map]
    refine mapM_eq_ok fun i hi => ?_
    have hi := List.mem_range.1 hi
    exact signLiteral_eq b (show d.base + i < 2 ^ 31 by omega)
  refine .lift_bind (Domain.vars_eq hstop) (.lift_bind hliterals ?_)
  exact signedCube_yields (fun _ => b) hw hend

section Ranges

variable {bound : Nat}

theorem shiftRight_ne_zero_iff {i : Nat} : bound >>> i ≠ 0 ↔ 2 ^ i ≤ bound := by
  rw [Nat.shiftRight_eq_div_pow, ne_eq, Nat.div_eq_zero_iff]
  have := Nat.two_pow_pos i
  omega

/-- What is taken off a bound for the bits below `i`. -/
theorem wordMask_rest {i : Nat} (bound : Nat) (hi : i < 64) :
    wordMask i = .ok (2 ^ i - 1) ∧ bound &&& (2 ^ i - 1) = bound % 2 ^ i := by
  refine ⟨?_, Nat.and_two_pow_sub_one_eq_mod bound i⟩
  simp [wordMask, hi]

theorem bound_lt {i : Nat} (hbound : bound < 2 ^ 64) (hi : i < 64)
    (hsmall : ¬ (i + 1 < 64 ∧ bound >>> (i + 1) ≠ 0)) : bound < 2 ^ (i + 1) := by
  rw [shiftRight_ne_zero_iff] at hsmall
  rcases (by omega : i + 1 = 64 ∨ i + 1 < 64) with h | h
  · rw [h]
    exact hbound
  · omega

/-- Comparison from the top bit down. -/
theorem read_succ_le_iff {i : Nat} (h : bound < 2 ^ (i + 1)) (s : Assignment) :
    (d.withLen (i + 1)).read s ≤ bound ↔
      if bound.testBit i then s (d.base + i) = true → (d.withLen i).read s ≤ bound % 2 ^ i
      else s (d.base + i) = false ∧ (d.withLen i).read s ≤ bound % 2 ^ i := by
  have htop := Domain.eq_mod_add_top h
  have hread := (d.withLen i).read_lt s
  have hmod := Nat.mod_lt bound (Nat.two_pow_pos i)
  simp only [Domain.withLen_len] at hread
  rw [Domain.read_succ]
  cases hb : bound.testBit i <;> cases s (d.base + i) <;> simp [hb] at htop ⊢ <;> omega

theorem le_read_succ_iff {i : Nat} (h : bound < 2 ^ (i + 1)) (s : Assignment) :
    bound ≤ (d.withLen (i + 1)).read s ↔
      if bound.testBit i then s (d.base + i) = true ∧ bound % 2 ^ i ≤ (d.withLen i).read s
      else s (d.base + i) = false → bound % 2 ^ i ≤ (d.withLen i).read s := by
  have htop := Domain.eq_mod_add_top h
  have hread := (d.withLen i).read_lt s
  have hmod := Nat.mod_lt bound (Nat.two_pow_pos i)
  simp only [Domain.withLen_len] at hread
  rw [Domain.read_succ]
  cases hb : bound.testBit i <;> cases s (d.base + i) <;> simp [hb] at htop ⊢ <;> omega

theorem atMost_yields {i : Nat} (hw : w.current.WellFormed) (hlen : d.len ≤ 64)
    (hend : d.base + d.len ≤ 2 ^ 32) (hi : i ≤ d.len) (hbound : bound < 2 ^ 64) :
    Yields w (atMost d i bound) fun r m => m.Denotes r fun s => (d.withLen i).read s ≤ bound := by
  have hbase := d.base_ne_zero
  induction i generalizing w bound with
  | zero =>
    refine Runs.pure hw ((Denotes.one hw.canonical).congr fun s => ?_)
    have := (d.withLen 0).read_lt s
    simp only [Domain.withLen_len, Nat.pow_zero] at this
    simp only [true_iff]
    omega
  | succ i ih =>
    unfold atMost
    refine .lift_bind (Domain.bit_eq hend (by omega)) ?_
    by_cases hbig : i + 1 < 64 ∧ bound >>> (i + 1) ≠ 0
    · rw [if_pos hbig]
      refine Runs.pure hw ((Denotes.one hw.canonical).congr fun s => ?_)
      have hlt := (d.withLen (i + 1)).read_lt s
      have hle := shiftRight_ne_zero_iff.1 hbig.2
      simp only [Domain.withLen_len] at hlt
      simp only [true_iff]
      omega
    · rw [if_neg hbig]
      obtain ⟨hmask, hrest⟩ := wordMask_rest (i := i) bound (by omega)
      refine .lift_bind hmask ?_
      rw [hrest]
      refine .bind (ih hw (by omega) (Nat.lt_of_le_of_lt (Nat.mod_le _ _) hbound))
        fun rest w1 hl1 hr => ?_
      refine .bind (literal_yields hl1.after (by omega)) fun x w2 hl2 hx => ?_
      have hr2 := hl2.denotes hr
      have hstep := read_succ_le_iff (d := d) (bound_lt hbound (by omega) hbig)
      cases hb : bound.testBit i with
      | true =>
        refine (ite_yields hl2.after hx hr2 (.one hl2.after.canonical)).imp
          fun r w3 _ hr => hr.congr fun s => ?_
        rw [hstep, hb]
        cases s (d.base + i) <;> simp
      | false =>
        refine (ite_yields hl2.after hx (.zero hl2.after.canonical) hr2).imp
          fun r w3 _ hr => hr.congr fun s => ?_
        rw [hstep, hb]
        cases s (d.base + i) <;> simp

theorem atLeast_yields {i : Nat} (hw : w.current.WellFormed) (hlen : d.len ≤ 64)
    (hend : d.base + d.len ≤ 2 ^ 32) (hi : i ≤ d.len) (hbound : bound < 2 ^ 64) :
    Yields w (atLeast d i bound) fun r m => m.Denotes r fun s => bound ≤ (d.withLen i).read s := by
  have hbase := d.base_ne_zero
  induction i generalizing w bound with
  | zero =>
    have hzero : ∀ s, (d.withLen 0).read s = 0 := fun s => by
      have := (d.withLen 0).read_lt s
      simp only [Domain.withLen_len, Nat.pow_zero] at this
      omega
    unfold atLeast
    split_ifs with h
    · exact Runs.pure hw ((Denotes.one hw.canonical).congr fun s => by simp [hzero, h])
    · exact Runs.pure hw ((Denotes.zero hw.canonical).congr fun s => by simp [hzero, h])
  | succ i ih =>
    unfold atLeast
    refine .lift_bind (Domain.bit_eq hend (by omega)) ?_
    by_cases hbig : i + 1 < 64 ∧ bound >>> (i + 1) ≠ 0
    · rw [if_pos hbig]
      refine Runs.pure hw ((Denotes.zero hw.canonical).congr fun s => ?_)
      have hlt := (d.withLen (i + 1)).read_lt s
      have hle := shiftRight_ne_zero_iff.1 hbig.2
      simp only [Domain.withLen_len] at hlt
      simp only [false_iff]
      omega
    · rw [if_neg hbig]
      obtain ⟨hmask, hrest⟩ := wordMask_rest (i := i) bound (by omega)
      refine .lift_bind hmask ?_
      rw [hrest]
      refine .bind (ih hw (by omega) (Nat.lt_of_le_of_lt (Nat.mod_le _ _) hbound))
        fun rest w1 hl1 hr => ?_
      refine .bind (literal_yields hl1.after (by omega)) fun x w2 hl2 hx => ?_
      have hr2 := hl2.denotes hr
      have hstep := le_read_succ_iff (d := d) (bound_lt hbound (by omega) hbig)
      cases hb : bound.testBit i with
      | true =>
        refine (ite_yields hl2.after hx hr2 (.zero hl2.after.canonical)).imp
          fun r w3 _ hr => hr.congr fun s => ?_
        rw [hstep, hb]
        cases s (d.base + i) <;> simp
      | false =>
        refine (ite_yields hl2.after hx (.one hl2.after.canonical) hr2).imp
          fun r w3 _ hr => hr.congr fun s => ?_
        rw [hstep, hb]
        cases s (d.base + i) <;> simp

theorem range_yields {lo hi : Nat} (hw : w.current.WellFormed) (hlen : d.len ≤ 64)
    (hend : d.base + d.len ≤ 2 ^ 32) (hlo : lo < 2 ^ 64) (hhi : hi < 2 ^ 64) :
    Yields w (range d lo hi) fun r m =>
      m.Denotes r fun s => lo ≤ d.read s ∧ d.read s ≤ hi := by
  unfold range
  split_ifs with hempty
  · refine Runs.pure hw ((Denotes.zero hw.canonical).congr fun s => ?_)
    simp only [false_iff]
    omega
  · refine .bind (atMost_yields hw hlen hend (Nat.le_refl _) hhi) fun below w1 hl1 hb => ?_
    refine .bind (atLeast_yields hl1.after hlen hend (Nat.le_refl _) hlo) fun above w2 hl2 ha => ?_
    refine (conj_yields hl2.after (hl2.denotes hb) ha).imp fun r w3 _ hr => hr.congr fun s => ?_
    exact and_comm

end Ranges

end Bdd

end SymbolicAutomata
