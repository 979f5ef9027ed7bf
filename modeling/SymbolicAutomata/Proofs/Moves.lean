import SymbolicAutomata.ValueSet
import SymbolicAutomata.Proofs.Numbers
/-!
# Moving numbers between domains

A function that reads a number from one domain is moved to read the same number from another one.
High bits that only one of the two domains has are unused.
-/
namespace SymbolicAutomata

open Manager

namespace Renaming

variable {r r' : Renaming} {v : Nat}

theorem apply_foldl_insert (new : Nat → Nat) {entries : List (Nat × Nat)}
    (h : ∀ e ∈ entries, e.2 = new e.1) :
    (entries.foldl insert r).apply v = if v ∈ entries.map Prod.fst then new v else r.apply v := by
  induction entries generalizing r with
  | nil => simp
  | cons e entries ih =>
    rw [List.foldl_cons, ih fun x hx => h x (by simp [hx])]
    obtain ⟨a, b⟩ := e
    have hb : b = new a := h (a, b) (by simp)
    rw [apply_insert]
    by_cases hv : v = a
    · subst hv
      simp [hb]
    · simp only [List.map_cons, List.mem_cons, hv, false_or, ↓reduceIte]

theorem apply_of_notMem (h : v ∉ r.names) : r.apply v = v := by
  rw [apply, Std.TreeMap.getD_eq_getD_getElem?, Std.TreeMap.getElem?_eq_none h]
  rfl

theorem mem_entries_fst : v ∈ r.entries.map Prod.fst ↔ v ∈ r.names := by
  rw [entries, Std.TreeMap.map_fst_toList_eq_keys, Std.TreeMap.mem_keys]

theorem apply_of_mem_entries {a b : Nat} (h : (a, b) ∈ r.entries) : r.apply a = b := by
  have := Std.TreeMap.mem_toList_iff_getElem?_eq_some.1 h
  simp [apply, Std.TreeMap.getD_eq_getD_getElem?, this]

theorem apply_extend [Decidable (v ∈ r'.names)] :
    (r.extend r').apply v = if v ∈ r'.names then r'.apply v else r.apply v := by
  have hentries : ∀ e ∈ r'.entries, e.2 = r'.apply e.1 := fun e he =>
    (apply_of_mem_entries he).symm
  rw [extend, apply_foldl_insert _ hentries]
  simp only [mem_entries_fst]

theorem mem_names_foldl_insert {entries : List (Nat × Nat)} :
    v ∈ (entries.foldl insert r).names ↔ v ∈ entries.map Prod.fst ∨ v ∈ r.names := by
  induction entries generalizing r with
  | nil => simp
  | cons e entries ih =>
    rw [List.foldl_cons, ih]
    simp only [insert, Std.TreeMap.mem_insert, Std.LawfulEqOrd.compare_eq_iff_eq, List.map_cons,
      List.mem_cons]
    tauto

end Renaming

namespace Domain

variable {d e : Domain} {s t : Assignment}

/-- A renaming between two domains renames the bits that both have, and has no other entries. -/
structure Joins (d e : Domain) (names : Renaming) : Prop where
  apply : ∀ v, names.apply v =
    if d.base ≤ v ∧ v < d.base + min d.len e.len then v - d.base + e.base else v
  within : ∀ v ∈ names.names, d.base ≤ v ∧ v < d.base + min d.len e.len

theorem renamingTo_spec {n k : Nat} (hd : d.stop = .ok n) (he : e.stop = .ok k) :
    ∃ names, d.renamingTo e = .ok names ∧ d.Joins e names := by
  have hmem : ∀ p, p ∈ ((List.range (min d.len e.len)).map fun i => (d.base + i, e.base + i)).filter
      (fun p => p.1 ≠ p.2) ↔ p.1 ≠ p.2 ∧ d.base ≤ p.1 ∧ p.1 < d.base + min d.len e.len ∧
        p.2 = p.1 - d.base + e.base := by
    rintro ⟨a, b⟩
    simp only [List.mem_filter, List.mem_map, List.mem_range, Prod.mk.injEq, decide_eq_true_eq]
    constructor
    · rintro ⟨⟨i, hi, rfl, rfl⟩, hne⟩
      exact ⟨hne, by omega, by omega, by omega⟩
    · rintro ⟨hne, h1, h2, h3⟩
      exact ⟨⟨a - d.base, by omega, by omega, by omega⟩, hne⟩
  refine ⟨_, by rw [renamingTo, hd, he]; rfl, ?_, ?_⟩
  · intro v
    rw [Renaming.ofList, Renaming.apply_foldl_insert (fun v => v - d.base + e.base)
      fun p hp => ((hmem p).1 hp).2.2.2, Renaming.apply_identity]
    by_cases hv : d.base ≤ v ∧ v < d.base + min d.len e.len
    · rw [if_pos hv]
      -- a variable that stays in place has no entry
      split_ifs with h
      · rfl
      · by_contra hne
        exact h (List.mem_map.2 ⟨(v, v - d.base + e.base), (hmem _).2 ⟨hne, hv.1, hv.2, rfl⟩, rfl⟩)
    · rw [if_neg hv, if_neg]
      rintro h
      obtain ⟨p, hp, rfl⟩ := List.mem_map.1 h
      obtain ⟨-, h1, h2, -⟩ := (hmem p).1 hp
      exact hv ⟨h1, h2⟩
  · intro v hv
    have hv' := Renaming.mem_names_foldl_insert.1 hv
    rcases hv' with h | h
    · obtain ⟨p, hp, rfl⟩ := List.mem_map.1 h
      obtain ⟨-, h1, h2, -⟩ := (hmem p).1 hp
      exact ⟨h1, h2⟩
    · simp [Renaming.identity] at h

variable {names : Renaming}

theorem Joins.pos (h : d.Joins e names) {v : Nat} (hv : 0 < v) : 0 < names.apply v := by
  have := e.base_ne_zero
  rw [h.apply]
  split_ifs <;> omega

theorem Joins.read (h : d.Joins e names) (s : Assignment) :
    (d.withLen (min d.len e.len)).read (names.pull s) =
      (e.withLen (min d.len e.len)).read s := by
  apply Nat.eq_of_testBit_eq
  intro i
  rw [testBit_read, testBit_read]
  simp only [withLen_len, withLen_base]
  by_cases hi : i < min d.len e.len
  · have hv : d.base ≤ d.base + i ∧ d.base + i < d.base + min d.len e.len := ⟨by omega, by omega⟩
    have hname : names.apply (d.base + i) = e.base + i := by
      rw [h.apply, if_pos hv]
      omega
    rw [Renaming.pull, hname]
    rfl
  · simp only [hi, decide_false, Bool.false_and]

theorem Joins.read_of_len (h : d.Joins e names) (hlen : d.len = e.len) (s : Assignment) :
    d.read (names.pull s) = e.read s := by
  have := h.read s
  rw [hlen, Nat.min_self] at this
  have hd : d.withLen e.len = d := by rw [← hlen]; rfl
  rwa [hd] at this

theorem Joins.agreeOff (h : d.Joins e names) (s : Assignment) :
    AgreeOff d s (names.pull s) := by
  intro v hv
  rw [Renaming.pull, h.apply, if_neg (by omega)]

/-- Numbers with the property can be moved from one domain to the other. -/
structure Fits (d e : Domain) (P : Nat → Prop) : Prop where
  source : d.base + d.len ≤ 2 ^ 31
  target : e.base + e.len ≤ 2 ^ 31
  narrower : d.len ≤ e.len + 64
  wider : e.len ≤ d.len + 64
  small : ∀ v, P v → v < 2 ^ d.len ∧ v < 2 ^ e.len

theorem Fits.imp {P Q : Nat → Prop} (h : d.Fits e P) (hQP : ∀ v, Q v → P v) : d.Fits e Q :=
  ⟨h.source, h.target, h.narrower, h.wider, fun v hv => h.small v (hQP v hv)⟩

end Domain

namespace ValueSet

open Bdd

variable {w : Workspace} {d e target : Domain} {G : Nat → Assignment → Prop} {n : Nat}

/-- Quantifying unused high bits away leaves the number on the low bits. -/
theorem exists_dropped_iff {dropped : Domain} {t : Assignment} (hn : n ≤ d.len)
    (hbase : dropped.base = d.base + n) (hlen : dropped.len = d.len - n)
    (hread : ∀ t, dropped.read t = d.read t / 2 ^ n) (hfree : ∀ v, d.Free (G v))
    (hsmall : ∀ v t, G v t → v < 2 ^ n) :
    (∃ u, AgreeOff dropped t u ∧ G (d.read u) u) ↔ G ((d.withLen n).read t) t := by
  have hoff : ∀ {t u}, AgreeOff dropped t u → AgreeOff d t u := fun h v hv => h v (by omega)
  have hapart : (d.withLen n).Apart dropped := Domain.apart_of_le (by
    simp only [Domain.withLen_len, Domain.withLen_base]
    omega)
  constructor
  · rintro ⟨u, htu, hu⟩
    have hlow : (d.withLen n).read u = d.read u := by
      rw [Domain.read_withLen hn, Nat.mod_eq_of_lt (hsmall _ u hu)]
    rw [hapart.read_eq htu, hlow]
    exact (hfree _ t u (hoff htu)).2 hu
  · intro ht
    have htu := dropped.write_agreeOff 0 t
    refine ⟨dropped.write 0 t, htu, ?_⟩
    have hzero : d.read (dropped.write 0 t) / 2 ^ n = 0 := by
      rw [← hread, Domain.read_write (Nat.two_pow_pos _)]
    have hsame : d.read (dropped.write 0 t) = (d.withLen n).read t := by
      rw [hapart.read_eq htu, Domain.read_withLen hn]
      have := Nat.div_add_mod (d.read (dropped.write 0 t)) (2 ^ n)
      rw [hzero] at this
      omega
    rw [hsame]
    exact (hfree _ t _ (hoff htu)).1 ht

theorem truncate_yields {s : ValueSet} (hw : w.current.WellFormed)
    (hend : s.domain.base + s.domain.len ≤ 2 ^ 31) (hwide : s.domain.len ≤ n + 64)
    (hfree : ∀ v, s.domain.Free (G v)) (hsmall : ∀ v t, G v t → v < 2 ^ n)
    (hs : w.current.Denotes s.fn fun t => G (s.domain.read t) t) :
    Yields w (s.truncate n target) fun r m =>
      m.Denotes r fun t => G ((s.domain.withLen (min s.domain.len n)).read t) t := by
  obtain ⟨id, d, f⟩ := s
  simp only at hend hwide hfree hs ⊢
  unfold truncate
  by_cases hle : d.len ≤ n
  · simp only [hle, ↓reduceIte, Nat.min_eq_left]
    exact Runs.pure hw hs
  · have hmin : min d.len n = n := by omega
    have hstop : d.stop = .ok (d.base + d.len) := Domain.stop_of_le (by omega)
    obtain ⟨dropped, hhigh, hbase, hlen, hread⟩ := d.high_spec hstop (Nat.sub_le d.len n)
    have hrest : d.len - (d.len - n) = n := by omega
    rw [hrest] at hbase hread
    simp only [hle, ↓reduceIte, hmin]
    refine .lift_bind hhigh ?_
    refine .bind (value_yields (d := dropped) (v := 0) hw (by omega) (by omega)
      (Nat.two_pow_pos _)) fun x w1 hl1 hx => ?_
    have hs1 := hl1.denotes hs
    refine .bind (implies_yields hl1.after hs1 hx) fun b w2 hl2 hb => ?_
    have hunused : ∀ t, G (d.read t) t → dropped.read t = 0 := fun t ht => by
      rw [hread, Nat.div_eq_of_lt (hsmall _ t ht)]
    obtain rfl : b = true := hb.2 hunused
    simp only [Bool.not_true, Bool.false_eq_true, ↓reduceIte]
    have hdstop : dropped.stop = .ok (dropped.base + dropped.len) :=
      Domain.stop_of_le (by omega)
    refine (exist_yields hdstop hl2.after (hl2.denotes hs1)).imp fun r w3 _ hr =>
      hr.congr fun t => ?_
    exact exists_dropped_iff (by omega) hbase (by omega) hread hfree hsmall

theorem pad_yields {f : Ref} (hw : w.current.WellFormed) (hend : e.base + e.len ≤ 2 ^ 31)
    (hwide : e.len ≤ n + 64) (hsmall : ∀ v t, G v t → v < 2 ^ n)
    (hf : w.current.Denotes f fun t => G ((e.withLen (min n e.len)).read t) t) :
    Yields w (pad f n e) fun r m => m.Denotes r fun t => G (e.read t) t := by
  unfold pad
  by_cases hle : e.len ≤ n
  · rw [Nat.min_eq_right hle] at hf
    rw [if_pos hle]
    exact Runs.pure hw hf
  · have hstop : e.stop = .ok (e.base + e.len) := Domain.stop_of_le (by omega)
    obtain ⟨added, hhigh, hbase, hlen, hread⟩ := e.high_spec hstop (Nat.sub_le e.len n)
    have hrest : e.len - (e.len - n) = n := by omega
    rw [hrest] at hbase hread
    rw [if_neg hle]
    refine .lift_bind hhigh ?_
    refine .bind (value_yields (d := added) (v := 0) hw (by omega) (by omega)
      (Nat.two_pow_pos _)) fun x w1 hl1 hx => ?_
    refine (conj_yields hl1.after (hl1.denotes hf) hx).imp fun r w2 _ hr => hr.congr fun t => ?_
    rw [Nat.min_eq_left (by omega), Domain.read_withLen (by omega), hread]
    constructor
    · rintro ⟨h, hzero⟩
      rw [Nat.div_eq_zero_iff_lt (Nat.two_pow_pos n)] at hzero
      rwa [Nat.mod_eq_of_lt hzero] at h
    · intro h
      have hlt := hsmall _ t h
      rw [Nat.mod_eq_of_lt hlt, Nat.div_eq_of_lt hlt]
      exact ⟨h, rfl⟩

/-- The low bits of one domain are read from those of the other after a renaming. -/
theorem renamed_yields {f : Ref} {names : Renaming} {P : Nat → Prop}
    (hjoin : (d.withLen n).Joins (e.withLen n) names) (hw : w.current.WellFormed)
    (hf : w.current.Denotes f fun t => P ((d.withLen n).read t)) :
    Yields w (Bdd.rename f names) fun g m =>
      m.Denotes g fun t => P ((e.withLen n).read t) := by
  apply (rename_yields (fun v => hjoin.pos) hw hf).imp
  intro g w1 _ hg
  exact hg.congr fun t => by rw [hjoin.read_of_len rfl]

theorem withDomain_yields {s : ValueSet} (hw : w.current.WellFormed)
    (hfit : s.domain.Fits e fun v => ∃ t, G v t) (hfree : ∀ v, s.domain.Free (G v))
    (hs : w.current.Denotes s.fn fun t => G (s.domain.read t) t) :
    Yields w (s.withDomain e) fun r m => r.manager = s.manager ∧ r.domain = e ∧
      m.Denotes r.fn fun t => G (e.read t) t := by
  obtain ⟨id, d, f⟩ := s
  obtain ⟨hd, he, hde, hed, hsmall⟩ := hfit
  simp only at hd hde hed hfree hsmall hs ⊢
  unfold withDomain
  by_cases heq : e = d
  · subst heq
    rw [if_pos rfl]
    exact Runs.pure hw ⟨rfl, rfl, hs⟩
  · rw [if_neg heq]
    have hsmall' : ∀ v t, G v t → v < 2 ^ min d.len e.len := fun v t h => by
      rcases Nat.le_total d.len e.len with hle | hle
      · rw [Nat.min_eq_left hle]
        exact (hsmall v ⟨t, h⟩).1
      · rw [Nat.min_eq_right hle]
        exact (hsmall v ⟨t, h⟩).2
    refine .bind (truncate_yields (s := ⟨id, d, f⟩) hw hd
      (by change d.len ≤ min d.len e.len + 64; omega) hfree hsmall' hs)
      fun f1 w1 hl1 hf1 => ?_
    simp only [Nat.min_eq_right (Nat.min_le_left d.len e.len)] at hf1
    refine .lift_bind (Domain.low_eq (Nat.min_le_left _ _)) ?_
    refine .lift_bind (Domain.low_eq (Nat.min_le_right _ _)) ?_
    have hdl : (d.withLen (min d.len e.len)).stop = .ok (d.base + min d.len e.len) :=
      Domain.stop_of_le (by simp only [Domain.withLen_len, Domain.withLen_base]; omega)
    have hel : (e.withLen (min d.len e.len)).stop = .ok (e.base + min d.len e.len) :=
      Domain.stop_of_le (by simp only [Domain.withLen_len, Domain.withLen_base]; omega)
    obtain ⟨names, hnames, hjoin⟩ := Domain.renamingTo_spec hdl hel
    refine .lift_bind hnames ?_
    refine .bind (rename_yields (fun v => hjoin.pos) hl1.after hf1) fun f2 w2 hl2 hf2 => ?_
    have hf2' : w2.current.Denotes f2 fun t =>
        G ((e.withLen (min (min d.len e.len) e.len)).read t) t := by
      refine hf2.congr fun t => ?_
      have hread := hjoin.read t
      simp only [Domain.withLen_len, Nat.min_self] at hread
      have hoff : AgreeOff d t (names.pull t) := fun v hv =>
        hjoin.agreeOff t v (by simp only [Domain.withLen_len, Domain.withLen_base]; omega)
      rw [Nat.min_eq_left (Nat.min_le_right d.len e.len)]
      change G ((d.withLen (min d.len e.len)).read (names.pull t)) (names.pull t) ↔ _
      rw [← hfree _ t _ hoff]
      change G (((d.withLen (min d.len e.len)).withLen (min d.len e.len)).read _) t ↔ _
      rw [hread]
      rfl
    refine .bind (pad_yields hl2.after he
      (by change e.len ≤ min d.len e.len + 64; omega) hsmall' hf2') fun f3 w3 hl3 hf3 => ?_
    exact Runs.pure hl3.after ⟨rfl, rfl, hf3⟩

end ValueSet

end SymbolicAutomata
