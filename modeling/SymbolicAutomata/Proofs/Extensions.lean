import SymbolicAutomata.Proofs.Compositions
/-!
# Extended and exchanged positions

A position is extended by bits that are all equal. Two positions of one width exchange their
contents.
-/
namespace SymbolicAutomata

open Manager Bdd Domain

/-- The bits of a number from `k` to `l` are all equal to `b`. -/
def Painted (k l : Nat) (b : Bool) (v : Nat) : Prop := ∀ i, k ≤ i → i < l → v.testBit i = b

variable {w : Workspace} {d e target : Domain} {b : Bool} {t : Assignment} {v : Nat}

/-- With one bit more, the bit tells the lower half from the upper one. -/
theorem painted_succ_iff {k : Nat} (hv : v < 2 ^ (k + 1)) :
    Painted k (k + 1) b v ↔ v / 2 ^ k = b.toNat := by
  have hbit : (v.testBit k).toNat = v / 2 ^ k := by
    rw [Nat.toNat_testBit, Nat.mod_eq_of_lt]
    rw [Nat.div_lt_iff_lt_mul (Nat.two_pow_pos k)]
    omega
  have hpainted : Painted k (k + 1) b v ↔ v.testBit k = b := by
    constructor
    · exact fun h => h k (Nat.le_refl k) (Nat.lt_succ_self k)
    · intro h i h1 h2
      obtain rfl : i = k := by omega
      exact h
  rw [hpainted, ← hbit]
  cases v.testBit k <;> cases b <;> simp

namespace Domain

/-- The added bits are painted where the added variables have the given value. -/
theorem painted_iff (hbase : e.base = target.base + d.len) (hlen : d.len + e.len = target.len) :
    Painted d.len target.len b (target.read t) ↔ ∀ i < e.len, t (e.base + i) = b := by
  constructor
  · intro h i hi
    have := h (d.len + i) (by omega) (by omega)
    rw [testBit_read] at this
    rwa [decide_eq_true (by omega), Bool.true_and, ← Nat.add_assoc, ← hbase] at this
  · intro h i h1 h2
    have := h (i - d.len) (by omega)
    rw [testBit_read, decide_eq_true h2, Bool.true_and, ← this]
    congr 1
    omega

theorem high_of_wider (hle : d.len ≤ target.len) (hend : target.base + target.len ≤ 2 ^ 31) :
    ∃ e : Domain, target.high (target.len - d.len) = .ok e ∧ e.base = target.base + d.len ∧
      d.len + e.len = target.len ∧ e.base + e.len ≤ 2 ^ 31 := by
  have hstop : target.stop = .ok (target.base + target.len) := stop_of_le (by omega)
  obtain ⟨e, he, hbase, hlen, -⟩ := target.high_spec hstop (Nat.sub_le target.len d.len)
  exact ⟨e, he, by omega, by omega, by omega⟩

theorem read_mod (hbase : target.base = d.base) (hle : d.len ≤ target.len) :
    target.read t % 2 ^ d.len = d.read t := by
  rw [← read_withLen hle]
  unfold read
  simp only [withLen_base, withLen_len, hbase]

end Domain

namespace ValueSet

variable {s : ValueSet} {P : Nat → Prop}

theorem extend_yields (hw : w.current.WellFormed) (hs : s.Shows w.current P)
    (hle : s.domain.len ≤ target.len) (hend : target.base + target.len ≤ 2 ^ 31)
    (hfit : s.domain.Fits (target.withLen s.domain.len) P) :
    Yields w (s.extend target b) fun r m => r.domain = target ∧
      r.Shows m fun v => P (v % 2 ^ s.domain.len) ∧ Painted s.domain.len target.len b v := by
  obtain ⟨e, he, hbase, hlen, heend⟩ := high_of_wider hle hend
  unfold extend
  rw [if_neg (Nat.not_lt.2 hle)]
  refine .lift_bind (low_eq hle) (.bind (hs.withDomain hw hfit) fun moved w1 hl1 hmoved => ?_)
  refine .lift_bind he (.bind (fill_yields hl1.after heend) fun high w2 hl2 hhigh => ?_)
  refine .bind (conj_yields hl2.after (hl2.denotes hmoved.2.denotes) hhigh) fun f w3 hl3 hf => ?_
  have hl := hl1.trans (hl2.trans hl3)
  refine Runs.pure hl3.after ⟨rfl, hs.home.trans hl.grows.id.symm, hf.congr fun t => ?_⟩
  rw [hmoved.1, read_withLen hle, painted_iff hbase hlen]

end ValueSet

namespace Relation

variable {r : Relation} {R : List Nat → Prop} {pos i j : Nat}

theorem extend_yields (hw : w.current.WellFormed) (h : r.Shows w.current R)
    (hd : r.domains[pos]? = some d) (hbase : d.base = target.base) (hle : d.len ≤ target.len)
    (hend : target.base + target.len ≤ 2 ^ 31)
    (hfree : ∀ i e, i ≠ pos → r.domains[i]? = some e → e.Apart target) :
    Yields w (r.extend pos target b) fun u m => u.domains = r.domains.set pos target ∧
      u.Shows m fun ts => ∃ v, ts[pos]? = some v ∧ R (ts.set pos (v % 2 ^ d.len)) ∧
        Painted d.len target.len b v := by
  obtain ⟨e, he, hebase, helen, heend⟩ := high_of_wider hle hend
  have hsub : subtract target.len d.len = .ok (target.len - d.len) :=
    subtract_eq_ok_iff.2 ⟨hle, rfl⟩
  refine .lift_bind (domain_eq hd) ?_
  rw [if_neg (not_not_intro hbase)]
  refine .lift_bind (checkFree_eq h (Nat.lt_of_le_of_lt hend (by decide)) hfree)
    (.lift_bind hsub (.lift_bind he ?_))
  refine .bind (fill_yields hw heend) fun high w1 hl1 hhigh => ?_
  refine .bind (conj_yields hl1.after (hl1.denotes (h.at hd)) hhigh) fun f w2 hl2 hf => ?_
  have hl := hl1.trans hl2
  refine Runs.pure hl2.after ⟨rfl, h.home.trans hl.grows.id.symm, pairwise_set h.apart hfree,
    h.ends.set hend, hf.congr fun t => ?_⟩
  have hpos : (reads (r.domains.set pos target) t)[pos]? = some (target.read t) := by
    rw [getElem?_reads, List.getElem?_set_self (List.getElem?_eq_some_iff.1 hd).1,
      Option.map_some]
  change _ ↔ ∃ v, (reads (r.domains.set pos target) t)[pos]? = some v ∧
    R ((reads (r.domains.set pos target) t).set pos (v % 2 ^ d.len)) ∧ _
  simp only [hpos, Option.some_inj, exists_eq_left', reads_set_set]
  rw [read_mod hbase.symm hle, painted_iff hebase helen]

theorem transpose_yields (hw : w.current.WellFormed) (h : r.Shows w.current R)
    (hi : r.domains[i]? = some d) (hj : r.domains[j]? = some e) (hne : i ≠ j)
    (hlen : d.len = e.len) :
    Yields w (r.transpose i j) fun u m => u.domains = r.domains ∧
      u.Shows m fun ts => ∃ x y, ts[i]? = some x ∧ ts[j]? = some y ∧
        R ((ts.set i y).set j x) := by
  have hapart : d.Apart e := apart_of_pairwise h.apart hi hj hne
  have hdstop := h.stop (List.mem_of_getElem? hi)
  have hestop := h.stop (List.mem_of_getElem? hj)
  obtain ⟨there, hthere, hjoin⟩ := renamingTo_spec hdstop hestop
  obtain ⟨back, hback, hjoin'⟩ := renamingTo_spec hestop hdstop
  refine .lift_bind (domain_eq hi) (.lift_bind (domain_eq hj) ?_)
  rw [if_neg (not_not_intro hlen)]
  refine .lift_bind hthere (.lift_bind hback ?_)
  refine .bind (rename_yields (fun v => hjoin.pos_extend hjoin') hw h.denotes)
    fun f w1 hl1 hf => ?_
  refine Runs.pure hl1.after ⟨rfl, h.withFn hl1 (hf.congr fun t => ?_)⟩
  have hpair := hjoin.reads_extend hjoin' hapart hlen hlen.symm t
  simp only [reads, List.map_cons, List.map_nil, List.cons.injEq, and_true] at hpair
  have hreads : reads r.domains ((there.extend back).pull t) =
      ((reads r.domains t).set i (e.read t)).set j (d.read t) := by
    apply List.ext_getElem?
    intro k
    rw [getElem?_reads, List.getElem?_set, List.getElem?_set, getElem?_reads]
    simp only [List.length_set, length_reads]
    have hilen := (List.getElem?_eq_some_iff.1 hi).1
    have hjlen := (List.getElem?_eq_some_iff.1 hj).1
    by_cases hkj : j = k
    · subst hkj
      rw [if_pos rfl, if_pos hjlen, hj, Option.map_some, hpair.2]
    by_cases hki : i = k
    · subst hki
      rw [if_neg hkj, if_pos rfl, if_pos hilen, hi, Option.map_some, hpair.1]
    simp only [hkj, hki, ↓reduceIte]
    cases hk : r.domains[k]? with
    | none => rfl
    | some c =>
      have hcd := apart_of_pairwise h.apart hk hi (Ne.symm hki)
      have hce := apart_of_pairwise h.apart hk hj (Ne.symm hkj)
      have h1 := hcd.read_eq (hjoin.agreeOff t)
      have h2 : c.read ((there.extend back).pull t) = c.read (there.pull t) :=
        hce.read_eq hjoin'.pull_extend_left
      rw [Option.map_some, Option.map_some, h2, ← h1]
  rw [hreads]
  simp [getElem?_reads, hi, hj]

end Relation

end SymbolicAutomata
