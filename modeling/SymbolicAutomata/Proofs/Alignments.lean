import SymbolicAutomata.Proofs.Belonging
/-!
# Sets over any domains

A set may come over a domain that is too long for values to be moved, or that reaches the variables
whose literals are no words. A move then fails. It goes wrong only where bits are dropped or added
from a variable above `2 ^ 31` on.
-/
namespace SymbolicAutomata

open Manager Bdd

variable {w : Workspace} {d e target : Domain} {P Q : Nat → Prop} {n v : Nat}

/-- The literals of zero can be written down only for so many variables below `2 ^ 31`. -/
theorem Bdd.of_valueLiterals_zero {ls : List Int} (hbase : d.base ≤ 2 ^ 31)
    (h : valueLiterals 0 (List.range' d.base d.len) = .ok ls) :
    d.len ≤ 64 ∧ d.base + d.len ≤ 2 ^ 31 := by
  constructor
  · by_contra hlong
    exact absurd (literal_of_value h (i := 64) (by omega)).1 (by omega)
  · by_contra hfar
    obtain ⟨i, hi⟩ := Nat.exists_eq_add_of_le hbase
    obtain ⟨-, l, -, hl⟩ := literal_of_value h (i := i) (by omega)
    have hword : negateWord (signedWord (2 ^ 31)) = .error .overflow := by decide
    rw [← hi, Nat.zero_testBit, if_neg Bool.false_ne_true, hword] at hl
    cases hl

/-- From a variable up to `2 ^ 31` on, zero is written right or not at all. -/
theorem Bdd.value_zero_keeps (hw : w.current.WellFormed) (hbase : d.base ≤ 2 ^ 31) :
    Keeps w (value d 0) fun r m => m.Denotes r fun t => d.read t = 0 := by
  by_cases hfit : d.len ≤ 64 ∧ d.base + d.len ≤ 2 ^ 31
  · exact (value_yields hw hfit.1 hfit.2 (Nat.two_pow_pos _)).keeps
  · unfold value
    simp only [Nat.zero_shiftRight, ne_eq, not_true_eq_false, and_false, ↓reduceIte]
    apply Runs.lift_keeps hw
    intro vars hvars
    obtain ⟨-, rfl⟩ := Domain.vars_eq_ok_iff.1 hvars
    apply Runs.lift_keeps hw
    intro ls hls
    exact absurd (of_valueLiterals_zero hbase hls) hfit

namespace Domain

theorem high_of_eq_ok (h : d.high n = .ok e) :
    d.stop = .ok (d.base + d.len) ∧ n ≤ d.len ∧ e.base = d.base + (d.len - n) ∧ e.len = n ∧
      ∀ s, e.read s = d.read s / 2 ^ (d.len - n) := by
  by_cases hn : n ≤ d.len
  · have hrun := h
    unfold high at hrun
    rw [if_pos hn] at hrun
    obtain ⟨stop, hstop, -⟩ := exists_of_bind_eq_ok hrun
    obtain ⟨e', he', hspec⟩ := d.high_spec hstop hn
    rw [h] at he'
    cases he'
    obtain rfl := stop_eq hstop
    exact ⟨hstop, hn, hspec⟩
  · simp [high, hn] at h

/-- No bits are dropped or added from a variable above `2 ^ 31` on. -/
structure Safe (d e : Domain) : Prop where
  dropped : e.len < d.len → d.base + e.len ≤ 2 ^ 31
  added : d.len < e.len → e.base + d.len ≤ 2 ^ 31

end Domain

namespace ValueSet

variable {s t : ValueSet}

/-- Bits are dropped only where all values do without them. -/
theorem Shows.truncate_keeps (hs : s.Shows w.current P) (hw : w.current.WellFormed)
    (hsafe : n < s.domain.len → s.domain.base + n ≤ 2 ^ 31) :
    Keeps w (s.truncate n target) fun r m => (∀ v < 2 ^ s.domain.len, P v → v < 2 ^ n) ∧
      m.Denotes r fun t => P ((s.domain.withLen (min s.domain.len n)).read t) := by
  unfold truncate
  by_cases hle : s.domain.len ≤ n
  · simp only [hle, ↓reduceIte, Nat.min_eq_left]
    refine Runs.pure hw ⟨fun v hv _ => ?_, hs.denotes⟩
    exact Nat.lt_of_lt_of_le hv (Nat.pow_le_pow_right (by decide) hle)
  simp only [hle, ↓reduceIte, Nat.min_eq_right (Nat.le_of_lt (Nat.lt_of_not_le hle))]
  apply Runs.lift_keeps hw
  intro dropped hdropped
  obtain ⟨hstop, -, hbase, hlen, hread⟩ := Domain.high_of_eq_ok hdropped
  have hrest : s.domain.len - (s.domain.len - n) = n := by omega
  rw [hrest] at hbase hread
  have hdstop : dropped.stop = .ok (dropped.base + dropped.len) := by
    have hend := (Domain.stop_eq_ok_iff.1 hstop).1
    exact Domain.stop_of_le (Nat.lt_of_le_of_lt (by omega) hend)
  apply Runs.bind (value_zero_keeps hw (by have := hsafe (by omega); omega))
  intro x w1 hl1 hx
  have hs1 := hl1.denotes hs.denotes
  apply Runs.bind (implies_yields hl1.after hs1 hx).keeps
  intro b w2 hl2 hb
  cases b with
  | false =>
    apply Runs.ask_keeps hl2.after
    intro values _
    exact Runs.throw_keeps hl2.after
  | true =>
    simp only [Bool.not_true, Bool.false_eq_true, ↓reduceIte]
    have hsmall : ∀ v < 2 ^ s.domain.len, P v → v < 2 ^ n := by
      have hzero : ∀ t, P (s.domain.read t) → s.domain.read t < 2 ^ n := fun t ht => by
        have := hb.1 rfl t ht
        rwa [hread, Nat.div_eq_zero_iff_lt (Nat.two_pow_pos n)] at this
      exact forall_read_iff.1 hzero
    have hden := hs1.congr fun t =>
      (and_iff_right_of_imp (hsmall _ (s.domain.read_lt t))).symm
    apply ((exist_yields hdstop hl2.after (hl2.denotes hden)).keeps).imp
    intro r w3 _ hr
    refine ⟨hsmall, hr.congr fun t => ?_⟩
    have hiff := exists_dropped_iff (G := fun v (_ : Assignment) => v < 2 ^ n ∧ P v) (t := t)
      (Nat.le_of_lt (Nat.lt_of_not_le hle)) hbase (by omega) hread (fun _ _ _ _ => Iff.rfl)
      fun _ _ h => h.1
    refine hiff.trans (and_iff_right ?_)
    exact (s.domain.withLen n).read_lt t

theorem pad_zero_keeps {f : Ref} (hw : w.current.WellFormed)
    (hsafe : n < e.len → e.base + n ≤ 2 ^ 31)
    (hf : w.current.Denotes f fun t => P ((e.withLen (min n e.len)).read t)) :
    Keeps w (pad f n e) fun r m => m.Denotes r fun t => e.read t < 2 ^ n ∧ P (e.read t) := by
  unfold pad
  by_cases hle : e.len ≤ n
  · rw [Nat.min_eq_right hle] at hf
    rw [if_pos hle]
    refine Runs.pure hw (hf.congr fun t => (and_iff_right ?_).symm)
    exact Nat.lt_of_lt_of_le (e.read_lt t) (Nat.pow_le_pow_right (by decide) hle)
  rw [Nat.min_eq_left (by omega)] at hf
  rw [if_neg hle]
  apply Runs.lift_keeps hw
  intro added hadded
  obtain ⟨-, -, hbase, -, hread⟩ := Domain.high_of_eq_ok hadded
  have hrest : e.len - (e.len - n) = n := by omega
  rw [hrest] at hbase hread
  apply Runs.bind (value_zero_keeps hw (by have := hsafe (by omega); omega))
  intro x w1 hl1 hx
  apply ((conj_yields hl1.after (hl1.denotes hf) hx).keeps).imp
  intro r w2 _ hr
  refine hr.congr fun t => ?_
  rw [hread, Domain.read_withLen (by omega), Nat.div_eq_zero_iff_lt (Nat.two_pow_pos n), and_comm]
  exact and_congr_right fun h => by rw [Nat.mod_eq_of_lt h]

theorem Shows.withDomain_fits (hs : s.Shows w.current P) (hw : w.current.WellFormed)
    (hsafe : s.domain.Safe e) :
    Keeps w (s.withDomain e) fun r m => (∀ v < 2 ^ s.domain.len, P v → v < 2 ^ e.len) ∧
      r.domain = e ∧ r.Shows m fun v => v < 2 ^ s.domain.len ∧ P v := by
  unfold ValueSet.withDomain
  by_cases heq : e = s.domain
  · rw [if_pos heq, heq]
    exact Runs.pure hw ⟨fun v hv _ => hv, rfl, hs.bounded⟩
  rw [if_neg heq]
  have hmin : min s.domain.len (min s.domain.len e.len) = min s.domain.len e.len := by omega
  have htrunc : Keeps w (s.truncate (min s.domain.len e.len) e) fun r m =>
      (∀ v < 2 ^ s.domain.len, P v → v < 2 ^ min s.domain.len e.len) ∧ m.Denotes r fun t =>
        P ((s.domain.withLen (min s.domain.len (min s.domain.len e.len))).read t) :=
    hs.truncate_keeps hw fun hlt => by
      have := hsafe.dropped (by omega)
      omega
  rw [hmin] at htrunc
  apply Runs.bind htrunc
  rintro f w1 hl1 ⟨hsmall, hf⟩
  have hfits : ∀ v < 2 ^ s.domain.len, P v → v < 2 ^ e.len := fun v hv hP =>
    Nat.lt_of_lt_of_le (hsmall v hv hP) (Nat.pow_le_pow_right (by decide) (Nat.min_le_right _ _))
  apply Runs.lift_bind (Domain.low_eq (Nat.min_le_left _ _))
  apply Runs.lift_bind (Domain.low_eq (Nat.min_le_right _ _))
  apply Runs.lift_keeps hl1.after
  intro names hnames
  have hjoin := Domain.joins_of_renamingTo hnames
  apply Runs.bind (renamed_yields hjoin hl1.after hf).keeps
  intro g w2 hl2 hg
  have hshared : min (min s.domain.len e.len) e.len = min s.domain.len e.len :=
    Nat.min_eq_left (Nat.min_le_right _ _)
  apply Runs.bind (pad_zero_keeps (e := e) hl2.after (fun hlt => ?_) (by rwa [hshared]))
  · intro r w3 hl3 hr
    have hl := hl1.trans (hl2.trans hl3)
    refine Runs.pure hl3.after ⟨hfits, rfl, hs.home.trans hl.grows.id.symm, hr.congr fun t => ?_⟩
    -- no number over the target needs more bits than both domains have
    have hlt := e.read_lt t
    have hpow : e.read t < 2 ^ min s.domain.len e.len ↔ e.read t < 2 ^ s.domain.len := by
      rcases Nat.le_total s.domain.len e.len with hle | hle
      · rw [Nat.min_eq_left hle]
      · rw [Nat.min_eq_right hle]
        exact iff_of_true hlt
          (Nat.lt_of_lt_of_le hlt (Nat.pow_le_pow_right (by decide) hle))
    rw [hpow]
  · have := hsafe.added (by omega)
    omega

theorem Shows.withDomain_keeps (hs : s.Shows w.current P) (hw : w.current.WellFormed)
    (hsafe : s.domain.Safe e) :
    Keeps w (s.withDomain e) fun r m => r.domain = e ∧
      r.Shows m fun v => v < 2 ^ s.domain.len ∧ P v :=
  (hs.withDomain_fits hw hsafe).imp fun _ _ _ hr => hr.2

theorem Shows.inter_keeps (hs : s.Shows w.current P) (ht : t.Shows w.current Q)
    (hw : w.current.WellFormed)
    (hbase : s.domain.len ≠ t.domain.len →
      s.domain.base + min s.domain.len t.domain.len ≤ 2 ^ 31) :
    Keeps w (s.inter t) fun r m =>
      r.domain = s.domain.withLen (max s.domain.len t.domain.len) ∧
        r.Shows m fun v => (v < 2 ^ s.domain.len ∧ P v) ∧ v < 2 ^ t.domain.len ∧ Q v := by
  apply inter_runs hw hs ht rfl
  · refine hs.withDomain_keeps hw ⟨fun h => ?_, fun h => ?_⟩
    · simp only [Domain.withLen_len] at h
      omega
    · simp only [Domain.withLen_len, Domain.withLen_base] at h ⊢
      have := hbase (by omega)
      omega
  · refine fun w1 hl1 => (ht.later hl1).withDomain_keeps hl1.after ⟨fun h => ?_, fun h => ?_⟩
    · simp only [Domain.withLen_len] at h
      omega
    · simp only [Domain.withLen_len, Domain.withLen_base] at h ⊢
      have := hbase (by omega)
      omega

end ValueSet

end SymbolicAutomata
