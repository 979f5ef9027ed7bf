import SymbolicAutomata.Proofs.Alignments
/-!
# Where sets land

Any set of numbers, over whatever domain, can be moved onto every block of a given width or onto
none. On the blocks it shows the same numbers: those of the set, less the bits that had to go.
-/
namespace SymbolicAutomata

open Manager Bdd Layout

variable {w w' : Workspace} {d e : Domain} {s : ValueSet} {P Q : Nat → Prop} {n k : Nat}

namespace Domain

theorem renamingTo_error (h : ¬ d.base + d.len < 2 ^ 32) :
    d.renamingTo e = .error .overflow := by
  have hstop : d.stop = .error .overflow := if_neg h
  rw [renamingTo, hstop]
  rfl

end Domain

namespace ValueSet

/-- What is left of the numbers on a domain without the bits from `n` on. -/
def Lowered (d : Domain) (n : Nat) (P : Nat → Prop) (v : Nat) : Prop :=
  ∃ u < 2 ^ (d.len - n), P (2 ^ n * u + v)

/-- Quantifying the bits from `n` on away leaves the numbers on the bits below. -/
theorem exists_lowered_iff {t : Assignment} (hn : n ≤ d.len) (hbase : e.base = d.base + n)
    (hlen : e.len = d.len - n) (hread : ∀ t, e.read t = d.read t / 2 ^ n) :
    (∃ u, AgreeOff e t u ∧ P (d.read u)) ↔ Lowered d n P ((d.withLen n).read t) := by
  have hapart : (d.withLen n).Apart e := Domain.apart_of_le (by
    simp only [Domain.withLen_len, Domain.withLen_base]
    omega)
  have hfree : ∀ v, e.Free fun t => P (2 ^ n * v + (d.withLen n).read t) := by
    intro v t u htu
    simp only [hapart.read_eq htu]
  have hsplit : ∀ u, d.read u = 2 ^ n * e.read u + (d.withLen n).read u := by
    intro u
    rw [Domain.read_withLen hn, hread]
    exact (Nat.div_add_mod _ _).symm
  simp only [hsplit]
  rw [Domain.exists_agreeOff (G := fun v t => P (2 ^ n * v + (d.withLen n).read t)) hfree, hlen]
  rfl

/-- Whether bits can be dropped is settled for the session, whatever they are dropped for. -/
theorem Shows.truncate_settled (hs : s.Shows w.current P) (n : Nat) :
    ∃ (C : Prop) (Q : Nat → Prop), (s.domain.len ≤ n → C ∧ Q = P) ∧
      ∀ (target : Domain) (w' : Workspace), w.Leads w' →
        YieldsIff C w' (s.truncate n target) fun r m =>
          m.Denotes r fun t => Q ((s.domain.withLen (min s.domain.len n)).read t) := by
  by_cases hle : s.domain.len ≤ n
  · refine ⟨True, P, fun _ => ⟨trivial, rfl⟩, fun target w' hl => ?_⟩
    unfold truncate
    rw [if_pos hle, Nat.min_eq_left hle]
    exact Runs.pure hl.after ⟨trivial, (hs.later hl).denotes⟩
  have hmin : min s.domain.len n = n := Nat.min_eq_right (Nat.le_of_not_le hle)
  cases hhigh : s.domain.high (s.domain.len - n) with
  | error e =>
    refine ⟨False, P, fun h => absurd h hle, fun target w' hl => ?_⟩
    unfold truncate
    rw [if_neg hle]
    exact Runs.lift_error hl.after hhigh not_false
  | ok dropped =>
    obtain ⟨hstop, -, hbase, hlen, hread⟩ := Domain.high_of_eq_ok hhigh
    have hrest : s.domain.len - (s.domain.len - n) = n := by omega
    rw [hrest] at hbase hread
    have hdstop : dropped.stop = .ok (dropped.base + dropped.len) := by
      have hend := (Domain.stop_eq_ok_iff.1 hstop).1
      exact Domain.stop_of_le (Nat.lt_of_le_of_lt (by omega) hend)
    obtain ⟨C, F, hvalue⟩ := value_settled dropped 0
    refine ⟨C ∧ ∀ t, P (s.domain.read t) → F t, Lowered s.domain n P, fun h => absurd h hle,
      fun target w' hl => ?_⟩
    unfold truncate
    rw [if_neg hle, hmin]
    apply Runs.lift_bind hhigh
    apply (hvalue w' hl.after).bind
    intro x w1 hl1 hx
    have hs1 := (hl.trans hl1).denotes hs.denotes
    apply Runs.bind (Runs.weaken (implies_yields hl1.after hs1 hx))
    intro b w2 hl2 hb
    cases b with
    | false =>
      have hnot : ¬ ∀ t, P (s.domain.read t) → F t := fun h => Bool.false_ne_true (hb.2 h)
      exact (Runs.ask_keeps (S := fun _ _ => False) hl2.after fun _ _ =>
        Runs.throw_keeps hl2.after).mono (fun _ => hnot) fun _ _ _ h => h.elim
    | true =>
      refine Runs.yieldsIff ?_ (hb.1 rfl)
      apply (exist_yields hdstop hl2.after (hl2.denotes hs1)).imp
      intro r w3 _ hr
      exact hr.congr fun t =>
        exists_lowered_iff (Nat.le_of_not_le hle) hbase hlen hread

/-- A set can be moved onto every block of a width or onto none, and shows the same there. -/
theorem Shows.exists_lands (hs : s.Shows w.current P) (hk : k ≤ 32) :
    ∃ (C : Prop) (Q : Nat → Prop), s.Lands w k C Q := by
  obtain ⟨C, Q, hwhole, htruncate⟩ := hs.truncate_settled (min s.domain.len k)
  have hmin : min s.domain.len (min s.domain.len k) = min s.domain.len k := by omega
  rw [hmin] at htruncate
  refine ⟨C ∧ s.domain.base + min s.domain.len k < 2 ^ 32,
    fun v => v < 2 ^ min s.domain.len k ∧ Q v, fun e hlen hbase w' hl => ?_⟩
  subst hlen
  have hedge := edgeEnd_le
  refine YieldsIff.within (hs.later hl).home ?_
  unfold ValueSet.withDomain
  by_cases heq : e = s.domain
  · subst heq
    obtain ⟨hC, rfl⟩ := hwhole (by omega)
    rw [if_pos rfl, Nat.min_self]
    exact (Runs.pure hl.after ⟨rfl, (hs.later hl).bounded⟩ : Yields _ _ _).yieldsIff
      ⟨hC, by omega⟩
  rw [if_neg heq]
  apply (htruncate e w' hl).bind
  intro f w1 hl1 hf
  apply Runs.lift_bind (Domain.low_eq (Nat.min_le_left _ _))
  apply Runs.lift_bind (Domain.low_eq (Nat.min_le_right _ _))
  by_cases hend : s.domain.base + min s.domain.len e.len < 2 ^ 32
  · have hstop : (s.domain.withLen (min s.domain.len e.len)).stop = _ := Domain.stop_of_le hend
    have hestop : (e.withLen (min s.domain.len e.len)).stop = _ := Domain.stop_of_le (by
      simp only [Domain.withLen_len, Domain.withLen_base]
      omega)
    obtain ⟨names, hnames, hjoin⟩ := Domain.renamingTo_spec hstop hestop
    refine Runs.yieldsIff ?_ hend
    apply Runs.lift_bind hnames
    apply Runs.bind (renamed_yields hjoin hl1.after hf)
    intro g w2 hl2 hg
    apply Runs.bind (pad_yields (e := e) (G := fun v _ => v < 2 ^ min s.domain.len e.len ∧ Q v)
      hl2.after (by omega) (by omega) (fun _ _ hv => hv.1) ?_)
    · intro r w3 hl3 hr
      have hl' := hl.trans (hl1.trans (hl2.trans hl3))
      exact Runs.pure hl3.after ⟨rfl, hs.home.trans hl'.grows.id.symm, hr⟩
    · have hshared : min (min s.domain.len e.len) e.len = min s.domain.len e.len := by omega
      rw [hshared]
      exact hg.congr fun t => (and_iff_right (Domain.read_lt _ t)).symm
  · exact Runs.lift_error hl1.after (Domain.renamingTo_error hend) hend

end ValueSet

end SymbolicAutomata
