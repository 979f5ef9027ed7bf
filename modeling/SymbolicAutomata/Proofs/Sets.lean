import SymbolicAutomata.Proofs.Counting
import SymbolicAutomata.Proofs.Moves
import SymbolicAutomata.SymbolicNfa
/-!
# Sets of numbers as predicates

A set shows a predicate if its function holds exactly where its domain carries a number with the
predicate. The operations on sets are described by what their results show.
-/
namespace SymbolicAutomata.ValueSet

open Manager Bdd

/-- The function of the set holds where the number on its domain has the predicate. -/
structure Shows (s : ValueSet) (m : Manager) (P : Nat → Prop) : Prop where
  home : s.manager = m.id
  denotes : m.Denotes s.fn fun t => P (s.domain.read t)

variable {w w' : Workspace} {m : Manager} {s t : ValueSet} {d e : Domain} {P Q : Nat → Prop}

theorem Shows.later (h : s.Shows w.current P) (hl : w.Leads w') : s.Shows w'.current P :=
  ⟨h.home.trans hl.grows.id.symm, hl.denotes h.denotes⟩

theorem Shows.congr (h : s.Shows m P) (hPQ : ∀ v < 2 ^ s.domain.len, P v ↔ Q v) : s.Shows m Q :=
  ⟨h.home, h.denotes.congr fun t => hPQ _ (s.domain.read_lt t)⟩

theorem Shows.bounded (h : s.Shows m P) : s.Shows m fun v => v < 2 ^ s.domain.len ∧ P v :=
  h.congr fun v hv => by simp [hv]

theorem Shows.unique (h : s.Shows m P) (h' : t.Shows m P) (hd : s.domain = t.domain)
    (hm : m.Canonical) : s = t := by
  obtain ⟨id, d, f⟩ := s
  obtain ⟨id', d', f'⟩ := t
  obtain rfl : id = id' := h.home.trans h'.home.symm
  obtain rfl : d = d' := hd
  obtain rfl : f = f' := (h.denotes.eq_iff hm h'.denotes).2 fun _ => Iff.rfl
  rfl

theorem forall_read_iff : (∀ t, P (d.read t)) ↔ ∀ v < 2 ^ d.len, P v := by
  constructor
  · intro hall v hv
    have := hall (d.write v fun _ => false)
    rwa [Domain.read_write hv] at this
  · intro hall t
    exact hall _ (d.read_lt t)

theorem Shows.isEmpty_iff (h : s.Shows m P) (hm : m.Canonical) :
    s.isEmpty = true ↔ ∀ v < 2 ^ s.domain.len, ¬ P v := by
  rw [isEmpty, decide_eq_true_iff, h.denotes.eq_zero_iff hm]
  exact forall_read_iff (P := fun v => ¬ P v)

theorem Shows.contains_of_lt (h : s.Shows m P) (hm : m.Canonical)
    (hend : s.domain.base + s.domain.len < 2 ^ 32) (hlen : s.domain.len ≤ 64) {v : Nat}
    (hv : v < 2 ^ s.domain.len) : ∃ b, s.contains v m = .ok b ∧ (b = true ↔ P v) := by
  obtain ⟨id, d, f⟩ := s
  simp only at hend hlen hv
  have hbits : bitOf d v = fun x => .ok (decide (d.base ≤ x ∧ x < d.base + d.len) &&
      decide (x - d.base < 64) && v.testBit (x - d.base)) := by
    funext x
    simp only [bitOf, Domain.contains_eq (Domain.stop_of_le hend), bind, Except.bind, pure,
      Except.pure]
  have hread : d.read (fun x => decide (d.base ≤ x ∧ x < d.base + d.len) &&
      decide (x - d.base < 64) && v.testBit (x - d.base)) = v := by
    rw [Domain.read_eq_iff hv]
    intro i hi
    have h64 : i < 64 := by omega
    simp [hi, h64]
  have hsmall : ¬ (d.len < 64 ∧ v >>> d.len ≠ 0) := by
    rw [shiftRight_ne_zero_iff]
    omega
  change ∃ b, (if d.len < 64 ∧ v >>> d.len ≠ 0 then .ok false else m.evaluate f (bitOf d v)) = _ ∧ _
  rw [if_neg hsmall, hbits, hm.evaluate_eq h.denotes.has]
  refine ⟨_, rfl, ?_⟩
  rw [h.denotes.holds, hread]

theorem contains_of_le {v : Nat} (hlen : s.domain.len < 64) (hv : 2 ^ s.domain.len ≤ v) :
    s.contains v m = .ok false := by
  apply if_pos
  rw [shiftRight_ne_zero_iff]
  omega

theorem Shows.contains_spec (h : s.Shows m P) (hm : m.Canonical)
    (hend : s.domain.base + s.domain.len < 2 ^ 32) (hlen : s.domain.len < 64) (v : Nat) :
    ∃ b, s.contains v m = .ok b ∧ (b = true ↔ v < 2 ^ s.domain.len ∧ P v) := by
  by_cases hv : v < 2 ^ s.domain.len
  · obtain ⟨b, hb, hiff⟩ := h.contains_of_lt hm hend (Nat.le_of_lt hlen) hv
    exact ⟨b, hb, by simp [hiff, hv]⟩
  · exact ⟨false, contains_of_le hlen (Nat.le_of_not_lt hv), by simp [hv]⟩

/-- A word is found exactly where it is, also in sets of words. -/
theorem Shows.contains_word_iff (h : s.Shows m P) (hm : m.Canonical)
    (hend : s.domain.base + s.domain.len < 2 ^ 32) (hlen : s.domain.len ≤ 64) {v : Nat}
    (hv : v < 2 ^ 64) : s.contains v m = .ok true ↔ v < 2 ^ s.domain.len ∧ P v := by
  by_cases hlt : v < 2 ^ s.domain.len
  · obtain ⟨b, hb, hiff⟩ := h.contains_of_lt hm hend hlen hlt
    rw [hb, Except.ok.injEq, hiff, and_iff_right hlt]
  · have hshort : s.domain.len < 64 := by
      refine Nat.lt_of_le_of_ne hlen fun heq => hlt ?_
      rwa [heq]
    rw [contains_of_le hshort (Nat.le_of_not_lt hlt)]
    simp [hlt]

theorem Shows.contains_iff (h : s.Shows m P) (hm : m.Canonical)
    (hend : s.domain.base + s.domain.len < 2 ^ 32) (hlen : s.domain.len < 64) {v : Nat} :
    s.contains v m = .ok true ↔ v < 2 ^ s.domain.len ∧ P v := by
  obtain ⟨b, hb, hiff⟩ := h.contains_spec hm hend hlen v
  rw [hb, Except.ok.injEq, hiff]

theorem Shows.holds_yields (h : s.Shows w.current P) (hw : w.current.WellFormed)
    (hend : s.domain.base + s.domain.len < 2 ^ 32) (hlen : s.domain.len < 64) (v : Nat) :
    Yields w (s.holds v) fun b _ => b = true ↔ v < 2 ^ s.domain.len ∧ P v := by
  obtain ⟨b, hb, hiff⟩ := h.contains_spec hw.canonical hend hlen v
  exact .within h.home (.ask hw hb hiff)

theorem Shows.elements_yields (h : s.Shows w.current P) (hw : w.current.WellFormed)
    (hend : s.domain.base + s.domain.len ≤ 2 ^ 32) (hlen : s.domain.len ≤ 64) :
    Yields w s.elements fun vs _ => ∀ v, v ∈ vs ↔ v < 2 ^ s.domain.len ∧ P v := by
  obtain ⟨vs, hvs, -, hmem⟩ := toList_spec hw.canonical hend hlen h.denotes
  exact .within h.home (.ask hw hvs hmem)

theorem ofFn_yields {f : Ref} (hw : w.current.WellFormed)
    (hf : w.current.Denotes f fun t => P (d.read t)) :
    Yields w (ofFn d f) fun r m => r.domain = d ∧ r.Shows m P :=
  .ask_bind rfl (Runs.pure hw ⟨rfl, rfl, hf⟩)

theorem empty_yields (hw : w.current.WellFormed) :
    Yields w (empty d) fun r m => r.domain = d ∧ r.Shows m fun _ => False :=
  ofFn_yields hw (.zero hw.canonical)

theorem singleton_yields {v : Nat} (hw : w.current.WellFormed) (hlen : d.len ≤ 64)
    (hend : d.base + d.len ≤ 2 ^ 31) (hv : v < 2 ^ d.len) :
    Yields w (singleton d v) fun r m => r.domain = d ∧ r.Shows m fun x => x = v :=
  .bind (value_yields hw hlen hend hv) fun _ _ hl hr => ofFn_yields hl.after hr

theorem ofRange_yields {lo hi : Nat} (hw : w.current.WellFormed) (hlen : d.len ≤ 64)
    (hend : d.base + d.len ≤ 2 ^ 31) (hlo : lo < 2 ^ 64) (hhi : hi < 2 ^ 64) :
    Yields w (range d lo hi) fun r m => r.domain = d ∧ r.Shows m fun x => lo ≤ x ∧ x ≤ hi :=
  .bind (range_yields hw hlen (by omega) hlo hhi) fun _ _ hl hr => ofFn_yields hl.after hr

theorem firstStates_yields {n : Nat} (hw : w.current.WellFormed) (hlen : d.len ≤ 64)
    (hend : d.base + d.len ≤ 2 ^ 31) (hn : n ≤ 2 ^ 64) :
    Yields w (firstStates d n) fun r m => r.domain = d ∧ r.Shows m fun x => x < n := by
  unfold firstStates
  split_ifs with h0
  · exact (empty_yields hw).imp fun r w' _ hr => ⟨hr.1, hr.2.congr fun v _ => by simp [h0]⟩
  · refine (ofRange_yields hw hlen hend (by omega) (by omega)).imp fun r w' _ hr =>
      ⟨hr.1, hr.2.congr fun v _ => ?_⟩
    omega

theorem Shows.withDomain (h : s.Shows w.current P) (hw : w.current.WellFormed)
    (hfit : s.domain.Fits e P) :
    Yields w (s.withDomain e) fun r m => r.domain = e ∧ r.Shows m P := by
  refine (withDomain_yields (G := fun v _ => P v) hw (hfit.imp fun v ⟨_, hv⟩ => hv)
    (fun _ _ _ _ => Iff.rfl) h.denotes).imp fun r w' hl hr => ?_
  obtain ⟨hman, hdom, hden⟩ := hr
  refine ⟨hdom, hman.trans (h.home.trans hl.grows.id.symm), ?_⟩
  rw [hdom]
  exact hden

theorem Shows.widened (h : s.Shows w.current P) (hw : w.current.WellFormed)
    (hend : s.domain.base + s.domain.len < 2 ^ 32) (hlen : s.domain.len ≤ e.len)
    (htarget : e.base + e.len ≤ 2 ^ 31) (hwide : e.len ≤ s.domain.len + 64) :
    Yields w (s.withDomain e) fun r m =>
      r.domain = e ∧ r.Shows m fun v => v < 2 ^ s.domain.len ∧ P v := by
  unfold ValueSet.withDomain
  by_cases heq : e = s.domain
  · rw [if_pos heq, heq]
    exact Runs.pure hw ⟨rfl, h.bounded⟩
  rw [if_neg heq, Nat.min_eq_left hlen]
  have hwhole : s.truncate s.domain.len e = pure s.fn := if_pos (Nat.le_refl _)
  have hstop : (s.domain.withLen s.domain.len).stop = _ := Domain.stop_of_le hend
  have hestop : (e.withLen s.domain.len).stop = _ := Domain.stop_of_le (by
    simp only [Domain.withLen_len, Domain.withLen_base]
    omega)
  obtain ⟨names, hnames, hjoin⟩ := Domain.renamingTo_spec hstop hestop
  simp only [hwhole, pure_bind]
  apply Runs.lift_bind (Domain.low_eq (Nat.le_refl _))
  apply Runs.lift_bind (Domain.low_eq hlen)
  apply Runs.lift_bind hnames
  apply Runs.bind (renamed_yields hjoin hw h.denotes)
  intro f w1 hl1 hf
  apply Runs.bind (pad_yields (e := e) (G := fun v _ => v < 2 ^ s.domain.len ∧ P v) hl1.after
    htarget hwide (fun _ _ hv => hv.1) ?_)
  · intro r w2 hl2 hr
    exact Runs.pure hl2.after ⟨rfl, (h.later (hl1.trans hl2)).home, hr⟩
  · rw [Nat.min_eq_left hlen]
    exact hf.congr fun t => (and_iff_right (Domain.read_lt _ t)).symm

/-- Within its own manager a set is moved as it is. -/
theorem Shows.moved (h : s.Shows w.current P) (hw : w.current.WellFormed)
    (hfit : s.domain.Fits e P) :
    Yields w (s.moved e) fun r m => r.domain = e ∧ r.Shows m P :=
  .within h.home (h.withDomain hw hfit)

section SameDomain

variable (hs : s.Shows w.current P) (ht : t.Shows w.current Q) (hd : s.domain = t.domain)
include hs ht hd

theorem aligned_eq : s.aligned t w = .ok (s.domain, s.fn, t.fn) w := by
  have hman : s.manager = t.manager := hs.home.trans ht.home.symm
  simp only [aligned, hman, hd, ne_eq, not_true_eq_false, ↓reduceIte]
  rfl

theorem aligned_bind {β : Type} {y : Domain × Ref × Ref → BddM β} {R : β → Manager → Prop}
    (hy : Yields w (y (s.domain, s.fn, t.fn)) R) : Yields w (s.aligned t >>= y) R := by
  have hrun : (s.aligned t >>= y) w = y (s.domain, s.fn, t.fn) w := by
    change EStateM.bind (s.aligned t) y w = _
    unfold EStateM.bind
    rw [aligned_eq hs ht hd]
  unfold Yields Runs at hy ⊢
  rwa [hrun]

theorem union_yields (hw : w.current.WellFormed) :
    Yields w (s.union t) fun r m => r.domain = s.domain ∧ r.Shows m fun v => P v ∨ Q v := by
  refine aligned_bind hs ht hd (.bind (disj_yields hw hs.denotes ht.denotes) fun r w' hl hr => ?_)
  rw [← hd] at hr
  exact Runs.pure hl.after ⟨rfl, hs.home.trans hl.grows.id.symm, hr⟩

theorem inter_yields (hw : w.current.WellFormed) :
    Yields w (s.inter t) fun r m => r.domain = s.domain ∧ r.Shows m fun v => P v ∧ Q v := by
  refine aligned_bind hs ht hd (.bind (conj_yields hw hs.denotes ht.denotes) fun r w' hl hr => ?_)
  rw [← hd] at hr
  exact Runs.pure hl.after ⟨rfl, hs.home.trans hl.grows.id.symm, hr⟩

theorem sdiff_yields (hw : w.current.WellFormed) :
    Yields w (s.sdiff t) fun r m => r.domain = s.domain ∧ r.Shows m fun v => P v ∧ ¬ Q v := by
  refine aligned_bind hs ht hd (.bind (diff_yields hw hs.denotes ht.denotes) fun r w' hl hr => ?_)
  rw [← hd] at hr
  exact Runs.pure hl.after ⟨rfl, hs.home.trans hl.grows.id.symm, hr⟩

theorem subset_yields (hw : w.current.WellFormed) :
    Yields w (s.subset t) fun b _ => b = true ↔ ∀ v < 2 ^ s.domain.len, P v → Q v := by
  apply aligned_bind hs ht hd
  apply (implies_yields hw hs.denotes ht.denotes).imp
  intro b w' _ hb
  rw [hb, ← hd]
  exact forall_read_iff (P := fun v => P v → Q v)

theorem same_yields (hw : w.current.WellFormed) :
    Yields w (s.same t) fun b _ => b = true ↔ ∀ v < 2 ^ s.domain.len, P v ↔ Q v := by
  refine aligned_bind hs ht hd (Runs.pure hw ?_)
  rw [decide_eq_true_iff, hs.denotes.eq_iff hw.canonical ht.denotes, ← hd]
  exact forall_read_iff (P := fun v => P v ↔ Q v)

theorem intersects_yields (hw : w.current.WellFormed) :
    Yields w (s.intersects t) fun b _ => b = true ↔ ∃ v < 2 ^ s.domain.len, P v ∧ Q v := by
  apply Runs.bind (inter_yields hs ht hd hw)
  rintro r w1 hl1 ⟨hrd, hr⟩
  refine Runs.pure hl1.after ?_
  have hempty := hr.isEmpty_iff hl1.after.canonical
  rw [hrd] at hempty
  rw [Bool.not_eq_true', Bool.eq_false_iff, ne_eq, hempty]
  push Not
  rfl

end SameDomain

theorem inter_runs {p : Prop} (hw : w.current.WellFormed) (hs : s.Shows w.current P)
    (ht : t.Shows w.current Q) (hd : d = s.domain.withLen (max s.domain.len t.domain.len))
    (hmove : Runs p w (s.withDomain d) fun r m =>
      r.domain = d ∧ r.Shows m fun v => v < 2 ^ s.domain.len ∧ P v)
    (hmove' : ∀ w', w.Leads w' → Runs p w' (t.withDomain d) fun r m =>
      r.domain = d ∧ r.Shows m fun v => v < 2 ^ t.domain.len ∧ Q v) :
    Runs p w (s.inter t) fun r m => r.domain = d ∧
      r.Shows m fun v => (v < 2 ^ s.domain.len ∧ P v) ∧ v < 2 ^ t.domain.len ∧ Q v := by
  by_cases heq : s.domain = t.domain
  · apply (Runs.weaken (inter_yields hs.bounded ht.bounded heq hw)).imp
    intro r w1 _ hr
    refine ⟨hr.1.trans ?_, hr.2⟩
    rw [hd, heq, Nat.max_self]
    rfl
  unfold inter aligned
  rw [if_neg (not_not_intro (hs.home.trans ht.home.symm)), if_neg heq, bind_assoc, ← hd]
  apply Runs.bind hmove
  rintro s' w1 hl1 ⟨hsd, hs'⟩
  rw [bind_assoc]
  apply Runs.bind (hmove' w1 hl1)
  rintro t' w2 hl2 ⟨htd, ht'⟩
  have hs2 := hl2.denotes hs'.denotes
  have ht2 := ht'.denotes
  rw [hsd] at hs2
  rw [htd] at ht2
  apply Runs.bind (Runs.weaken (conj_yields hl2.after hs2 ht2))
  intro f w3 hl3 hf
  have hl := hl1.trans (hl2.trans hl3)
  exact Runs.pure hl3.after ⟨rfl, hs.home.trans hl.grows.id.symm, hf⟩

theorem inter_wider_yields (hw : w.current.WellFormed) (hs : s.Shows w.current P)
    (ht : t.Shows w.current Q) (hroom : s.domain.base + max s.domain.len t.domain.len ≤ 2 ^ 31)
    (hend : t.domain.base + t.domain.len < 2 ^ 32) (hslen : s.domain.len ≤ 64)
    (htlen : t.domain.len ≤ 64) :
    Yields w (s.inter t) fun r m =>
      r.domain = s.domain.withLen (max s.domain.len t.domain.len) ∧
        r.Shows m fun v => (v < 2 ^ s.domain.len ∧ P v) ∧ v < 2 ^ t.domain.len ∧ Q v := by
  apply inter_runs hw hs ht rfl
  · apply hs.widened hw (by omega) (Nat.le_max_left _ _) hroom
    simp only [Domain.withLen_len]
    omega
  · intro w1 hl1
    apply (ht.later hl1).widened hl1.after hend (Nat.le_max_right _ _) hroom
    simp only [Domain.withLen_len]
    omega

end SymbolicAutomata.ValueSet
