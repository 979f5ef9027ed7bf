import SymbolicAutomata.Proofs.Confinement
import SymbolicAutomata.Proofs.Derivations
import SymbolicAutomata.Proofs.WordLimits
/-!
# Sets are their values

A set is asked for words, and what it answers is all that counts: moves to other domains keep the
answers, and the operations on sets are those on the values, although both sides are moved to a
domain of the first base and the larger width first. The listing of a set, its size and its first
value are read off its function in other ways, and agree with the answers.
-/
namespace SymbolicAutomata

namespace ValueSet

open Manager Bdd

variable {w : Workspace} {m : Manager} {s t : ValueSet} {d e : Domain} {P Q : Nat → Prop}
  {n v : Nat}

/-- A set of words, as a function of the variables of its domain, which are below `n`. -/
structure OfWords (s : ValueSet) (m : Manager) (n : Nat) : Prop where
  home : s.manager = m.id
  confined : m.Confined s.fn [s.domain]
  len_le : s.domain.len ≤ 64
  end_le : s.domain.base + s.domain.len ≤ n

/-- Asked for a word, the set says that it has it. -/
def Has (s : ValueSet) (m : Manager) (v : Nat) : Prop := v < 2 ^ 64 ∧ s.contains v m = .ok true

/-- Asked for any word, the set says whether it has the property. -/
def Answers (s : ValueSet) (m : Manager) (P : Nat → Prop) : Prop :=
  ∀ v < 2 ^ 64, ∃ b, s.contains v m = .ok b ∧ (b = true ↔ P v)

theorem Shows.ofWords (h : s.Shows m P) (hm : m.Canonical) (hlen : s.domain.len ≤ 64)
    (hend : s.domain.base + s.domain.len ≤ n) : s.OfWords m n :=
  ⟨h.home, Denotes.confined (R := fun ts => ∀ v ∈ ts, P v) (h.denotes.congr fun t => by
    simp [Domain.reads]) hm, hlen, hend⟩

theorem Shows.answers (h : s.Shows m P) (hm : m.Canonical) (hlen : s.domain.len ≤ 64)
    (hend : s.domain.base + s.domain.len < 2 ^ 32) (hP : ∀ v, P v → v < 2 ^ s.domain.len) :
    s.Answers m P := by
  intro v hv
  by_cases hlt : v < 2 ^ s.domain.len
  · exact h.contains_of_lt hm hend hlen hlt
  · have hshort : s.domain.len < 64 := by
      refine Nat.lt_of_le_of_ne hlen fun heq => hlt ?_
      rwa [heq]
    refine ⟨false, contains_of_le hshort (Nat.le_of_not_lt hlt), ?_⟩
    exact iff_of_false Bool.false_ne_true fun hPv => hlt (hP v hPv)

theorem Shows.has_iff (h : s.Shows m P) (hm : m.Canonical) (hlen : s.domain.len ≤ 64)
    (hend : s.domain.base + s.domain.len < 2 ^ 32) : s.Has m v ↔ v < 2 ^ s.domain.len ∧ P v := by
  have hpow : 2 ^ s.domain.len ≤ 2 ^ 64 := Nat.pow_le_pow_right (by decide) hlen
  constructor
  · exact fun hv => (h.contains_word_iff hm hend hlen hv.1).1 hv.2
  · intro hv
    have hword := Nat.lt_of_lt_of_le hv.1 hpow
    exact ⟨hword, (h.contains_word_iff hm hend hlen hword).2 hv⟩

namespace OfWords

theorem end_lt (hs : s.OfWords m n) (hn : n ≤ 2 ^ 31) :
    s.domain.base + s.domain.len < 2 ^ 32 :=
  Nat.lt_of_le_of_lt (Nat.le_trans hs.end_le hn) (by decide)

variable (hs : s.OfWords m n) (hm : m.Canonical) (hn : n ≤ 2 ^ 31)
include hs hm hn

theorem shows : s.Shows m (s.Has m) := by
  have hadmits : s.Shows m fun v => m.Admits s.fn [s.domain] [v] :=
    ⟨hs.home, hs.confined.denotes hm⟩
  refine hadmits.congr fun v hv => ?_
  rw [hadmits.has_iff hm hs.len_le (hs.end_lt hn), and_iff_right hv]

theorem lt_of_has (hv : s.Has m v) : v < 2 ^ s.domain.len :=
  (((hs.shows hm hn).has_iff hm hs.len_le (hs.end_lt hn)).1 hv).1

theorem answers : s.Answers m (s.Has m) :=
  (hs.shows hm hn).answers hm hs.len_le (hs.end_lt hn) fun _ => hs.lt_of_has hm hn

end OfWords

theorem OfWords.later {w' : Workspace} (hs : s.OfWords w.current n) (hn : n ≤ 2 ^ 31)
    (hl : w.Leads w') : s.OfWords w'.current n ∧ ∀ v, s.Has w'.current v ↔ s.Has w.current v := by
  have hshows := (hs.shows hl.before.canonical hn).later hl
  refine ⟨hshows.ofWords hl.after.canonical hs.len_le hs.end_le, fun v => ?_⟩
  rw [hshows.has_iff hl.after.canonical hs.len_le (hs.end_lt hn)]
  exact and_iff_right_of_imp (hs.lt_of_has hl.before.canonical hn)

theorem ofList_ofWords {vs : List Nat} (hw : w.current.WellFormed) (hlen : d.len ≤ 64)
    (hend : d.base + d.len ≤ n) (hn : n ≤ 2 ^ 31) (hvs : ∀ v ∈ vs, v < 2 ^ d.len) :
    Yields w (ofList d vs) fun r m => r.OfWords m n ∧ ∀ v, r.Has m v ↔ v ∈ vs := by
  refine (ofList_yields hw hlen (by omega) hvs).imp fun r w₁ hl hr => ?_
  obtain ⟨rfl, hr⟩ := hr
  refine ⟨hr.ofWords hl.after.canonical hlen hend, fun v => ?_⟩
  rw [hr.has_iff hl.after.canonical hlen (by omega)]
  exact and_iff_right_of_imp (hvs v)

theorem lt_two_pow_max {a b : Nat} (h : v < 2 ^ a ∨ v < 2 ^ b) : v < 2 ^ max a b := by
  rcases h with h | h
  · exact Nat.lt_of_lt_of_le h (Nat.pow_le_pow_right (by decide) (Nat.le_max_left a b))
  · exact Nat.lt_of_lt_of_le h (Nat.pow_le_pow_right (by decide) (Nat.le_max_right a b))

/-- A set of words can be moved to a domain exactly if the domain can hold its values, and then
still has them. -/
theorem OfWords.withDomain (hw : w.current.WellFormed) (hs : s.OfWords w.current (2 ^ 30))
    (hlen : e.len ≤ 64) (hend : e.base + e.len ≤ 2 ^ 30) :
    ((∃ r w₁, s.withDomain e w = .ok r w₁) ↔ ∀ v, s.Has w.current v → v < 2 ^ e.len) ∧
      ∀ r w₁, s.withDomain e w = .ok r w₁ → w.Leads w₁ ∧ r.domain = e ∧
        r.OfWords w₁.current (2 ^ 30) ∧ r.Answers w₁.current (s.Has w.current) := by
  have hm := hw.canonical
  have hshows := hs.shows hm (by decide)
  have hlt := fun v => hs.lt_of_has hm (by decide) (v := v)
  have hsend := hs.end_le
  have hslen := hs.len_le
  have hkeeps := hshows.withDomain_fits (e := e) hw
    (Domain.safe_of_ends (by omega) (by omega))
  refine ⟨⟨fun ⟨r, w₁, hrun⟩ v hv => (hkeeps.of_ok hrun).2.1 v (hlt v hv) hv, fun hfits => ?_⟩,
    fun r w₁ hrun => ?_⟩
  · have hfit : s.domain.Fits e (s.Has w.current) :=
      ⟨by omega, by omega, by omega, by omega, fun v hv => ⟨hlt v hv, hfits v hv⟩⟩
    obtain ⟨r, w₁, hrun, -⟩ := yields_iff.1 (hshows.withDomain hw hfit)
    exact ⟨r, w₁, hrun⟩
  · obtain ⟨hl, hfits, rfl, hr⟩ := hkeeps.of_ok hrun
    have hr' := hr.congr fun v _ => and_iff_right_of_imp (hlt v)
    exact ⟨hl, rfl, hr'.ofWords hl.after.canonical hlen hend,
      hr'.answers hl.after.canonical hlen (by omega) fun v hv => hfits v (hlt v hv) hv⟩

section Aligned

variable (hw : w.current.WellFormed) (hs : s.OfWords w.current (2 ^ 30))
  (ht : t.OfWords w.current (2 ^ 30))
include hw hs ht

theorem lt_of_has_either (hv : s.Has w.current v ∨ t.Has w.current v) :
    v < 2 ^ max s.domain.len t.domain.len :=
  lt_two_pow_max (hv.imp (hs.lt_of_has hw.canonical (by decide))
    (ht.lt_of_has hw.canonical (by decide)))

/-- Both functions over the wider of the two domains hold where its number is in the set. -/
theorem aligned_yields : Yields w (s.aligned t) fun y m =>
    y.1 = s.domain.withLen (max s.domain.len t.domain.len) ∧
      m.Denotes y.2.1 (fun a => s.Has w.current (y.1.read a)) ∧
      m.Denotes y.2.2 fun a => t.Has w.current (y.1.read a) := by
  have hm := hw.canonical
  have hsS := hs.shows hm (by decide)
  have htS := ht.shows hm (by decide)
  by_cases heq : s.domain = t.domain
  · have hden := htS.denotes
    rw [← heq] at hden
    refine yields_iff.2 ⟨_, w, aligned_eq hsS htS heq, .refl hw, ?_, hsS.denotes, hden⟩
    rw [← heq, Nat.max_self]
    rfl
  have hslen := hs.len_le
  have htlen := ht.len_le
  have hsend := hs.end_le
  have htend := ht.end_le
  unfold aligned
  rw [if_neg (not_not_intro (hs.home.trans ht.home.symm)), if_neg heq]
  generalize hd : s.domain.withLen (max s.domain.len t.domain.len) = d
  have hbase : d.base = s.domain.base := by rw [← hd]; rfl
  have hlen : d.len = max s.domain.len t.domain.len := by rw [← hd]; rfl
  refine .bind (hsS.widened hw (by omega) (by omega) (by omega) (by omega))
    fun s' w1 hl1 hs' => ?_
  obtain ⟨rfl, hs'⟩ := hs'
  refine .bind ((htS.later hl1).widened (e := s'.domain) hl1.after (by omega) (by omega) (by omega)
    (by omega)) fun t' w2 hl2 ht' => ?_
  obtain ⟨htd, ht'⟩ := ht'
  have hden := ht'.denotes
  rw [htd] at hden
  exact Runs.pure hl2.after ⟨rfl,
    (hl2.denotes hs'.denotes).congr fun a =>
      and_iff_right_of_imp (hs.lt_of_has hm (by decide)),
    hden.congr fun a => and_iff_right_of_imp (ht.lt_of_has hm (by decide))⟩

/-- An operation on functions as an operation on sets over any two domains. -/
theorem combined_yields {C : Prop → Prop → Prop} {op : Ref → Ref → BddM Ref}
    (hop : ∀ w' f g F G, w.Leads w' → w'.current.Denotes f F → w'.current.Denotes g G →
      Yields w' (op f g) fun r m => m.Denotes r fun a => C (F a) (G a)) :
    Yields w (do
      let (d, f, g) ← s.aligned t
      return { s with domain := d, fn := ← op f g }) fun r m =>
        r.domain = s.domain.withLen (max s.domain.len t.domain.len) ∧
          r.Shows m fun v => C (s.Has w.current v) (t.Has w.current v) := by
  refine .bind (aligned_yields hw hs ht) ?_
  rintro ⟨d, f, g⟩ w1 hl1 ⟨rfl, hf, hg⟩
  refine .bind (hop w1 f g _ _ hl1 hf hg) fun r w2 hl2 hr => ?_
  have hl := hl1.trans hl2
  exact Runs.pure hl2.after ⟨rfl, hs.home.trans hl.grows.id.symm, hr⟩

/-- If such an operation adds no values, it makes a set of words. -/
theorem combined_answers {C : Prop → Prop → Prop} {op : Ref → Ref → BddM Ref}
    (hC : ∀ p q, C p q → p ∨ q)
    (hop : ∀ w' f g F G, w.Leads w' → w'.current.Denotes f F → w'.current.Denotes g G →
      Yields w' (op f g) fun r m => m.Denotes r fun a => C (F a) (G a)) :
    Yields w (do
      let (d, f, g) ← s.aligned t
      return { s with domain := d, fn := ← op f g }) fun r m =>
        r.OfWords m (2 ^ 31) ∧
          r.Answers m fun v => C (s.Has w.current v) (t.Has w.current v) := by
  refine (combined_yields hw hs ht hop).imp fun r w1 hl hr => ?_
  obtain ⟨hd, hr⟩ := hr
  have hbase : r.domain.base = s.domain.base := by rw [hd]; rfl
  have hlen : r.domain.len = max s.domain.len t.domain.len := by rw [hd]; rfl
  have hslen := hs.len_le
  have htlen := ht.len_le
  have hsend := hs.end_le
  refine ⟨hr.ofWords hl.after.canonical (by omega) (by omega),
    hr.answers hl.after.canonical (by omega) (by omega) fun v hv => ?_⟩
  rw [hlen]
  exact lt_of_has_either hw hs ht (hC _ _ hv)

theorem union_answers : Yields w (s.union t) fun r m => r.OfWords m (2 ^ 31) ∧
    r.Answers m fun v => s.Has w.current v ∨ t.Has w.current v :=
  combined_answers hw hs ht (fun _ _ => id) fun _ _ _ _ _ hl hf hg => disj_yields hl.after hf hg

theorem inter_answers : Yields w (s.inter t) fun r m => r.OfWords m (2 ^ 31) ∧
    r.Answers m fun v => s.Has w.current v ∧ t.Has w.current v :=
  combined_answers hw hs ht (fun _ _ h => .inl h.1) fun _ _ _ _ _ hl hf hg =>
    conj_yields hl.after hf hg

theorem sdiff_answers : Yields w (s.sdiff t) fun r m => r.OfWords m (2 ^ 31) ∧
    r.Answers m fun v => s.Has w.current v ∧ ¬ t.Has w.current v :=
  combined_answers (C := fun p q => p ∧ ¬ q) hw hs ht (fun _ _ h => .inl h.1)
    fun _ _ _ _ _ hl hf hg => diff_yields hl.after hf hg

theorem subset_iff : Yields w (s.subset t) fun b _ =>
    b = true ↔ ∀ v, s.Has w.current v → t.Has w.current v := by
  refine .bind (aligned_yields hw hs ht) ?_
  rintro ⟨d, f, g⟩ w1 hl1 ⟨rfl, hf, hg⟩
  refine (implies_yields hl1.after hf hg).imp fun b w2 _ hb => hb.trans ?_
  exact (forall_read_iff (P := fun v => s.Has w.current v → t.Has w.current v)).trans
    ⟨fun h v hv => h v (lt_of_has_either hw hs ht (.inl hv)) hv, fun h v _ => h v⟩

theorem same_iff : Yields w (s.same t) fun b _ =>
    b = true ↔ ∀ v, s.Has w.current v ↔ t.Has w.current v := by
  refine .bind (aligned_yields hw hs ht) ?_
  rintro ⟨d, f, g⟩ w1 hl1 ⟨rfl, hf, hg⟩
  refine Runs.pure hl1.after ?_
  rw [decide_eq_true_iff, hf.eq_iff hl1.after.canonical hg]
  refine (forall_read_iff (P := fun v => s.Has w.current v ↔ t.Has w.current v)).trans
    ⟨fun h v => ?_, fun h v _ => h v⟩
  exact ⟨fun hv => (h v (lt_of_has_either hw hs ht (.inl hv))).1 hv,
    fun hv => (h v (lt_of_has_either hw hs ht (.inr hv))).2 hv⟩

theorem intersects_iff : Yields w (s.intersects t) fun b _ =>
    b = true ↔ ∃ v, s.Has w.current v ∧ t.Has w.current v := by
  refine .bind (combined_yields hw hs ht fun _ _ _ _ _ hl hf hg => conj_yields hl.after hf hg)
    fun r w1 hl1 hr => Runs.pure hl1.after ?_
  rw [Bool.not_eq_true', Bool.eq_false_iff, ne_eq, hr.2.isEmpty_iff hl1.after.canonical, hr.1]
  push Not
  exact exists_congr fun v => and_iff_right_of_imp fun hv => lt_of_has_either hw hs ht (.inl hv.1)

end Aligned

/-- Sets of words are values. A set can be moved to every domain that can hold its values, and to
no other one, and keeps them; two sets are the same if and only if they have the same values; and
the operations are those on the values. The domains may lie anywhere, also on top of each other, and
have different widths. -/
theorem values_of_ofWords (hw : w.current.WellFormed) (hs : s.OfWords w.current (2 ^ 30))
    (ht : t.OfWords w.current (2 ^ 30)) :
    (∀ e : Domain, e.len ≤ 64 → e.base + e.len ≤ 2 ^ 30 →
      ((∃ r w₁, s.withDomain e w = .ok r w₁) ↔ ∀ v, s.Has w.current v → v < 2 ^ e.len) ∧
        ∀ r w₁, s.withDomain e w = .ok r w₁ → w.Leads w₁ ∧ r.domain = e ∧
          r.OfWords w₁.current (2 ^ 30) ∧ r.Answers w₁.current (s.Has w.current)) ∧
      Yields w (s.same t) (fun b _ =>
        b = true ↔ ∀ v, s.Has w.current v ↔ t.Has w.current v) ∧
      Yields w (s.union t) (fun r m => r.OfWords m (2 ^ 31) ∧
        r.Answers m fun v => s.Has w.current v ∨ t.Has w.current v) ∧
      Yields w (s.inter t) (fun r m => r.OfWords m (2 ^ 31) ∧
        r.Answers m fun v => s.Has w.current v ∧ t.Has w.current v) ∧
      Yields w (s.sdiff t) (fun r m => r.OfWords m (2 ^ 31) ∧
        r.Answers m fun v => s.Has w.current v ∧ ¬ t.Has w.current v) ∧
      Yields w (s.subset t) (fun b _ =>
        b = true ↔ ∀ v, s.Has w.current v → t.Has w.current v) ∧
      Yields w (s.intersects t) (fun b _ =>
        b = true ↔ ∃ v, s.Has w.current v ∧ t.Has w.current v) :=
  ⟨fun _ hlen hend => hs.withDomain hw hlen hend, same_iff hw hs ht, union_answers hw hs ht,
    inter_answers hw hs ht, sdiff_answers hw hs ht, subset_iff hw hs ht, intersects_iff hw hs ht⟩

/-- Two sets on blocks that overlap: neither is the other, and together they have three values. -/
theorem values_of_ofWords_overlapping : ∃ m, Manager.new 0 1 1 = .ok m ∧
    ∃ s w₁, ofList ⟨1, 2, by decide⟩ [1, 2] ⟨m, []⟩ = .ok s w₁ ∧
    ∃ t w₂, ofList ⟨2, 3, by decide⟩ [2, 5] w₁ = .ok t w₂ ∧ w₂.current.WellFormed ∧
      s.OfWords w₂.current (2 ^ 30) ∧ t.OfWords w₂.current (2 ^ 30) ∧
      Yields w₂ (s.same t) (fun b _ => b = false) ∧
      Yields w₂ (s.union t) fun r m => r.Answers m (· ∈ [1, 2, 5]) := by
  obtain ⟨m, hm⟩ := exists_new
  obtain ⟨s, w₁, hs, hl₁, hsW, hsHas⟩ := yields_iff.1 (ofList_ofWords
    (w := ⟨m, []⟩) (d := ⟨1, 2, by decide⟩) (n := 2 ^ 30) (wellFormed_new hm) (by decide)
    (by decide) (by decide) (by decide : ∀ v ∈ [1, 2], v < 2 ^ 2))
  obtain ⟨t, w₂, ht, hl₂, htW, htHas⟩ := yields_iff.1 (ofList_ofWords
    (d := ⟨2, 3, by decide⟩) (n := 2 ^ 30) hl₁.after (by decide) (by decide) (by decide)
    (by decide : ∀ v ∈ [2, 5], v < 2 ^ 3))
  obtain ⟨hsW, hskeeps⟩ := hsW.later (by decide) hl₂
  obtain ⟨-, hsame, hunion, -⟩ := values_of_ofWords hl₂.after hsW htW
  simp only [hskeeps, hsHas, htHas] at hsame hunion
  refine ⟨m, hm, s, w₁, hs, t, w₂, ht, hl₂.after, hsW, htW, hsame.imp fun b _ _ hb => ?_,
    hunion.imp fun r _ _ hr => ?_⟩
  · rw [Bool.eq_false_iff, ne_eq, hb]
    exact fun hall => absurd (hall 1) (by decide)
  · have hiff : ∀ v, v ∈ [1, 2] ∨ v ∈ [2, 5] ↔ v ∈ [1, 2, 5] := fun v => by
      simp only [List.mem_cons, List.not_mem_nil, or_false]
      tauto
    simpa only [hiff] using hr.2

section Listing

theorem head?_eq_min? {vs : List Nat} (hvs : vs.Pairwise (· < ·)) : vs.head? = vs.min? := by
  cases vs with
  | nil => rfl
  | cons v vs =>
    refine (List.min?_eq_some_iff.2 ⟨List.mem_cons_self, fun u hu => ?_⟩).symm
    rcases List.mem_cons.1 hu with rfl | hu
    · exact Nat.le_refl _
    · exact Nat.le_of_lt ((List.pairwise_cons.1 hvs).1 u hu)

theorem Shows.size_eq_length {vs : List Nat} (hs : s.Shows m P) (hm : m.Canonical)
    (hvs : vs.Pairwise (· < ·)) (hmem : ∀ v, v ∈ vs ↔ v < 2 ^ s.domain.len ∧ P v) :
    s.size m = .ok (min vs.length (2 ^ 64 - 1)) := by
  classical
  have hfilter : (Finset.range (2 ^ s.domain.len)).filter P = vs.toFinset := by
    ext v
    rw [Finset.mem_filter, Finset.mem_range, List.mem_toFinset, hmem]
  rw [size_eq hm hs.denotes, hfilter, List.toFinset_card_of_nodup (hvs.imp Nat.ne_of_lt)]

/-- The listing of a set of words is ascending, and its members are the words that the set says it
has. The size is its length, or the largest word if there are more; the first value is the least
one; and from the listing the same set is made again, over the same domain and with the same
reference. -/
theorem listing_of_ofWords (hw : w.current.WellFormed) (hs : s.OfWords w.current (2 ^ 31)) :
    ∃ vs, s.toList w.current = .ok vs ∧ vs.Pairwise (· < ·) ∧ (∀ v ∈ vs, v < 2 ^ 64) ∧
      s.Answers w.current (· ∈ vs) ∧
      s.size w.current = .ok (min vs.length (2 ^ 64 - 1)) ∧
      s.first? w.current = .ok vs.min? ∧
      ∃ w₁, ofList s.domain vs w = .ok s w₁ ∧ w.Leads w₁ := by
  have hm := hw.canonical
  have hend := hs.end_lt (by decide)
  have hshows := hs.shows hm (by decide)
  obtain ⟨vs, hvs, hsorted, hmem⟩ := toList_spec hm (by omega) hs.len_le hshows.denotes
  have hhas : ∀ v, v ∈ vs ↔ s.Has w.current v := fun v =>
    (hmem v).trans (and_iff_right_of_imp (hs.lt_of_has hm (by decide)))
  obtain ⟨r, w₁, hrun, hl, hdom, hr⟩ := yields_iff.1
    (ofList_yields hw hs.len_le hs.end_le fun v hv => ((hmem v).1 hv).1)
  obtain rfl : r = s := (hr.congr fun v _ => hhas v).unique (hshows.later hl) hdom
    hl.after.canonical
  refine ⟨vs, hvs, hsorted, fun v hv => ((hhas v).1 hv).1, fun v hv => ?_,
    hshows.size_eq_length hm hsorted hmem, ?_, w₁, hrun, hl⟩
  · obtain ⟨b, hb, hiff⟩ := hs.answers hm (by decide) v hv
    exact ⟨b, hb, hiff.trans (hhas v).symm⟩
  · rw [← head?_eq_min? hsorted, first?, hvs]
    rfl

/-- The highest value of 64 bits and the lowest one, listed in order. -/
theorem listing_of_ofWords_extremes : ∃ m, Manager.new 0 1 1 = .ok m ∧
    ∃ s w₁, ofList ⟨7, 64, by decide⟩ [2 ^ 64 - 1, 0] ⟨m, []⟩ = .ok s w₁ ∧
      w₁.current.WellFormed ∧ s.OfWords w₁.current (2 ^ 31) ∧
      ∃ vs, s.toList w₁.current = .ok vs ∧ vs.Pairwise (· < ·) ∧
        (∀ v, v ∈ vs ↔ v ∈ [2 ^ 64 - 1, 0]) ∧ s.first? w₁.current = .ok vs.min? ∧
        ∃ w₂, ofList s.domain vs w₁ = .ok s w₂ := by
  obtain ⟨m, hm⟩ := exists_new
  generalize hd : (⟨7, 64, by decide⟩ : Domain) = d
  have hbase : d.base = 7 := by rw [← hd]
  have hlen : d.len = 64 := by rw [← hd]
  have hfits : ∀ v ∈ [2 ^ 64 - 1, 0], v < 2 ^ d.len := by
    rw [hlen]
    decide
  obtain ⟨s, w₁, hs, hl, hsW, hsHas⟩ := yields_iff.1 (ofList_ofWords (w := ⟨m, []⟩) (n := 2 ^ 31)
    (wellFormed_new hm) (by omega) (by omega) (by omega) hfits)
  obtain ⟨vs, hvs, hsorted, hwords, hanswers, -, hfirst, w₂, hagain, -⟩ :=
    listing_of_ofWords hl.after hsW
  refine ⟨m, hm, s, w₁, hs, hl.after, hsW, vs, hvs, hsorted, fun v => ?_, hfirst, w₂, hagain⟩
  rw [← hsHas]
  constructor
  · intro hv
    obtain ⟨b, hb, hiff⟩ := hanswers v (hwords v hv)
    exact ⟨hwords v hv, by rw [hb, hiff.2 hv]⟩
  · intro hv
    obtain ⟨b, hb, hiff⟩ := hanswers v hv.1
    exact hiff.1 (Except.ok.inj (hb.symm.trans hv.2))

end Listing

end ValueSet

end SymbolicAutomata
