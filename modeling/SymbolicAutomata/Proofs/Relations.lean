import SymbolicAutomata.Proofs.Sets
/-!
# Relations between numbers as predicates of tuples

The domains of a relation share no variables, so a tuple can be written down number by number, and
what is done at one position leaves the other numbers of the tuple as they are.
-/
namespace SymbolicAutomata

open Manager Bdd

namespace Domain

variable {ds : List Domain} {d e : Domain} {s t : Assignment} {i j : Nat}

def reads (ds : List Domain) (t : Assignment) : List Nat := ds.map (·.read t)

theorem getElem?_reads : (reads ds t)[i]? = ds[i]?.map (·.read t) := List.getElem?_map

theorem length_reads : (reads ds t).length = ds.length := List.length_map _

theorem apart_of_pairwise (h : ds.Pairwise Apart) (hi : ds[i]? = some d) (hj : ds[j]? = some e)
    (hne : i ≠ j) : d.Apart e := by
  obtain ⟨hil, rfl⟩ := List.getElem?_eq_some_iff.1 hi
  obtain ⟨hjl, rfl⟩ := List.getElem?_eq_some_iff.1 hj
  rcases Nat.lt_or_gt_of_ne hne with hlt | hgt
  · exact List.pairwise_iff_getElem.1 h i j hil hjl hlt
  · exact (List.pairwise_iff_getElem.1 h j i hjl hil hgt).symm

theorem pairwise_set (h : ds.Pairwise Apart)
    (he : ∀ j d, j ≠ i → ds[j]? = some d → d.Apart e) : (ds.set i e).Pairwise Apart := by
  rw [List.pairwise_iff_getElem] at h ⊢
  intro j k hj hk hlt
  rw [List.length_set] at hj hk
  rw [List.getElem_set, List.getElem_set]
  split_ifs with h1 h2 h2
  · omega
  · exact (he k _ (Ne.symm h2) (List.getElem?_eq_getElem hk)).symm
  · exact he j _ (Ne.symm h1) (List.getElem?_eq_getElem hj)
  · exact h j k hj hk hlt

theorem reads_of_agreeOff (h : ds.Pairwise Apart) (hi : ds[i]? = some d) (hst : AgreeOff d s t) :
    reads ds t = (reads ds s).set i (d.read t) := by
  apply List.ext_getElem?
  intro j
  rw [List.getElem?_set, getElem?_reads, getElem?_reads]
  have hlen := (List.getElem?_eq_some_iff.1 hi).1
  split_ifs with hij hlt
  · subst hij
    simp [hi]
  · simp [length_reads] at hlt
    omega
  · cases hj : ds[j]? with
    | none => rfl
    | some e =>
      have hapart := apart_of_pairwise h hj hi (Ne.symm hij)
      simp [hapart.read_eq hst]

theorem reads_set_read (hi : ds[i]? = some d) : (reads ds t).set i (d.read t) = reads ds t := by
  apply List.ext_getElem?
  intro j
  rw [List.getElem?_set, getElem?_reads]
  have hlen := (List.getElem?_eq_some_iff.1 hi).1
  split_ifs with hij hlt
  · subst hij
    simp [hi]
  · simp [length_reads] at hlt
    omega
  · rfl

theorem reads_set_set {v : Nat} : (reads (ds.set i e) t).set i v = (reads ds t).set i v := by
  rw [reads, reads, List.map_set, List.set_set]

theorem reads_set : reads (ds.set i e) t = (reads ds t).set i (e.read t) := List.map_set

theorem free_reads (h : ds.Pairwise Apart) (hi : ds[i]? = some d) (R : List Nat → Prop) (v : Nat) :
    d.Free fun t => R ((reads ds t).set i v) := by
  intro s t hst
  change R ((reads ds s).set i v) ↔ R ((reads ds t).set i v)
  rw [reads_of_agreeOff h hi hst, List.set_set]

theorem exists_reads {ts : List Nat} (h : ds.Pairwise Apart)
    (hts : List.Forall₂ (fun v d => v < 2 ^ d.len) ts ds) : ∃ t, reads ds t = ts := by
  induction hts with
  | nil => exact ⟨fun _ => false, rfl⟩
  | @cons v d ts ds hv _ ih =>
    obtain ⟨hd, hds⟩ := List.pairwise_cons.1 h
    obtain ⟨t, rfl⟩ := ih hds
    refine ⟨d.write v t, ?_⟩
    have htail : reads ds (d.write v t) = reads ds t := by
      apply List.map_congr_left
      intro e he
      exact ((hd e he).symm.read_eq (d.write_agreeOff v t)).symm
    change d.read (d.write v t) :: reads ds (d.write v t) = _
    rw [read_write hv, htail]

theorem exists_patch {u : Assignment} (h : ds.Pairwise Apart) (hd : ds[i]? = some d)
    (hread : d.read t = d.read u) : ∃ x, reads ds x = reads ds u ∧
      ∀ v, (∀ j e, j ≠ i → ds[j]? = some e → ¬ (e.base ≤ v ∧ v < e.base + e.len)) → t v = x v := by
  classical
  let other (v : Nat) : Prop :=
    ∃ j e, j ≠ i ∧ ds[j]? = some e ∧ e.base ≤ v ∧ v < e.base + e.len
  refine ⟨fun v => if other v then u v else t v, ?_, fun v hv => (if_neg ?_).symm⟩
  · apply List.ext_getElem?
    intro j
    rw [getElem?_reads, getElem?_reads]
    cases he : ds[j]? with
    | none => rfl
    | some e =>
      rw [Option.map_some, Option.map_some, Option.some_inj]
      rcases eq_or_ne j i with rfl | hne
      · obtain rfl := Option.some.inj (hd.symm.trans he)
        rw [← hread]
        apply read_congr
        intro v h1 h2
        refine if_neg ?_
        rintro ⟨k, e, hne, hk, h3, h4⟩
        have := apart_of_pairwise h hd hk (Ne.symm hne) v h1 h2 h3
        omega
      · apply read_congr
        intro v h1 h2
        exact if_pos ⟨j, e, hne, he, h1, h2⟩
  · rintro ⟨j, e, hne, he, h1, h2⟩
    exact hv j e hne he ⟨h1, h2⟩

theorem forall₂_reads : List.Forall₂ (fun v d => v < 2 ^ d.len) (reads ds t) ds := by
  induction ds with
  | nil => exact .nil
  | cons d ds ih => exact .cons (d.read_lt t) ih

end Domain

def EndBy (n : Nat) (ds : List Domain) : Prop := ∀ d ∈ ds, d.base + d.len ≤ n

theorem EndBy.mono {n k : Nat} {ds : List Domain} (h : EndBy n ds) (hnk : n ≤ k) : EndBy k ds :=
  fun d hd => Nat.le_trans (h d hd) hnk

theorem EndBy.append {n : Nat} {ds es : List Domain} (h : EndBy n ds) (h' : EndBy n es) :
    EndBy n (ds ++ es) := fun d hd => (List.mem_append.1 hd).elim (h d) (h' d)

theorem EndBy.set {n i : Nat} {ds : List Domain} {e : Domain} (h : EndBy n ds)
    (he : e.base + e.len ≤ n) : EndBy n (ds.set i e) := by
  intro d hd
  rcases List.mem_or_eq_of_mem_set hd with hd | rfl
  · exact h d hd
  · exact he

theorem findM?_eq_none {α : Type} {p : α → Except Failure Bool} {xs : List α}
    (h : ∀ x ∈ xs, p x = .ok false) : xs.findM? p = .ok none := by
  induction xs with
  | nil => rfl
  | cons x xs ih =>
    have hx := h x (by simp)
    have hxs := ih fun y hy => h y (by simp [hy])
    simp only [List.findM?, hx, hxs, bind, Except.bind]

theorem forM_eq_ok {α : Type} {f : α → Except Failure Unit} {xs : List α}
    (h : ∀ x ∈ xs, f x = .ok ()) : xs.forM f = .ok () := by
  induction xs with
  | nil => rfl
  | cons x xs ih =>
    change (f x >>= fun _ => xs.forM f) = _
    rw [h x (by simp)]
    exact ih fun y hy => h y (by simp [hy])

theorem overlapping?_eq_none {ds : List Domain} (h : ds.Pairwise Domain.Apart)
    (hend : EndBy (2 ^ 31) ds) : overlapping? ds = .ok none := by
  classical
  induction ds with
  | nil => rfl
  | cons d ds ih =>
    obtain ⟨hd, hds⟩ := List.pairwise_cons.1 h
    have hends : EndBy (2 ^ 31) ds := fun e he => hend e (by simp [he])
    have hstop : ∀ e ∈ d :: ds, e.stop = .ok (e.base + e.len) := fun e he =>
      Domain.stop_of_le (Nat.lt_of_le_of_lt (hend e he) (by decide))
    have hnone : ds.findM? d.overlaps = .ok none := by
      apply findM?_eq_none
      intro e he
      rw [Domain.overlaps_eq (hstop d (by simp)) (hstop e (by simp [he]))]
      simp [hd e he]
    simp only [overlapping?, hnone, ih hds hends, bind, Except.bind]

theorem topOf_from_ok {ds : List Domain} {a top : Nat}
    (h : ds.foldlM (fun top d => do return max top (← d.stop)) a = (.ok top : Except Failure Nat)) :
    a ≤ top ∧ EndBy top ds ∧ ∀ n, a ≤ n → EndBy n ds → top ≤ n := by
  induction ds generalizing a with
  | nil =>
    obtain rfl : a = top := Except.ok.inj h
    exact ⟨Nat.le_refl a, by simp [EndBy], fun n hn _ => hn⟩
  | cons d ds ih =>
    rw [List.foldlM_cons] at h
    obtain ⟨c, hc, h⟩ := exists_of_bind_eq_ok h
    obtain ⟨k, hk, hc⟩ := exists_of_bind_eq_ok hc
    obtain rfl := Domain.stop_eq hk
    obtain rfl : max a (d.base + d.len) = c := Except.ok.inj hc
    obtain ⟨hle, hends, hleast⟩ := ih h
    refine ⟨by omega, ?_, fun n hn hend => hleast n ?_ fun e he => hend e (by simp [he])⟩
    · intro e he
      rcases List.mem_cons.1 he with rfl | he
      · omega
      · exact hends e he
    · have := hend d (by simp)
      omega

theorem topOf_ok {ds : List Domain} {top : Nat} (h : topOf ds = .ok top) :
    1 ≤ top ∧ EndBy top ds ∧ ∀ n, 1 ≤ n → EndBy n ds → top ≤ n := topOf_from_ok h

theorem exists_topOf_from {ds : List Domain} {a : Nat}
    (hstop : ∀ d ∈ ds, d.stop = .ok (d.base + d.len)) :
    ∃ top, ds.foldlM (fun top d => do return max top (← d.stop)) a =
      (.ok top : Except Failure Nat) := by
  induction ds generalizing a with
  | nil => exact ⟨a, rfl⟩
  | cons d ds ih =>
    obtain ⟨top, htop⟩ := ih (a := max a (d.base + d.len)) fun e he => hstop e (by simp [he])
    refine ⟨top, ?_⟩
    rw [List.foldlM_cons, hstop d (by simp)]
    exact htop

/-- The top is above all domains, and no higher than they need. -/
theorem topOf_spec {ds : List Domain} {n : Nat} (hend : EndBy n ds) (hn : n < 2 ^ 32)
    (h1 : 1 ≤ n) : ∃ top, topOf ds = .ok top ∧ 1 ≤ top ∧ top ≤ n ∧ EndBy top ds := by
  obtain ⟨top, htop⟩ := exists_topOf_from (a := 1) fun d hd =>
    Domain.stop_of_le (Nat.lt_of_le_of_lt (hend d hd) hn)
  obtain ⟨hpos, hends, hleast⟩ := topOf_ok htop
  exact ⟨top, htop, hpos, hleast n h1 hend, hends⟩

namespace Relation

open Domain

/-- The function of the relation holds where the numbers on its domains have the predicate. -/
structure Shows (r : Relation) (m : Manager) (R : List Nat → Prop) : Prop where
  home : r.manager = m.id
  apart : r.domains.Pairwise Apart
  ends : EndBy (2 ^ 31) r.domains
  denotes : m.Denotes r.fn fun t => R (reads r.domains t)

variable {w w' : Workspace} {m : Manager} {r map : Relation} {s : ValueSet} {d e : Domain}
  {ds : List Domain} {R S : List Nat → Prop} {P : Nat → Prop} {pos : Nat}

theorem Shows.later (h : r.Shows w.current R) (hl : w.Leads w') : r.Shows w'.current R :=
  ⟨h.home.trans hl.grows.id.symm, h.apart, h.ends, hl.denotes h.denotes⟩

theorem Shows.congr (h : r.Shows m R)
    (hRS : ∀ ts, List.Forall₂ (fun v d => v < 2 ^ d.len) ts r.domains → (R ts ↔ S ts)) :
    r.Shows m S :=
  ⟨h.home, h.apart, h.ends, h.denotes.congr fun _ => hRS _ forall₂_reads⟩

theorem Shows.unique (h : r.Shows m R) (h' : map.Shows m R) (hd : r.domains = map.domains)
    (hm : m.Canonical) : r = map := by
  obtain ⟨id, ds, f⟩ := r
  obtain ⟨id', ds', f'⟩ := map
  obtain rfl : id = id' := h.home.trans h'.home.symm
  obtain rfl : ds = ds' := hd
  obtain rfl : f = f' := (h.denotes.eq_iff hm h'.denotes).2 fun _ => Iff.rfl
  rfl

theorem Shows.stop (h : r.Shows m R) (hd : d ∈ r.domains) : d.stop = .ok (d.base + d.len) :=
  stop_of_le (Nat.lt_of_le_of_lt (h.ends d hd) (by decide))

theorem domain_eq (h : r.domains[pos]? = some d) : r.domain pos = .ok d := by
  simp [domain, h]

/-- The function as one of the number at a position and of the rest. -/
theorem Shows.at (h : r.Shows m R) (hd : r.domains[pos]? = some d) :
    m.Denotes r.fn fun t => R ((reads r.domains t).set pos (d.read t)) :=
  h.denotes.congr fun t => by rw [reads_set_read hd]

theorem Shows.isEmpty_iff (h : r.Shows m R) (hm : m.Canonical) : r.isEmpty = true ↔
    ∀ ts, List.Forall₂ (fun v d => v < 2 ^ d.len) ts r.domains → ¬ R ts := by
  rw [isEmpty, decide_eq_true_iff, h.denotes.eq_zero_iff hm]
  constructor
  · intro hnone ts hts
    obtain ⟨t, rfl⟩ := exists_reads h.apart hts
    exact hnone t
  · exact fun hnone t => hnone _ forall₂_reads

theorem ofFn_yields {f : Ref} (hw : w.current.WellFormed) (hapart : ds.Pairwise Apart)
    (hends : EndBy (2 ^ 31) ds) (hf : w.current.Denotes f fun t => R (reads ds t)) :
    Yields w (ofFn ds f) fun r m => r.domains = ds ∧ r.Shows m R := by
  refine .lift_bind (overlapping?_eq_none hapart hends) (.ask_bind rfl ?_)
  exact Runs.pure hw ⟨rfl, rfl, hapart, hends, hf⟩

theorem Shows.withFn {f : Ref} (h : r.Shows w.current R) (hl : w.Leads w')
    (hf : w'.current.Denotes f fun t => S (reads r.domains t)) : (r.withFn f).Shows w'.current S :=
  ⟨h.home.trans hl.grows.id.symm, h.apart, h.ends, hf⟩

theorem checkCompatible_eq (h : r.Shows m R) (h' : map.Shows m S) (hd : r.domains = map.domains) :
    r.checkCompatible map = .ok () := by
  simp [checkCompatible, h.home, h'.home, hd]
  rfl

theorem union_yields (hw : w.current.WellFormed) (h : r.Shows w.current R)
    (h' : map.Shows w.current S) (hd : r.domains = map.domains) :
    Yields w (r.union map) fun u m => u.domains = r.domains ∧ u.Shows m fun ts => R ts ∨ S ts := by
  refine .lift_bind (checkCompatible_eq h h' hd) ?_
  refine .bind (disj_yields hw h.denotes h'.denotes) fun f w' hl hf => ?_
  rw [← hd] at hf
  exact Runs.pure hl.after ⟨rfl, h.withFn hl hf⟩

theorem restrict_runs {p : Prop} {C : Prop} (h : r.Shows w.current R)
    (hd : r.domains[pos]? = some d)
    (hs : Runs p w (s.moved d) fun t m => C ∧ t.domain = d ∧ t.Shows m P) :
    Runs p w (r.restrict pos s) fun u m => C ∧ u.domains = r.domains ∧
      u.Shows m fun ts => R ts ∧ ∀ v, ts[pos]? = some v → P v := by
  refine .lift_bind (domain_eq hd) (.bind hs fun t w1 hl1 ht => ?_)
  obtain ⟨hC, rfl, ht⟩ := ht
  refine .bind (.weaken (conj_yields hl1.after (hl1.denotes h.denotes) ht.denotes))
    fun f w2 hl2 hf => ?_
  refine Runs.pure hl2.after ⟨hC, rfl, h.withFn (hl1.trans hl2) (hf.congr fun a => ?_)⟩
  simp [getElem?_reads, hd]

theorem restrict_yields (hw : w.current.WellFormed) (h : r.Shows w.current R)
    (hs : s.Shows w.current P) (hd : r.domains[pos]? = some d) (hfit : s.domain.Fits d P) :
    Yields w (r.restrict pos s) fun u m => u.domains = r.domains ∧
      u.Shows m fun ts => R ts ∧ ∀ v, ts[pos]? = some v → P v :=
  (restrict_runs h hd ((hs.moved hw hfit).imp fun _ _ _ ht => ⟨trivial, ht⟩)).imp
    fun _ _ _ hu => hu.2

theorem project_yields (hw : w.current.WellFormed) (h : r.Shows w.current R)
    (hd : r.domains[pos]? = some d) :
    Yields w (r.project pos) fun u m => u.domains = r.domains ∧
      u.Shows m fun ts => ∃ v < 2 ^ d.len, R (ts.set pos v) := by
  refine .lift_bind (domain_eq hd) ?_
  refine .bind (exist_yields (h.stop (List.mem_of_getElem? hd)) hw (h.at hd)) fun f w1 hl hf => ?_
  refine Runs.pure hl.after ⟨rfl, h.withFn hl (hf.congr fun t => ?_)⟩
  exact exists_agreeOff (G := fun v t => R ((reads r.domains t).set pos v))
    (free_reads h.apart hd R)

/-- All positions but the given ones quantified away: the assignment may be changed on them. -/
theorem projectOthers_from {f : Ref} {F : Assignment → Prop} {l : List (Domain × Nat)}
    (hw : w.current.WellFormed) (hends : ∀ p ∈ l, p.1.base + p.1.len ≤ 2 ^ 31)
    (hf : w.current.Denotes f F) :
    Yields w (l.foldlM (fun f (d, i) => if i = pos then pure f else exist f d) f) fun g m =>
      m.Denotes g fun t => ∃ u, F u ∧ ∀ v, (∀ p ∈ l, p.2 ≠ pos → ¬ (p.1.base ≤ v ∧
        v < p.1.base + p.1.len)) → t v = u v := by
  induction l generalizing w f F with
  | nil =>
    refine Runs.pure hw (hf.congr fun t => ⟨fun h => ⟨t, h, fun _ _ => rfl⟩, ?_⟩)
    rintro ⟨u, hu, heq⟩
    obtain rfl : t = u := funext fun v => heq v (by simp)
    exact hu
  | cons p l ih =>
    obtain ⟨d, i⟩ := p
    have hrest : ∀ p ∈ l, p.1.base + p.1.len ≤ 2 ^ 31 := fun p hp => hends p (by simp [hp])
    rw [List.foldlM_cons]
    by_cases hi : i = pos
    · simp only [hi, ↓reduceIte]
      refine .bind (Runs.pure (Q := fun g m => g = f ∧ m = w.current) hw ⟨rfl, rfl⟩)
        fun g w1 hl1 hg => ?_
      obtain ⟨rfl, -⟩ := hg
      refine (ih hl1.after hrest (hl1.denotes hf)).imp fun r w2 _ hr => hr.congr fun t => ?_
      simp
    · simp only [hi, ↓reduceIte]
      have hd := hends (d, i) (by simp)
      have hstop : d.stop = .ok (d.base + d.len) := stop_of_le (by simp only at hd; omega)
      refine .bind (exist_yields hstop hw hf) fun g w1 hl1 hg => ?_
      refine (ih hl1.after hrest hg).imp fun r w2 _ hr => hr.congr fun t => ?_
      constructor
      · rintro ⟨u, ⟨x, hux, hx⟩, htu⟩
        refine ⟨x, hx, fun v hv => ?_⟩
        rw [htu v fun p hp => hv p (by simp [hp]), hux v (hv (d, i) (by simp) hi)]
      · rintro ⟨x, hx, htx⟩
        refine ⟨fun v => if d.base ≤ v ∧ v < d.base + d.len then t v else x v,
          ⟨x, fun v hv => if_neg hv, hx⟩, fun v hv => ?_⟩
        by_cases hin : d.base ≤ v ∧ v < d.base + d.len
        · exact (if_pos hin).symm
        · refine Eq.trans ?_ (if_neg hin).symm
          apply htx
          intro p hp hne
          rcases List.mem_cons.1 hp with rfl | hp
          · exact hin
          · exact hv p hp hne

/-- All positions but one quantified away: the numbers that occur there, in tuples of the relation
that fit its domains. -/
theorem projectOthers_yields (hw : w.current.WellFormed) (h : r.Shows w.current R)
    (hd : r.domains[pos]? = some d) :
    Yields w (r.projectOthers pos) fun f m => m.Denotes f fun t =>
      ∃ ts, List.Forall₂ (fun v d => v < 2 ^ d.len) ts r.domains ∧ ts[pos]? = some (d.read t) ∧
        R ts := by
  have hends : ∀ p ∈ r.domains.zipIdx, p.1.base + p.1.len ≤ 2 ^ 31 := fun p hp =>
    h.ends p.1 (List.mem_of_getElem? (List.mem_zipIdx_iff_getElem?.1 hp))
  apply (projectOthers_from hw hends h.denotes).imp
  intro f w1 hl1 hf
  refine hf.congr fun t => ?_
  constructor
  · rintro ⟨u, hu, htu⟩
    refine ⟨reads r.domains u, forall₂_reads, ?_, hu⟩
    rw [getElem?_reads, hd, Option.map_some, Option.some_inj]
    apply read_congr
    intro v h1 h2
    refine (htu v fun p hp hne hin => ?_).symm
    have := apart_of_pairwise h.apart hd (List.mem_zipIdx_iff_getElem?.1 hp) (Ne.symm hne) v h1 h2
      hin.1
    omega
  · rintro ⟨ts, hts, hpos, hR⟩
    obtain ⟨u, rfl⟩ := exists_reads h.apart hts
    rw [getElem?_reads, hd, Option.map_some, Option.some_inj] at hpos
    obtain ⟨x, hx, htx⟩ := exists_patch h.apart hd hpos.symm
    rw [← hx] at hR
    exact ⟨x, hR, fun v hv => htx v fun i e hne he =>
      hv (e, i) (List.mem_zipIdx_iff_getElem?.2 he) hne⟩

theorem projectOn_yields (hw : w.current.WellFormed) (h : r.Shows w.current R)
    (hd : r.domains[pos]? = some d) :
    Yields w (r.projectOn pos) fun u m => u.domain = d ∧ u.Shows m fun v =>
      ∃ ts, List.Forall₂ (fun v d => v < 2 ^ d.len) ts r.domains ∧ ts[pos]? = some v ∧ R ts := by
  refine .lift_bind (domain_eq hd) (.bind (projectOthers_yields hw h hd) fun f w1 hl1 hf => ?_)
  exact Runs.pure hl1.after ⟨rfl, h.home.trans hl1.grows.id.symm, hf⟩

theorem checkFree_of_stops (hstop : ∀ d ∈ r.domains, d.stop = .ok (d.base + d.len))
    (he : e.base + e.len < 2 ^ 32)
    (hfree : ∀ i d, i ≠ pos → r.domains[i]? = some d → d.Apart e) :
    r.checkFree pos e = .ok () := by
  classical
  have hestop : e.stop = .ok (e.base + e.len) := stop_of_le he
  apply forM_eq_ok
  rintro ⟨d, i⟩ hp
  have hp := List.mem_zipIdx_iff_getElem?.1 hp
  by_cases hi : i = pos
  · simp [hi]
    rfl
  · have hapart := hfree i d hi hp
    have hdstop := hstop d (List.mem_of_getElem? hp)
    simp [hi, overlaps_eq hdstop hestop, hapart]
    rfl

theorem checkFree_eq (h : r.Shows m R) (he : e.base + e.len < 2 ^ 32)
    (hfree : ∀ i d, i ≠ pos → r.domains[i]? = some d → d.Apart e) :
    r.checkFree pos e = .ok () :=
  checkFree_of_stops (fun _ hd => h.stop hd) he hfree

theorem withDomain_yields (hw : w.current.WellFormed) (h : r.Shows w.current R)
    (hd : r.domains[pos]? = some d) (hfree : ∀ i d, i ≠ pos → r.domains[i]? = some d → d.Apart e)
    (hfit : d.Fits e fun v => ∃ ts, ts[pos]? = some v ∧ R ts) :
    Yields w (r.withDomain pos e) fun u m => u.domains = r.domains.set pos e ∧ u.Shows m R := by
  have hpos := (List.getElem?_eq_some_iff.1 hd).1
  refine .lift_bind (domain_eq hd) ?_
  split_ifs with heq
  · subst heq
    refine Runs.pure hw ⟨?_, h⟩
    obtain ⟨hi, rfl⟩ := List.getElem?_eq_some_iff.1 hd
    rw [List.set_getElem_self]
  · have he : e.base + e.len < 2 ^ 32 := Nat.lt_of_le_of_lt hfit.target (by decide)
    refine .lift_bind (checkFree_eq h he hfree) ?_
    refine .bind (ValueSet.withDomain_yields (s := ⟨r.manager, d, r.fn⟩) hw
      (hfit.imp fun v hv => ?_) (free_reads h.apart hd R) (h.at hd)) fun u w1 hl1 hu => ?_
    · obtain ⟨t, ht⟩ := hv
      refine ⟨_, ?_, ht⟩
      rw [List.getElem?_set_self]
      rwa [length_reads]
    · obtain ⟨-, -, hden⟩ := hu
      refine Runs.pure hl1.after ⟨rfl, h.home.trans hl1.grows.id.symm, pairwise_set h.apart hfree,
        h.ends.set hfit.target, hden.congr fun t => ?_⟩
      change _ ↔ R (reads (r.domains.set pos e) t)
      rw [reads_set]

end Relation

end SymbolicAutomata
