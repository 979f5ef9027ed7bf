import SymbolicAutomata.Proofs.Relations
/-!
# Composition, numbering and images

A composition reads the second number of the map from a scratch block above all others, so neither
its place nor that of the composed position matters. The numbering of a set is a map of this kind.
-/
namespace SymbolicAutomata

open Manager Bdd

namespace Domain

variable {d d' e e' : Domain} {names names' : Renaming} {s : Assignment}

theorem Joins.pull_extend_left (h' : d'.Joins e' names') :
    AgreeOff d' ((names.extend names').pull s) (names.pull s) := by
  classical
  intro v hv
  have hnot : v ∉ names'.names := fun hmem => hv (by have := h'.within v hmem; omega)
  rw [Renaming.pull, Renaming.apply_extend, if_neg hnot, Renaming.pull]

theorem Joins.pull_extend_right (h : d.Joins e names) :
    AgreeOff d ((names.extend names').pull s) (names'.pull s) := by
  classical
  intro v hv
  have hnot : v ∉ names.names := fun hmem => hv (by have := h.within v hmem; omega)
  rw [Renaming.pull, Renaming.apply_extend, Renaming.pull, Renaming.apply_of_notMem hnot]
  split_ifs with hmem
  · rfl
  · rw [Renaming.apply_of_notMem hmem]

theorem Joins.pos_extend (h : d.Joins e names) (h' : d'.Joins e' names') {v : Nat} (hv : 0 < v) :
    0 < (names.extend names').apply v := by
  classical
  rw [Renaming.apply_extend]
  split_ifs
  · exact h'.pos hv
  · exact h.pos hv

/-- Two renamings at once read each number at its new place. -/
theorem Joins.reads_extend (h : d.Joins e names) (h' : d'.Joins e' names') (hapart : d.Apart d')
    (hlen : d.len = e.len) (hlen' : d'.len = e'.len) (s : Assignment) :
    reads [d, d'] ((names.extend names').pull s) = [e.read s, e'.read s] := by
  have hleft : d.read ((names.extend names').pull s) = e.read s := by
    rw [hapart.read_eq h'.pull_extend_left, h.read_of_len hlen]
  have hright : d'.read ((names.extend names').pull s) = e'.read s := by
    rw [hapart.symm.read_eq h.pull_extend_right, h'.read_of_len hlen']
  rw [reads, List.map_cons, List.map_cons, List.map_nil, hleft, hright]

end Domain

/-- The block above all domains, where there is room for one. -/
theorem scratch_spec {ds : List Domain} {top len : Nat} (htop : topOf ds = .ok top)
    (hroom : top + len < 2 ^ 32) :
    ∃ scratch : Domain, Domain.new top len = .ok scratch ∧ scratch.len = len ∧
      scratch.stop = .ok (top + len) ∧ ∀ d ∈ ds, d.Apart scratch := by
  obtain ⟨hpos, htops, -⟩ := topOf_ok htop
  have hne : top ≠ 0 := by omega
  exact ⟨⟨top, len, hne⟩, by simp [Domain.new, hne], rfl, Domain.stop_of_le hroom,
    fun d hd => Domain.apart_of_le (htops d hd)⟩

namespace Relation

open Domain

variable {w : Workspace} {r map : Relation} {d x y : Domain} {R M : List Nat → Prop} {pos top : Nat}

/-- A position followed by a binary relation, as long as the scratch block ends at a word. -/
theorem compose_denotes (hw : w.current.WellFormed) (hapart : r.domains.Pairwise Apart)
    (hr : w.current.Denotes r.fn fun t => R (reads r.domains t))
    (hm : w.current.Denotes map.fn fun t => M (reads map.domains t))
    (hd : r.domains[pos]? = some d) (hmap : map.domains = [x, y]) (hxy : x.Apart y)
    (hlen : x.len = d.len) (htop : topOf (r.domains ++ map.domains) = .ok top)
    (hroom : top + y.len < 2 ^ 32)
    (hfree : ∀ i e, i ≠ pos → r.domains[i]? = some e → e.Apart (d.withLen y.len)) :
    Yields w (r.compose pos map) fun u m => u.manager = r.manager ∧
      u.domains = r.domains.set pos (d.withLen y.len) ∧
      m.Denotes u.fn fun t => ∃ a < 2 ^ d.len, R ((reads u.domains t).set pos a) ∧
        ∀ b, (reads u.domains t)[pos]? = some b → M [a, b] := by
  have hdmem := List.mem_of_getElem? hd
  have hxmem : x ∈ map.domains := by simp [hmap]
  have hymem : y ∈ map.domains := by simp [hmap]
  have hends := (topOf_ok htop).2.1
  have hstop : ∀ e ∈ r.domains ++ map.domains, e.stop = .ok (e.base + e.len) := fun e he =>
    stop_of_le (by have := hends e he; omega)
  have hdstop := hstop d (by simp [hdmem])
  have hend : d.base + y.len < 2 ^ 32 := by
    have := hends d (by simp [hdmem])
    omega
  have htarget : (d.withLen y.len).stop = .ok (d.base + y.len) := stop_of_le hend
  obtain ⟨scratch, hscratch, hslen, hsstop, hsapart⟩ := scratch_spec htop hroom
  obtain ⟨names, hnames, hjoin⟩ := renamingTo_spec (hstop x (by simp [hxmem])) hdstop
  obtain ⟨names', hnames', hjoin'⟩ := renamingTo_spec (hstop y (by simp [hymem])) hsstop
  obtain ⟨back, hback, hjoinb⟩ := renamingTo_spec hsstop htarget
  have hx : map.domain 0 = .ok x := domain_eq (by simp [hmap])
  have hy : map.domain 1 = .ok y := domain_eq (by simp [hmap])
  unfold compose
  simp only [arity, hmap, List.length_cons, List.length_nil, ne_eq, not_true_eq_false, ↓reduceIte]
  refine .lift_bind (domain_eq hd) (.lift_bind hx (.lift_bind hy ?_))
  simp only [hlen, not_true_eq_false, ↓reduceIte]
  rw [← hmap]
  refine .lift_bind (checkFree_of_stops (fun e he => hstop e (by simp [he])) hend hfree)
    (.lift_bind htop (.lift_bind hscratch (.lift_bind hnames (.lift_bind hnames' ?_))))
  refine .bind (rename_yields (fun v => hjoin.pos_extend hjoin') hw hm)
    fun moved w1 hl1 hmoved => ?_
  have hmoved' : w1.current.Denotes moved fun t => M [d.read t, scratch.read t] :=
    hmoved.congr fun t => by rw [hmap, hjoin.reads_extend hjoin' hxy hlen hslen.symm]
  have hr' : w.current.Denotes r.fn fun t => R ((reads r.domains t).set pos (d.read t)) :=
    hr.congr fun t => by rw [reads_set_read hd]
  refine .bind (joinExist_yields hdstop hl1.after (hl1.denotes hr') hmoved')
    fun joined w2 hl2 hjoined => ?_
  have hjoined' : w2.current.Denotes joined fun t => ∃ a < 2 ^ d.len,
      R ((reads r.domains t).set pos a) ∧ M [a, scratch.read t] := by
    refine hjoined.congr fun t => exists_agreeOff
      (G := fun a t => R ((reads r.domains t).set pos a) ∧ M [a, scratch.read t])
      fun a s t hst => ?_
    have hread := (hsapart d (by simp [hdmem])).symm.read_eq hst
    exact and_congr (free_reads hapart hd R a s t hst) (by rw [hread])
  refine .lift_bind hback (.bind (rename_yields (fun v => hjoinb.pos) hl2.after hjoined')
    fun f w3 hl3 hf => ?_)
  refine Runs.pure hl3.after ⟨rfl, rfl, hf.congr fun t => ?_⟩
  have hsame : reads r.domains (back.pull t) = reads r.domains t :=
    List.map_congr_left fun e he =>
      ((hsapart e (by simp [he])).read_eq (hjoinb.agreeOff t)).symm
  have hlast : (reads (r.domains.set pos (d.withLen y.len)) t)[pos]? =
      some ((d.withLen y.len).read t) := by
    rw [getElem?_reads, List.getElem?_set_self (List.getElem?_eq_some_iff.1 hd).1,
      Option.map_some]
  rw [hsame, hjoinb.read_of_len hslen t]
  change _ ↔ ∃ a < 2 ^ d.len, R ((reads (r.domains.set pos (d.withLen y.len)) t).set pos a) ∧
    ∀ b, (reads (r.domains.set pos (d.withLen y.len)) t)[pos]? = some b → M [a, b]
  simp only [hlast, reads_set_set, Option.some_inj, forall_eq']

theorem compose_yields (hw : w.current.WellFormed) (h : r.Shows w.current R)
    (hm : map.Shows w.current M) (hd : r.domains[pos]? = some d) (hmap : map.domains = [x, y])
    (hlen : x.len = d.len) (hend : d.base + y.len ≤ 2 ^ 31)
    (hfree : ∀ i e, i ≠ pos → r.domains[i]? = some e → e.Apart (d.withLen y.len)) :
    Yields w (r.compose pos map) fun u m => u.domains = r.domains.set pos (d.withLen y.len) ∧
      u.Shows m fun ts => ∃ a < 2 ^ d.len, R (ts.set pos a) ∧
        ∀ b, ts[pos]? = some b → M [a, b] := by
  have hxy : x.Apart y := by
    have := hm.apart
    rw [hmap] at this
    exact (List.pairwise_cons.1 this).1 y (by simp)
  have hylen : y.len < 2 ^ 31 := by
    have := hm.ends y (by simp [hmap])
    have := y.base_ne_zero
    omega
  obtain ⟨top, htop, -, hle, -⟩ := topOf_spec (h.ends.append hm.ends) (by decide) (by decide)
  refine (compose_denotes hw h.apart h.denotes hm.denotes hd hmap hxy hlen htop (by omega)
    hfree).imp fun u w₁ hl hu => ?_
  obtain ⟨hman, hdom, hden⟩ := hu
  refine ⟨hdom, hman.trans (h.home.trans hl.grows.id.symm), ?_, ?_, hden⟩
  · rw [hdom]
    exact pairwise_set h.apart hfree
  · rw [hdom]
    exact h.ends.set hend

end Relation

namespace ValueSet

open Domain

variable {w : Workspace} {s : ValueSet} {d : Domain} {map : Relation} {P : Nat → Prop}
  {M : List Nat → Prop}

theorem image_yields {x y : Domain} (hw : w.current.WellFormed) (hs : s.Shows w.current P)
    (hm : map.Shows w.current M) (hmap : map.domains = [x, y]) (hlen : x.len = s.domain.len)
    (hend : s.domain.base + s.domain.len ≤ 2 ^ 31) (hend' : s.domain.base + y.len ≤ 2 ^ 31) :
    Yields w (s.image map) fun u m => u.domain = s.domain.withLen y.len ∧
      u.Shows m fun b => ∃ a < 2 ^ s.domain.len, P a ∧ M [a, b] := by
  have hfn : w.current.Denotes s.fn fun t => ∀ a, (reads [s.domain] t)[0]? = some a → P a :=
    hs.denotes.congr fun t => by simp [reads]
  refine .bind (Relation.ofFn_yields (R := fun ts => ∀ a, ts[0]? = some a → P a) hw
    (List.pairwise_singleton _ _) (by simpa [EndBy] using hend) hfn) fun r w1 hl1 hr => ?_
  obtain ⟨hdom, hr⟩ := hr
  refine .bind (Relation.compose_yields hl1.after hr (hm.later hl1)
    (by rw [hdom]; rfl) hmap hlen hend' fun i e hi he => ?_) fun u w2 hl2 hu => ?_
  · rw [hdom] at he
    cases i with
    | zero => exact absurd rfl hi
    | succ i => simp at he
  · obtain ⟨hudom, hu⟩ := hu
    have hu0 : u.domains = [s.domain.withLen y.len] := by rw [hudom, hdom]; rfl
    refine (Relation.projectOn_yields (d := s.domain.withLen y.len) hl2.after hu
      (by rw [hu0]; rfl)).imp fun v w3 _ hv => ⟨hv.1, hv.2.congr fun b hb => ?_⟩
    rw [hv.1] at hb
    constructor
    · rintro ⟨ts, -, hb, a, ha, hP, hM⟩
      refine ⟨a, ha, hP a ?_, hM b hb⟩
      rw [List.getElem?_set_self]
      exact (List.getElem?_eq_some_iff.1 hb).1
    · rintro ⟨a, ha, hP, hM⟩
      refine ⟨[b], ?_, rfl, a, ha, fun a' ha' => ?_, fun b' hb' => ?_⟩
      · rw [hu0]
        exact .cons hb .nil
      · simp at ha'
        rwa [← ha']
      · simp at hb'
        rwa [← hb']

theorem compress_yields {vs : List Nat} (hw : w.current.WellFormed)
    (hvs : s.toList w.current = .ok vs) (hfew : ∀ v ∈ vs, v < 2 ^ s.domain.len)
    (hlen : s.domain.len ≤ 64) (hbits : bitsNeeded vs.length ≤ 64)
    (hend : s.domain.base + s.domain.len + bitsNeeded vs.length ≤ 2 ^ 31) :
    Yields w s.compress fun u m => ∃ index, u.domains = [s.domain, index] ∧
      index.len = bitsNeeded vs.length ∧
      u.Shows m fun ts => ∃ a i, ts = [a, i] ∧ vs[i]? = some a := by
  have hbase := s.domain.base_ne_zero
  have hstop : s.domain.stop = .ok (s.domain.base + s.domain.len) := stop_of_le (by omega)
  have hne : s.domain.base + s.domain.len ≠ 0 := by omega
  let index : Domain := ⟨s.domain.base + s.domain.len, bitsNeeded vs.length, hne⟩
  have hindex : Domain.new (s.domain.base + s.domain.len) (bitsNeeded vs.length) = .ok index := by
    simp only [Domain.new, hne, ne_eq, not_false_eq_true, ↓reduceDIte, index]
  have hiend : index.base + index.len ≤ 2 ^ 31 := hend
  refine .ask_bind hvs (.lift_bind hstop (.lift_bind hindex ?_))
  refine .bind (disjMap_yields (P := fun p t => s.domain.read t = p.1 ∧ index.read t = p.2) hw
    fun p hp w1 hl1 => ?_) fun f w2 hl2 hf => ?_
  · obtain ⟨v, i⟩ := p
    have hget := List.mem_zipIdx_iff_getElem?.1 hp
    have hi := (List.getElem?_eq_some_iff.1 hget).1
    have hle := le_two_pow_bitsNeeded vs.length
    refine .bind (value_yields hl1.after hlen (by omega) (hfew v (List.mem_of_getElem? hget)))
      fun x w2 hl2 hx => ?_
    refine .bind (value_yields hl2.after hbits hiend (Nat.lt_of_lt_of_le hi hle))
      fun y w3 hl3 hy => ?_
    exact conj_yields hl3.after (hl3.denotes hx) hy
  · have hapart : [s.domain, index].Pairwise Apart := by
      simpa using apart_of_le (Nat.le_refl (s.domain.base + s.domain.len))
    have hends : EndBy (2 ^ 31) [s.domain, index] := by
      intro d hd
      rcases List.mem_pair.1 hd with rfl | rfl
      · omega
      · exact hiend
    refine (Relation.ofFn_yields (R := fun ts => ∃ a i, ts = [a, i] ∧ vs[i]? = some a) hl2.after
      hapart hends (hf.congr fun t => ?_)).imp fun u w3 _ hu => ⟨index, hu.1, rfl, hu.2⟩
    constructor
    · rintro ⟨⟨v, i⟩, hp, rfl, rfl⟩
      exact ⟨_, _, rfl, List.mem_zipIdx_iff_getElem?.1 hp⟩
    · rintro ⟨a, i, heq, hget⟩
      simp only [reads, List.map_cons, List.map_nil, List.cons.injEq, and_true] at heq
      exact ⟨(a, i), List.mem_zipIdx_iff_getElem?.2 hget, heq⟩

end ValueSet

end SymbolicAutomata
