import SymbolicAutomata.Proofs.Relations
/-!
# Moving all positions of a relation at once

The positions that change go through blocks above all others. There nothing overlaps, whatever
places the positions exchange.
-/
namespace SymbolicAutomata.Relation

open Manager Bdd Domain

variable {w : Workspace} {r : Relation} {R : List Nat → Prop} {targets : List Domain}
  {ms : List (Nat × Domain)} {base : Nat}

/-- The numbers at a position fit a domain of another width. -/
structure Suits (R : List Nat → Prop) (i : Nat) (d e : Domain) : Prop where
  narrower : d.len ≤ e.len + 64
  wider : e.len ≤ d.len + 64
  small : ∀ ts v, ts[i]? = some v → R ts → v < 2 ^ d.len ∧ v < 2 ^ e.len

theorem Suits.fits {i : Nat} {d e f : Domain} (h : Suits R i d e) (hd : d.base + d.len ≤ 2 ^ 31)
    (hf : f.base + f.len ≤ 2 ^ 31) (hlen : f.len = e.len) :
    d.Fits f fun v => ∃ ts, ts[i]? = some v ∧ R ts where
  source := hd
  target := hf
  narrower := by rw [hlen]; exact h.narrower
  wider := by rw [hlen]; exact h.wider
  small v := by
    rintro ⟨ts, hv, hR⟩
    rw [hlen]
    exact h.small ts v hv hR

abbrev Distinct (ms : List (Nat × Domain)) : Prop := ms.Pairwise fun p q => p.1 ≠ q.1

/-- The positions outside of `ms` keep their domains, and those of `ms` have new ones with `Q`. -/
structure Relocated (Q : Nat × Domain → Domain → Prop) (ms : List (Nat × Domain))
    (ds es : List Domain) : Prop where
  length : es.length = ds.length
  rest : ∀ i, (∀ p ∈ ms, p.1 ≠ i) → es[i]? = ds[i]?
  moved : ∀ p ∈ ms, ∃ d, es[p.1]? = some d ∧ Q p d

section Relocated

variable {Q Q' : Nat × Domain → Domain → Prop} {ds es : List Domain} {p : Nat × Domain}

theorem Relocated.nil : Relocated Q [] ds ds := ⟨rfl, fun _ _ => rfl, by simp⟩

theorem Relocated.mono (h : Relocated Q ms ds es) (hQ : ∀ p d, Q p d → Q' p d) :
    Relocated Q' ms ds es :=
  ⟨h.length, h.rest, fun p hp => (h.moved p hp).imp fun d hd => ⟨hd.1, hQ p d hd.2⟩⟩

theorem Relocated.cons {d : Domain} (hp : ∀ q ∈ ms, p.1 ≠ q.1) (hlt : p.1 < ds.length)
    (hQ : Q p d) (h : Relocated Q ms (ds.set p.1 d) es) : Relocated Q (p :: ms) ds es := by
  refine ⟨by rw [h.length, List.length_set], fun i hi => ?_, fun q hq => ?_⟩
  · rw [h.rest i fun q hq => hi q (by simp [hq]), List.getElem?_set_ne (hi p (by simp))]
  · rcases List.mem_cons.1 hq with rfl | hq
    · refine ⟨d, ?_, hQ⟩
      rw [h.rest q.1 fun q' hq' => Ne.symm (hp q' hq'), List.getElem?_set_self hlt]
    · exact h.moved q hq

theorem suits_later {d : Domain} (hp : ∀ q ∈ ms, p.1 ≠ q.1)
    (hsuits : ∀ q ∈ p :: ms, ∃ d, ds[q.1]? = some d ∧ Suits R q.1 d q.2) :
    ∀ q ∈ ms, ∃ d', (ds.set p.1 d)[q.1]? = some d' ∧ Suits R q.1 d' q.2 := by
  intro q hq
  obtain ⟨d', hd', hs⟩ := hsuits q (by simp [hq])
  refine ⟨d', ?_, hs⟩
  rw [List.getElem?_set_ne (hp q hq), hd']

end Relocated

/-- The moved positions stand on blocks from `base` on, the others where they were. -/
theorem stage_from (hw : w.current.WellFormed) (h : r.Shows w.current R) (hms : Distinct ms)
    (hsuits : ∀ p ∈ ms, ∃ d, r.domains[p.1]? = some d ∧ Suits R p.1 d p.2) (hbase : 1 ≤ base)
    (hends : EndBy base r.domains) (hroom : base + (ms.map fun p => p.2.len).sum ≤ 2 ^ 31) :
    Yields w (ms.foldlM (fun (r, base) (pos, d) => do
      let r ← withDomain r pos (← Domain.new base d.len)
      return (r, ← fits 32 (base + d.len))) (r, base)) fun a m => a.1.Shows m R ∧
        Relocated (fun p d => d.len = p.2.len ∧ base ≤ d.base) ms r.domains a.1.domains := by
  induction ms generalizing w r base with
  | nil => exact Runs.pure hw ⟨h, .nil⟩
  | cons p ms ih =>
    obtain ⟨hp, hms⟩ := List.pairwise_cons.1 hms
    obtain ⟨d, hd, hsuit⟩ := hsuits p (by simp)
    simp only [List.map_cons, List.sum_cons] at hroom
    have hne : base ≠ 0 := by omega
    let block : Domain := ⟨base, p.2.len, hne⟩
    have hblock : Domain.new base p.2.len = .ok block := by simp [Domain.new, hne, block]
    have hbend : block.base + block.len ≤ 2 ^ 31 := by
      change base + p.2.len ≤ 2 ^ 31
      omega
    have hfits : fits 32 (base + p.2.len) = .ok (base + p.2.len) :=
      fits_eq_ok_iff.2 ⟨Nat.lt_of_le_of_lt hbend (by decide), rfl⟩
    have hdend := h.ends d (List.mem_of_getElem? hd)
    rw [List.foldlM_cons]
    refine .bind (Q := fun a m => a.2 = base + p.2.len ∧ a.1.domains = r.domains.set p.1 block ∧
      a.1.Shows m R) (.lift_bind hblock (.bind (withDomain_yields hw h hd (fun i f _ hf =>
        apart_of_le (hends f (List.mem_of_getElem? hf))) (hsuit.fits hdend hbend rfl))
        fun u w1 hl1 hu => .lift_bind hfits (Runs.pure hl1.after ⟨rfl, hu⟩)))
      fun a w1 hl1 ha => ?_
    obtain ⟨u, base'⟩ := a
    obtain ⟨rfl, hdom, hu⟩ := ha
    simp only at hdom hu
    have hends' : EndBy (base + p.2.len) (r.domains.set p.1 block) :=
      (hends.mono (Nat.le_add_right _ _)).set (Nat.le_refl _)
    refine (ih hl1.after hu hms (hdom ▸ suits_later hp hsuits) (by omega) (hdom ▸ hends')
      (by omega)).imp fun b w2 _ hb => ⟨hb.1, ?_⟩
    have hlater := hb.2
    rw [hdom] at hlater
    refine .cons (d := block) hp (List.getElem?_eq_some_iff.1 hd).1 ⟨rfl, Nat.le_refl base⟩ ?_
    exact hlater.mono fun q d hd => ⟨hd.1, by omega⟩

theorem stage_yields (hw : w.current.WellFormed) (h : r.Shows w.current R) (hms : Distinct ms)
    (hsuits : ∀ p ∈ ms, ∃ d, r.domains[p.1]? = some d ∧ Suits R p.1 d p.2) (hbase : 1 ≤ base)
    (hends : EndBy base r.domains) (hroom : base + (ms.map fun p => p.2.len).sum ≤ 2 ^ 31) :
    Yields w (r.stage ms base) fun u m => u.Shows m R ∧
      Relocated (fun p d => d.len = p.2.len ∧ base ≤ d.base) ms r.domains u.domains :=
  .bind (stage_from hw h hms hsuits hbase hends hroom) fun _ _ hl ha => Runs.pure hl.after ha

/-- Positions moved one after the other, each to a domain that is free by then. -/
theorem moveAll_yields (hw : w.current.WellFormed) (h : r.Shows w.current R) (hms : Distinct ms)
    (hapart : ms.Pairwise fun p q => p.2.Apart q.2) (hends : ∀ p ∈ ms, p.2.base + p.2.len ≤ 2 ^ 31)
    (hsuits : ∀ p ∈ ms, ∃ d, r.domains[p.1]? = some d ∧ Suits R p.1 d p.2)
    (hfree : ∀ p ∈ ms, ∀ i d, i ≠ p.1 → r.domains[i]? = some d → d.Apart p.2) :
    Yields w (r.moveAll ms) fun u m => u.Shows m R ∧
      Relocated (fun p d => d = p.2) ms r.domains u.domains := by
  induction ms generalizing w r with
  | nil => exact Runs.pure hw ⟨h, .nil⟩
  | cons p ms ih =>
    obtain ⟨hp, hms⟩ := List.pairwise_cons.1 hms
    obtain ⟨hpa, hapart⟩ := List.pairwise_cons.1 hapart
    obtain ⟨d, hd, hsuit⟩ := hsuits p (by simp)
    have hdend := h.ends d (List.mem_of_getElem? hd)
    have hpos := (List.getElem?_eq_some_iff.1 hd).1
    rw [moveAll, List.foldlM_cons]
    refine .bind (withDomain_yields hw h hd (hfree p (by simp))
      (hsuit.fits hdend (hends p (by simp)) rfl)) fun u w1 hl1 hu => ?_
    obtain ⟨hdom, hu⟩ := hu
    refine (ih hl1.after hu hms hapart (fun q hq => hends q (by simp [hq]))
      (hdom ▸ suits_later hp hsuits) fun q hq i f hi hf => ?_).imp fun b w2 _ hb =>
        ⟨hb.1, .cons hp hpos rfl (hdom ▸ hb.2)⟩
    rcases eq_or_ne i p.1 with rfl | hne
    · rw [hdom, List.getElem?_set_self hpos] at hf
      obtain rfl := Option.some.inj hf
      exact hpa q hq
    · rw [hdom, List.getElem?_set_ne (Ne.symm hne)] at hf
      exact hfree q (by simp [hq]) i f hi hf

def moves (ds targets : List Domain) : List (Nat × Domain) :=
  (ds.zip targets).zipIdx.filterMap fun ((d, e), pos) => if d = e then none else some (pos, e)

section Moves

variable {ds : List Domain} {p : Nat × Domain}

theorem mem_moves :
    p ∈ moves ds targets ↔ ∃ d, ds[p.1]? = some d ∧ targets[p.1]? = some p.2 ∧ d ≠ p.2 := by
  obtain ⟨pos, e⟩ := p
  simp only [moves, List.mem_filterMap, Prod.exists, List.mem_zipIdx_iff_getElem?,
    List.getElem?_zip_eq_some]
  constructor
  · rintro ⟨d, e', i, ⟨hd, he⟩, hsome⟩
    split_ifs at hsome with hne
    simp only [Option.some.injEq, Prod.mk.injEq] at hsome
    obtain ⟨rfl, rfl⟩ := hsome
    exact ⟨d, hd, he, hne⟩
  · rintro ⟨d, hd, he, hne⟩
    exact ⟨d, e, pos, ⟨hd, he⟩, if_neg hne⟩

theorem target_of_unmoved {i : Nat} (hlen : targets.length = ds.length)
    (hi : ∀ p ∈ moves ds targets, p.1 ≠ i) : ds[i]? = targets[i]? := by
  rcases Nat.lt_or_ge i ds.length with hlt | hge
  · have hlt' : i < targets.length := by omega
    rw [List.getElem?_eq_getElem hlt, List.getElem?_eq_getElem hlt', Option.some_inj]
    by_contra hne
    exact hi (i, targets[i]) (mem_moves.2 ⟨_, List.getElem?_eq_getElem hlt,
      List.getElem?_eq_getElem hlt', hne⟩) rfl
  · rw [List.getElem?_eq_none hge, List.getElem?_eq_none (by omega)]

/-- After a stage a position has a new domain, or it is at its target already. -/
theorem Relocated.new_or_target {Q : Nat × Domain → Domain → Prop} {es : List Domain} {i : Nat}
    {d : Domain} (h : Relocated Q (moves ds targets) ds es) (hlen : targets.length = ds.length)
    (hd : es[i]? = some d) : (∃ p, Q p d) ∨ targets[i]? = some d := by
  by_cases hi : ∃ p ∈ moves ds targets, p.1 = i
  · obtain ⟨p, hp, rfl⟩ := hi
    obtain ⟨d', hd', hQ⟩ := h.moved p hp
    obtain rfl := Option.some.inj (hd.symm.trans hd')
    exact .inl ⟨p, hQ⟩
  · have hunmoved : ∀ p ∈ moves ds targets, p.1 ≠ i := fun p hp heq => hi ⟨p, hp, heq⟩
    rw [h.rest i hunmoved, target_of_unmoved hlen hunmoved] at hd
    exact .inr hd

/-- After both stages all positions are at their targets. -/
theorem Relocated.eq_targets {Q : Nat × Domain → Domain → Prop} {es fs : List Domain}
    (h : Relocated Q (moves ds targets) ds es)
    (h' : Relocated (fun p d => d = p.2) (moves ds targets) es fs)
    (hlen : targets.length = ds.length) : fs = targets := by
  refine List.ext_getElem? fun i => ?_
  by_cases hi : ∃ p ∈ moves ds targets, p.1 = i
  · obtain ⟨p, hp, rfl⟩ := hi
    obtain ⟨d, -, he, -⟩ := mem_moves.1 hp
    obtain ⟨d', hd', rfl⟩ := h'.moved p hp
    rw [hd', he]
  · have hunmoved : ∀ p ∈ moves ds targets, p.1 ≠ i := fun p hp heq => hi ⟨p, hp, heq⟩
    rw [h'.rest i hunmoved, h.rest i hunmoved, target_of_unmoved hlen hunmoved]

theorem pairwise_moves {Q : Nat × Domain → Nat × Domain → Prop}
    (hQ : ∀ i j d e, i < j → targets[i]? = some d → targets[j]? = some e → Q (i, d) (j, e)) :
    (moves ds targets).Pairwise Q := by
  rw [moves, List.pairwise_filterMap, List.pairwise_iff_getElem]
  intro i j hi hj hlt p hp q hq
  simp only [List.getElem_zipIdx, List.getElem_zip, Nat.zero_add] at hp hq
  split_ifs at hp hq
  obtain rfl := Option.some.inj hp
  obtain rfl := Option.some.inj hq
  exact hQ i j _ _ hlt (List.getElem?_eq_getElem _) (List.getElem?_eq_getElem _)

theorem sum_from_le (ds targets : List Domain) (k : Nat) :
    ((((ds.zip targets).zipIdx k).filterMap fun ((d, e), pos) =>
      if d = e then none else some (pos, e)).map fun p => p.2.len).sum ≤
      (targets.map Domain.len).sum := by
  induction ds generalizing targets k with
  | nil => simp
  | cons d ds ih =>
    cases targets with
    | nil => simp
    | cons e targets =>
      have hrest := ih targets (k + 1)
      rw [List.zip_cons_cons, List.zipIdx_cons, List.map_cons, List.sum_cons]
      by_cases heq : d = e
      · rw [List.filterMap_cons_none (by simp [heq])]
        omega
      · rw [List.filterMap_cons_some (b := (k, e)) (by simp [heq]), List.map_cons, List.sum_cons]
        exact Nat.add_le_add_left hrest _

theorem sum_moves_le (ds targets : List Domain) :
    ((moves ds targets).map fun p => p.2.len).sum ≤ (targets.map Domain.len).sum :=
  sum_from_le ds targets 0

end Moves

/-- All positions moved at once: the targets may be the old domains in another order. -/
theorem withDomains_yields {n : Nat} (hw : w.current.WellFormed) (h : r.Shows w.current R)
    (hlen : targets.length = r.domains.length) (htargets : targets.Pairwise Apart)
    (hn : 1 ≤ n) (hrn : EndBy n r.domains) (htn : EndBy n targets)
    (hroom : n + ((moves r.domains targets).map fun p => p.2.len).sum ≤ 2 ^ 31)
    (hsuits : ∀ i d e, r.domains[i]? = some d → targets[i]? = some e → d ≠ e → Suits R i d e) :
    Yields w (r.withDomains targets) fun u m => u.domains = targets ∧ u.Shows m R := by
  have hsmall : n ≤ 2 ^ 31 := by omega
  obtain ⟨top, htop, htop1, htople, htops⟩ := topOf_spec (hrn.append htn) (by omega) hn
  have hdistinct : Distinct (moves r.domains targets) :=
    pairwise_moves fun i j _ _ hlt _ _ => Nat.ne_of_lt hlt
  have hapart : (moves r.domains targets).Pairwise fun p q => p.2.Apart q.2 :=
    pairwise_moves fun i j d e hlt hd he => apart_of_pairwise htargets hd he (Nat.ne_of_lt hlt)
  have hms : ∀ p ∈ moves r.domains targets,
      ∃ d, r.domains[p.1]? = some d ∧ Suits R p.1 d p.2 := fun p hp => by
    obtain ⟨d, hd, he, hne⟩ := mem_moves.1 hp
    exact ⟨d, hd, hsuits p.1 d p.2 hd he hne⟩
  unfold withDomains
  rw [if_neg (by simp [arity, hlen])]
  refine .lift_bind htop ?_
  change Yields w (do (← r.stage (moves r.domains targets) top).moveAll (moves r.domains targets)) _
  refine .bind (stage_yields hw h hdistinct hms htop1 (fun d hd => htops d (by simp [hd]))
    (by omega)) fun u w1 hl1 hu => ?_
  obtain ⟨hu, hstaged⟩ := hu
  refine (moveAll_yields hl1.after hu hdistinct hapart (fun p hp => ?_) (fun p hp => ?_)
    fun p hp i d hi hd => ?_).imp fun v w2 _ hv => ?_
  · obtain ⟨d, -, he, -⟩ := mem_moves.1 hp
    have := htn p.2 (List.mem_of_getElem? he)
    omega
  · obtain ⟨d, hd, hlen', -⟩ := hstaged.moved p hp
    obtain ⟨d', -, hsuit⟩ := hms p hp
    refine ⟨d, hd, by omega, by omega, fun ts v hv hR => ?_⟩
    rw [hlen']
    exact ⟨(hsuit.small ts v hv hR).2, (hsuit.small ts v hv hR).2⟩
  · obtain ⟨d', -, he, -⟩ := mem_moves.1 hp
    rcases hstaged.new_or_target hlen hd with ⟨q, -, hbase⟩ | htarget
    · have := htops p.2 (by simp [List.mem_of_getElem? he])
      exact (apart_of_le (by omega)).symm
    · exact apart_of_pairwise htargets htarget he hi
  · exact ⟨hstaged.eq_targets hv.2 hlen, hv.1⟩

end SymbolicAutomata.Relation
