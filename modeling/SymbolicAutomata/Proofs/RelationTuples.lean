import SymbolicAutomata.Proofs.Compositions
import SymbolicAutomata.Proofs.Confinement
import SymbolicAutomata.Proofs.Staging
/-!
# Relations are their tuples

A relation holds of a tuple if its function is true where the domains carry the numbers of the
tuple. Composition is described in these terms alone: neither the places of the two domains of the
map nor the scratch block show in the result.
-/
namespace SymbolicAutomata

theorem forall₂_set {α β : Type} {S : α → β → Prop} {xs : List α} {ys : List β} {x : α} {y : β}
    {i : Nat} (h : List.Forall₂ S xs ys) (hxy : S x y) :
    List.Forall₂ S (xs.set i x) (ys.set i y) := by
  induction h generalizing i with
  | nil => exact .nil
  | cons hab h ih =>
    cases i with
    | zero => exact .cons hxy h
    | succ i => exact .cons hab ih

namespace Relation

open Domain Manager Bdd

variable {w : Workspace} {m : Manager} {r map : Relation} {d x y : Domain} {R M : List Nat → Prop}
  {pos : Nat} {ts : List Nat} {targets : List Domain}

/-- A relation over disjoint domains, as a function of their variables. -/
structure OfNumbers (r : Relation) (m : Manager) : Prop where
  home : r.manager = m.id
  apart : r.domains.Pairwise Apart
  confined : m.Confined r.fn r.domains

/-- The relation contains the tuple. -/
def Holds (r : Relation) (m : Manager) (ts : List Nat) : Prop := m.Admits r.fn r.domains ts

theorem Holds.fits (h : r.Holds m ts) : List.Forall₂ (fun v d => v < 2 ^ d.len) ts r.domains := by
  obtain ⟨s, rfl, -⟩ := h
  exact forall₂_reads

/-- What position `pos`, over the domain `d`, needs to be followed by a map from `x` to `y`: the
domain with the width of `y` is free, and there is room for a block of this width above all
domains. -/
structure Follows (r map : Relation) (pos : Nat) (d x y : Domain) : Prop where
  position : r.domains[pos]? = some d
  binary : map.domains = [x, y]
  width : x.len = d.len
  free : ∀ i e, i ≠ pos → r.domains[i]? = some e → e.Apart (d.withLen y.len)
  room : ∀ e ∈ r.domains ++ map.domains, e.base + e.len + y.len < 2 ^ 32

theorem Follows.exists_top (h : r.Follows map pos d x y) :
    ∃ top, topOf (r.domains ++ map.domains) = .ok top ∧ top + y.len < 2 ^ 32 := by
  have hd := h.room d (by simp [List.mem_of_getElem? h.position])
  have hbase := d.base_ne_zero
  have hends : EndBy (2 ^ 32 - 1 - y.len) (r.domains ++ map.domains) := fun e he => by
    have := h.room e he
    omega
  obtain ⟨top, htop, -, hle, -⟩ := topOf_spec hends (by omega) (by omega)
  exact ⟨top, htop, by omega⟩

/-- Some number that `d` can carry leads to the number at the position, and makes a tuple of the
relation in its place. -/
def Followed (r map : Relation) (m : Manager) (pos : Nat) (d : Domain) (ts : List Nat) : Prop :=
  ∃ a < 2 ^ d.len, r.Holds m (ts.set pos a) ∧ ∀ b, ts[pos]? = some b → map.Holds m [a, b]

/-- Tuples of the relation and the map fit their domains. -/
theorem followed_iff (h : r.Follows map pos d x y) :
    List.Forall₂ (fun v d => v < 2 ^ d.len) ts (r.domains.set pos (d.withLen y.len)) ∧
      r.Followed map m pos d ts ↔
      ∃ a b, ts[pos]? = some b ∧ r.Holds m (ts.set pos a) ∧ map.Holds m [a, b] := by
  obtain ⟨hpos, hdpos⟩ := List.getElem?_eq_some_iff.1 h.position
  constructor
  · rintro ⟨hts, a, -, hr, hmap⟩
    have hlen : pos < ts.length := by
      rw [hts.length_eq, List.length_set]
      exact hpos
    have hb := List.getElem?_eq_getElem hlen
    exact ⟨a, _, hb, hr, hmap _ hb⟩
  · rintro ⟨a, b, hb, hr, hmap⟩
    obtain ⟨hlen, rfl⟩ := List.getElem?_eq_some_iff.1 hb
    have hab := hmap.fits
    rw [h.binary] at hab
    have hy : ts[pos] < 2 ^ y.len := (List.forall₂_cons.1 (List.forall₂_cons.1 hab).2).1
    have ha := hr.fits.get (by rwa [List.length_set]) hpos
    simp only [List.get_eq_getElem, List.getElem_set_self, hdpos] at ha
    refine ⟨?_, a, ha, hr, fun b hb' => ?_⟩
    · have hset := forall₂_set (i := pos) hr.fits (y := d.withLen y.len) hy
      rwa [List.set_set, List.set_getElem_self] at hset
    · rwa [← Option.some.inj (hb.symm.trans hb')]

/-- Composition returns wherever the widened position is free and the scratch block ends at a word.
The map may lie anywhere, also on top of the relation. The position gets the domain with the width
of the second one of the map, and the result contains a tuple if and only if some number leads to
the number at the position and makes a tuple of the relation in its place. -/
theorem compose_of_ofNumbers (hw : w.current.WellFormed) (hr : r.OfNumbers w.current)
    (hmap : map.OfNumbers w.current) (h : r.Follows map pos d x y) :
    Yields w (r.compose pos map) fun u m =>
      u.domains = r.domains.set pos (d.withLen y.len) ∧ u.OfNumbers m ∧
        ∀ ts, u.Holds m ts ↔ ∃ a b, ts[pos]? = some b ∧ r.Holds w.current (ts.set pos a) ∧
          map.Holds w.current [a, b] := by
  have hm := hw.canonical
  have hxy : x.Apart y := by
    have hapart := hmap.apart
    rw [h.binary] at hapart
    exact (List.pairwise_cons.1 hapart).1 y (by simp)
  obtain ⟨top, htop, hroom⟩ := h.exists_top
  refine (compose_denotes (R := r.Holds w.current) (M := map.Holds w.current) hw hr.apart
    (hr.confined.denotes hm) (hmap.confined.denotes hm) h.position h.binary hxy h.width htop hroom
    h.free).imp fun u w₁ hl hu => ?_
  obtain ⟨hman, hdom, hden⟩ := hu
  have hcanonical := hl.after.canonical
  have hapart : u.domains.Pairwise Apart := by
    rw [hdom]
    exact pairwise_set hr.apart h.free
  have hden : w₁.current.Denotes u.fn fun t =>
      r.Followed map w.current pos d (reads u.domains t) := hden
  refine ⟨hdom, ⟨hman.trans (hr.home.trans hl.grows.id.symm), hapart, hden.confined hcanonical⟩,
    fun ts => ?_⟩
  rw [Holds, hden.admits_iff hcanonical hapart, hdom]
  exact followed_iff h

/-- Pairs whose first number has its second bit set, followed by a map to 1 whose domains lie across
both blocks of the relation. -/
theorem compose_of_ofNumbers_across : ∃ m, Manager.new 0 1 1 = .ok m ∧
    ∃ f w₁, literal 2 ⟨m, []⟩ = .ok f w₁ ∧ ∃ g w₂, literal 4 w₁ = .ok g w₂ ∧
    ∃ r map : Relation, r = ⟨w₂.current.id, [⟨1, 2, by decide⟩, ⟨3, 1, by decide⟩], f⟩ ∧
      map = ⟨w₂.current.id, [⟨2, 2, by decide⟩, ⟨4, 1, by decide⟩], g⟩ ∧
      w₂.current.WellFormed ∧ r.OfNumbers w₂.current ∧ map.OfNumbers w₂.current ∧
      r.Follows map 0 ⟨1, 2, by decide⟩ ⟨2, 2, by decide⟩ ⟨4, 1, by decide⟩ ∧
      ∃ u w₃, r.compose 0 map w₂ = .ok u w₃ ∧
        u.domains = [⟨1, 1, by decide⟩, ⟨3, 1, by decide⟩] ∧ u.Holds w₃.current [1, 0] := by
  have hruns : ∃ m, Manager.new 0 1 1 = .ok m ∧
      ∃ f w₁, literal 2 ⟨m, []⟩ = .ok f w₁ ∧ ∃ g w₂, literal 4 w₁ = .ok g w₂ ∧
        (∃ vs, w₂.current.support f = .ok vs ∧ vs = [2]) ∧
        ∃ vs, w₂.current.support g = .ok vs ∧ vs = [4] := by
    decide +kernel
  obtain ⟨m, hm, f, w₁, hf, g, w₂, hg, ⟨_, hfs, rfl⟩, _, hgs, rfl⟩ := hruns
  obtain ⟨hl₁, hfd⟩ := (literal_yields (w := ⟨m, []⟩) (wellFormed_new hm) (by decide)).of_ok hf
  obtain ⟨hl₂, hgd⟩ := (literal_yields hl₁.after (by decide)).of_ok hg
  have hfd := hl₂.denotes hfd
  have hw₂ := hl₂.after
  have hr : Relation.OfNumbers ⟨w₂.current.id, [⟨1, 2, by decide⟩, ⟨3, 1, by decide⟩], f⟩
      w₂.current :=
    ⟨rfl, by simpa using apart_of_le (d := ⟨1, 2, by decide⟩) (e := ⟨3, 1, by decide⟩) (by decide),
      hfd.has, _, hfs, by simp⟩
  have hmap : Relation.OfNumbers ⟨w₂.current.id, [⟨2, 2, by decide⟩, ⟨4, 1, by decide⟩], g⟩
      w₂.current :=
    ⟨rfl, by simpa using apart_of_le (d := ⟨2, 2, by decide⟩) (e := ⟨4, 1, by decide⟩) (by decide),
      hgd.has, _, hgs, by simp⟩
  have hfollows : Relation.Follows ⟨w₂.current.id, [⟨1, 2, by decide⟩, ⟨3, 1, by decide⟩], f⟩
      ⟨w₂.current.id, [⟨2, 2, by decide⟩, ⟨4, 1, by decide⟩], g⟩ 0 ⟨1, 2, by decide⟩
      ⟨2, 2, by decide⟩ ⟨4, 1, by decide⟩ := by
    refine ⟨rfl, rfl, rfl, fun i e hi he => ?_, by simp⟩
    rcases i with _ | _ | i
    · exact absurd rfl hi
    · obtain rfl := Option.some.inj he
      exact (apart_of_le (by decide)).symm
    · simp at he
  obtain ⟨u, w₃, hu, -, hdom, -, hholds⟩ :=
    yields_iff.1 (compose_of_ofNumbers hw₂ hr hmap hfollows)
  have hc := hw₂.canonical
  have hfirst :
      reads [⟨1, 2, by decide⟩, ⟨3, 1, by decide⟩] (fun v => decide (v = 2)) = [2, 0] := by
    decide
  have hsecond : reads [⟨2, 2, by decide⟩, ⟨4, 1, by decide⟩]
      (fun v => decide (v = 3 ∨ v = 4)) = [2, 1] := by
    decide
  refine ⟨m, hm, f, w₁, hf, g, w₂, hg, _, _, rfl, rfl, hw₂, hr, hmap, hfollows, u, w₃, hu, hdom,
    (hholds [1, 0]).2 ⟨2, 1, rfl, ?_, ?_⟩⟩
  · exact ⟨_, hfirst, (hc.eval_eq_iff hfd.has).1 ((hfd.holds _).2 (by decide))⟩
  · exact ⟨_, hsecond, (hc.eval_eq_iff hgd.has).1 ((hgd.holds _).2 (by decide))⟩

/-- What the positions of a relation need to move to `targets` at once: a target is at most 64 bits
narrower or wider, it can carry the numbers at its position, and the blocks that the moving
positions pass through, above all domains, stay below `2 ^ 31`. Where nothing moves, the domains
only need to end at a word. -/
structure MovesTo (r : Relation) (m : Manager) (targets : List Domain) : Prop where
  arity : targets.length = r.domains.length
  apart : targets.Pairwise Apart
  widths : ∀ (i : Nat) (d e : Domain), r.domains[i]? = some d → targets[i]? = some e →
    d.len ≤ e.len + 64 ∧ e.len ≤ d.len + 64
  values : ∀ ts, r.Holds m ts → List.Forall₂ (fun v e => v < 2 ^ e.len) ts targets
  ends : EndBy (2 ^ 32 - 1) (r.domains ++ targets)
  room : ∀ p ∈ moves r.domains targets, ∀ d ∈ r.domains ++ targets,
    d.base + d.len + ((moves r.domains targets).map fun p => p.2.len).sum ≤ 2 ^ 31

theorem MovesTo.suits (h : r.MovesTo m targets) {i : Nat} {e : Domain}
    (hd : r.domains[i]? = some d) (he : targets[i]? = some e) : Suits (r.Holds m) i d e where
  narrower := (h.widths i d e hd he).1
  wider := (h.widths i d e hd he).2
  small ts v hv hR := by
    obtain ⟨hi, rfl⟩ := List.getElem?_eq_some_iff.1 hv
    obtain ⟨hdi, rfl⟩ := List.getElem?_eq_some_iff.1 hd
    obtain ⟨hei, rfl⟩ := List.getElem?_eq_some_iff.1 he
    exact ⟨hR.fits.get hi hdi, (h.values ts hR).get hi hei⟩

/-- Where some position moves, all domains end below the blocks that it passes through. -/
theorem MovesTo.exists_end (h : r.MovesTo m targets) (hmoves : moves r.domains targets ≠ []) :
    ∃ n, 1 ≤ n ∧ n + ((moves r.domains targets).map fun p => p.2.len).sum ≤ 2 ^ 31 ∧
      EndBy n (r.domains ++ targets) := by
  obtain ⟨p, hp⟩ := List.exists_mem_of_ne_nil _ hmoves
  obtain ⟨d, hd, -⟩ := mem_moves.1 hp
  have hroom := h.room p hp d (by simp [List.mem_of_getElem? hd])
  have hbase := d.base_ne_zero
  refine ⟨2 ^ 31 - ((moves r.domains targets).map fun p => p.2.len).sum, by omega, by omega, ?_⟩
  intro e he
  have := h.room p hp e he
  omega

/-- Where no position moves, the relation is returned. -/
theorem withDomains_of_unmoved (hw : w.current.WellFormed)
    (hlen : targets.length = r.domains.length) (hends : EndBy (2 ^ 32 - 1) (r.domains ++ targets))
    (hmoves : moves r.domains targets = []) :
    Yields w (r.withDomains targets) fun u m => u = r ∧ m = w.current := by
  obtain ⟨top, htop, -⟩ := topOf_spec hends (by decide) (by decide)
  rw [withDomains, if_neg (by simp [arity, hlen])]
  refine .lift_bind htop ?_
  change Yields w (do (← r.stage (moves r.domains targets) top).moveAll (moves r.domains targets)) _
  rw [hmoves]
  exact Runs.pure hw ⟨rfl, rfl⟩

/-- All positions moved at once. The targets may be the old domains in another order, lie across
them and be wider or narrower, and nothing collides on the way: the result is over the targets and
contains the same tuples. -/
theorem withDomains_of_ofNumbers (hw : w.current.WellFormed) (hr : r.OfNumbers w.current)
    (h : r.MovesTo w.current targets) :
    Yields w (r.withDomains targets) fun u m =>
      u.domains = targets ∧ u.OfNumbers m ∧ ∀ ts, u.Holds m ts ↔ r.Holds w.current ts := by
  by_cases hmoves : moves r.domains targets = []
  · have hunmoved : r.domains = targets :=
      List.ext_getElem? fun i => target_of_unmoved h.arity (by simp [hmoves])
    refine (withDomains_of_unmoved hw h.arity h.ends hmoves).imp fun u w₁ _ hu => ?_
    obtain ⟨rfl, hm⟩ := hu
    rw [hm]
    exact ⟨hunmoved, hr, fun _ => Iff.rfl⟩
  obtain ⟨n, hn, hroom, hends⟩ := h.exists_end hmoves
  have hrends : EndBy n r.domains := fun d hd => hends d (by simp [hd])
  have hshows : r.Shows w.current (r.Holds w.current) :=
    ⟨hr.home, hr.apart, hrends.mono (by omega), hr.confined.denotes hw.canonical⟩
  refine (withDomains_yields hw hshows h.arity h.apart hn hrends
    (fun d hd => hends d (by simp [hd])) hroom fun i d e hd he _ => h.suits hd he).imp
    fun u w₁ hl hu => ?_
  obtain ⟨rfl, hu⟩ := hu
  have hcanonical := hl.after.canonical
  refine ⟨rfl, ⟨hu.home, hu.apart, hu.denotes.confined hcanonical⟩, fun ts => ?_⟩
  rw [Holds, hu.denotes.admits_iff hcanonical hu.apart]
  exact and_iff_right_of_imp (h.values ts)

/-- Triples whose first number is below two, with the blocks of the first two positions exchanged:
the first one becomes narrower, the second one wider, and the third one stays. -/
theorem withDomains_of_ofNumbers_exchange : ∃ m, Manager.new 0 1 1 = .ok m ∧
    ∃ f w₁, literal 2 ⟨m, []⟩ = .ok f w₁ ∧ ∃ (r : Relation) (targets : List Domain),
      r = ⟨w₁.current.id, [⟨1, 2, by decide⟩, ⟨3, 1, by decide⟩, ⟨4, 1, by decide⟩], -f⟩ ∧
      targets = [⟨3, 1, by decide⟩, ⟨1, 2, by decide⟩, ⟨4, 1, by decide⟩] ∧
      w₁.current.WellFormed ∧ r.OfNumbers w₁.current ∧ r.MovesTo w₁.current targets ∧
      ∃ u w₂, r.withDomains targets w₁ = .ok u w₂ ∧ u.domains = targets ∧
        u.Holds w₂.current [1, 0, 1] ∧ ¬ u.Holds w₂.current [2, 0, 1] := by
  have hruns : ∃ m, Manager.new 0 1 1 = .ok m ∧ ∃ f w₁, literal 2 ⟨m, []⟩ = .ok f w₁ ∧
      ∃ vs, w₁.current.support (-f) = .ok vs ∧ vs = [2] := by
    decide +kernel
  obtain ⟨m, hm, f, w₁, hf, _, hfs, rfl⟩ := hruns
  obtain ⟨hl, hfd⟩ := (literal_yields (w := ⟨m, []⟩) (wellFormed_new hm) (by decide)).of_ok hf
  have hw₁ := hl.after
  have hc := hw₁.canonical
  have hfd := hfd.neg hc
  let ds : List Domain := [⟨1, 2, by decide⟩, ⟨3, 1, by decide⟩, ⟨4, 1, by decide⟩]
  let targets : List Domain := [⟨3, 1, by decide⟩, ⟨1, 2, by decide⟩, ⟨4, 1, by decide⟩]
  let r : Relation := ⟨w₁.current.id, ds, -f⟩
  have hr : r.OfNumbers w₁.current := by
    refine ⟨rfl, ?_, hfd.has, _, hfs, by simp [r, ds]⟩
    simp only [r, ds, List.pairwise_cons, List.mem_cons, List.not_mem_nil, or_false,
      forall_eq_or_imp, forall_eq]
    exact ⟨⟨apart_of_le (by decide), apart_of_le (by decide)⟩, apart_of_le (by decide), by simp⟩
  have hmoves : r.MovesTo w₁.current targets := by
    refine ⟨rfl, ?_, fun i d e hd he => ?_, ?_, by simp [r, ds, targets, EndBy], ?_⟩
    · simp only [targets, List.pairwise_cons, List.mem_cons, List.not_mem_nil, or_false,
        forall_eq_or_imp, forall_eq]
      exact ⟨⟨(apart_of_le (by decide)).symm, apart_of_le (by decide)⟩, apart_of_le (by decide),
        by simp⟩
    · rcases i with _ | _ | _ | i
      · cases hd
        cases he
        exact ⟨by decide, by decide⟩
      · cases hd
        cases he
        exact ⟨by decide, by decide⟩
      · cases hd
        cases he
        exact ⟨by decide, by decide⟩
      · simp [r, ds] at hd
    · rintro _ ⟨s, rfl, hs⟩
      have hbit : s 2 ≠ true := (hfd.holds s).1 ((hc.eval_eq_iff hfd.has).2 hs)
      have hsmall : read ⟨1, 2, by decide⟩ s < 2 ^ 1 := by
        have hread : read ⟨1, 2, by decide⟩ s =
            read ⟨1, 1, by decide⟩ s + if s 2 then 2 ^ 1 else 0 :=
          read_succ (d := ⟨1, 1, by decide⟩)
        rw [hread, if_neg hbit]
        exact read_lt _ s
      have hbase : read ⟨3, 1, by decide⟩ s < 2 ^ 2 :=
        Nat.lt_trans (read_lt _ s) (by decide)
      exact .cons hsmall (.cons hbase (.cons (read_lt _ s) .nil))
    · change ∀ p ∈ moves ds targets, ∀ d ∈ ds ++ targets,
        d.base + d.len + ((moves ds targets).map fun p => p.2.len).sum ≤ 2 ^ 31
      decide
  obtain ⟨u, w₂, hu, -, hdom, -, hholds⟩ :=
    yields_iff.1 (withDomains_of_ofNumbers hw₁ hr hmoves)
  refine ⟨m, hm, f, w₁, hf, r, targets, rfl, rfl, hw₁, hr, hmoves, u, w₂, hu, hdom,
    (hholds _).2 ?_, fun h => ?_⟩
  · have hreads : reads ds (fun v => decide (v = 1 ∨ v = 4)) = [1, 0, 1] := by decide
    exact ⟨_, hreads, (hc.eval_eq_iff hfd.has).1 ((hfd.holds _).2 (by decide))⟩
  · have := hmoves.values _ ((hholds _).1 h)
    simp [targets] at this

end Relation

end SymbolicAutomata
