import SymbolicAutomata.RegularRelation
import SymbolicAutomata.Proofs.Letters
/-!
# Tracks

The bits of a letter on a track carry a number, and a word carries a word of numbers on each track.
Tracks are moved by one renaming that gives all their bits new names at once, so the tracks before
and after may overlap as they like: what is read on a track afterwards is what was on its target.
-/
namespace SymbolicAutomata

open Manager Bdd Layout

variable {w : Workspace} {m : Manager} {d e : Domain} {ds targets : List Domain}
  {ps : List (Domain × Domain)} {names : Renaming} {x y : Letter} {u v : Word} {top b n k : Nat}

theorem Domain.apart_of_overlaps (h : d.overlaps e = .ok false) : d.Apart e := by
  unfold overlaps at h
  split_ifs at h with hempty
  · intro c h1 h2 h3
    simp only [isEmpty, Bool.or_eq_true, decide_eq_true_eq] at hempty
    omega
  · obtain ⟨k, hk, h⟩ := exists_of_bind_eq_ok h
    obtain rfl := stop_eq hk
    split_ifs at h with hlt
    · obtain ⟨n, hn, h⟩ := exists_of_bind_eq_ok h
      obtain rfl := stop_eq hn
      have hle : ¬ e.base < d.base + d.len := of_decide_eq_false (Except.ok.inj h)
      intro c h1 h2 h3
      omega
    · intro c h1 h2 h3
      omega

theorem findM?_none {α : Type} {p : α → Except Failure Bool} {xs : List α}
    (h : xs.findM? p = .ok none) : ∀ x ∈ xs, p x = .ok false := by
  induction xs with
  | nil => simp
  | cons x xs ih =>
    obtain ⟨found, hx, h⟩ := exists_of_bind_eq_ok h
    cases found with
    | true => cases h
    | false =>
      rintro y (_ | ⟨_, hy⟩)
      · exact hx
      · exact ih h y hy

theorem apart_of_overlapping? (h : overlapping? ds = .ok none) : ds.Pairwise Domain.Apart := by
  induction ds with
  | nil => exact .nil
  | cons d ds ih =>
    obtain ⟨found, hfound, h⟩ := exists_of_bind_eq_ok h
    cases found with
    | some e => cases h
    | none =>
      exact .cons (fun e he => Domain.apart_of_overlaps (findM?_none hfound e he)) (ih h)

/-- The renaming reads every first domain from the second one, and all else from itself. -/
structure Routes (ps : List (Domain × Domain)) (names : Renaming) : Prop where
  widths : ∀ p ∈ ps, p.1.len = p.2.len
  moved : ∀ p ∈ ps, ∀ i < p.1.len, names.apply (p.1.base + i) = p.2.base + i
  kept : ∀ b, (∀ p ∈ ps, ¬ (p.1.base ≤ b ∧ b < p.1.base + p.1.len)) → names.apply b = b
  within : ∀ b ∈ names.names, ∃ p ∈ ps, p.1.base ≤ b ∧ b < p.1.base + p.1.len

namespace Routes

theorem nil : Routes [] .identity where
  widths := by simp
  moved := by simp
  kept b _ := Renaming.apply_identity b
  within b hb := by simp [Renaming.identity] at hb

theorem concat {joined : Renaming} (h : Routes ps names) (hjoins : d.Joins e joined)
    (hlen : d.len = e.len) (hapart : ∀ p ∈ ps, p.1.Apart d) :
    Routes (ps ++ [(d, e)]) (names.extend joined) := by
  classical
  have hwithin : ∀ b ∈ joined.names, d.base ≤ b ∧ b < d.base + d.len := fun b hb => by
    have := hjoins.within b hb
    omega
  have happly : ∀ b, ¬ (d.base ≤ b ∧ b < d.base + d.len) →
      (names.extend joined).apply b = names.apply b := fun b hb => by
    rw [Renaming.apply_extend, if_neg (mt (hwithin b) hb)]
  constructor
  · intro p hp
    rcases List.mem_append.1 hp with hp | hp
    · exact h.widths p hp
    · obtain rfl := List.mem_singleton.1 hp
      exact hlen
  · intro p hp i hi
    rcases List.mem_append.1 hp with hp | hp
    · have := hapart p hp (p.1.base + i) (by omega) (by omega)
      rw [happly _ (by omega)]
      exact h.moved p hp i hi
    · obtain rfl := List.mem_singleton.1 hp
      dsimp only at hi ⊢
      have hname := hjoins.apply (d.base + i)
      rw [if_pos ⟨by omega, by omega⟩, Nat.add_sub_cancel_left] at hname
      rw [Renaming.apply_extend]
      -- a bit that stays in place has no entry, and none of an earlier domain
      split_ifs with hmem
      · rw [hname]
        omega
      · rw [Renaming.apply_of_notMem hmem] at hname
        rw [h.kept _ fun p hp hb => ?_]
        · omega
        · have := hapart p hp _ hb.1 hb.2 (Nat.le_add_right d.base i)
          omega
  · intro b hb
    rw [happly b (hb (d, e) (by simp))]
    exact h.kept b fun p hp => hb p (by simp [hp])
  · intro b hb
    rcases Renaming.mem_names_foldl_insert.1 hb with hb | hb
    · exact ⟨(d, e), by simp, hwithin b (Renaming.mem_entries_fst.1 hb)⟩
    · obtain ⟨p, hp, hin⟩ := h.within b hb
      exact ⟨p, by simp [hp], hin⟩

theorem apply_of_mem (h : Routes ps names) (hp : (d, e) ∈ ps)
    (hb : d.base ≤ b ∧ b < d.base + d.len) : names.apply b = e.base + (b - d.base) := by
  obtain ⟨i, rfl⟩ := Nat.exists_eq_add_of_le hb.1
  rw [Nat.add_sub_cancel_left]
  exact h.moved _ hp i (Nat.lt_of_add_lt_add_left hb.2)

theorem read (h : Routes ps names) (hp : (d, e) ∈ ps) :
    d.read (x.renamed names).bits = e.read x.bits := by
  have hlen : d.len = e.len := h.widths _ hp
  apply Nat.eq_of_testBit_eq
  intro i
  rw [Domain.testBit_read, Domain.testBit_read, ← hlen]
  by_cases hi : i < d.len
  · have hbase := d.base_ne_zero
    rw [Letter.bits_renamed (by omega), h.moved _ hp i hi]
  · simp [hi]

theorem exists_bitRenaming (h : Routes ps names)
    (hfst : EndBy (maxSymbolBits + 1) (ps.map Prod.fst))
    (hsnd : EndBy (maxSymbolBits + 1) (ps.map Prod.snd)) :
    ∃ r, SymbolSet.bitRenaming names = .ok r := by
  refine SymbolSet.exists_bitRenaming fun b hb => ?_
  obtain ⟨p, hp, h1, h2⟩ := h.within b hb
  have hname := h.apply_of_mem hp ⟨h1, h2⟩
  have hend₁ := hfst p.1 (List.mem_map_of_mem hp)
  have hend₂ := hsnd p.2 (List.mem_map_of_mem hp)
  have hbase₁ := p.1.base_ne_zero
  have hbase₂ := p.2.base_ne_zero
  have hlen := h.widths p hp
  omega

end Routes

theorem routes_of_moves (h : RegularRelation.moves ps = .ok names)
    (hapart : (ps.map Prod.fst).Pairwise Domain.Apart) : Routes ps names := by
  induction ps using List.reverseRecOn generalizing names with
  | nil =>
    obtain rfl : Renaming.identity = names := Except.ok.inj h
    exact .nil
  | append_singleton ps p ih =>
    obtain ⟨d, e⟩ := p
    rw [RegularRelation.moves, List.foldlM_append] at h
    obtain ⟨before, hbefore, h⟩ := exists_of_bind_eq_ok h
    rw [List.map_append, List.pairwise_append] at hapart
    obtain ⟨hps, -, hlast⟩ := hapart
    rw [List.foldlM_cons] at h
    obtain ⟨after, hafter, h⟩ := exists_of_bind_eq_ok h
    obtain rfl : after = names := Except.ok.inj h
    simp only at hafter
    split_ifs at hafter with hlen
    · cases hafter
    · obtain ⟨joined, hjoined, hafter⟩ := exists_of_bind_eq_ok hafter
      obtain rfl : before.extend joined = after := Except.ok.inj hafter
      refine (ih hbefore hps).concat (Domain.joins_of_renamingTo hjoined) (not_not.1 hlen) ?_
      exact fun p hp => hlast p.1 (List.mem_map_of_mem hp) d (by simp)

theorem exists_moves (hlen : ∀ p ∈ ps, p.1.len = p.2.len)
    (hfst : EndBy (maxSymbolBits + 1) (ps.map Prod.fst))
    (hsnd : EndBy (maxSymbolBits + 1) (ps.map Prod.snd)) :
    ∃ names, RegularRelation.moves ps = .ok names := by
  have hmax : maxSymbolBits = 65536 := rfl
  induction ps using List.reverseRecOn with
  | nil => exact ⟨_, rfl⟩
  | append_singleton ps p ih =>
    obtain ⟨d, e⟩ := p
    obtain ⟨names, hnames⟩ := ih (fun p hp => hlen p (by simp [hp]))
      (fun d hd => hfst d (by simp_all)) (fun d hd => hsnd d (by simp_all))
    have hd := hfst d (by simp)
    have he := hsnd e (by simp)
    obtain ⟨joined, hjoined, -⟩ := Domain.renamingTo_spec (d := d) (e := e)
      (Domain.stop_of_le (by omega)) (Domain.stop_of_le (by omega))
    refine ⟨names.extend joined, ?_⟩
    have hlast : d.len = e.len := hlen (d, e) (by simp)
    unfold RegularRelation.moves at hnames ⊢
    rw [List.foldlM_append, hnames]
    simp [hlast, hjoined, bind, Except.bind, pure, Except.pure]

namespace Letter

theorem read_put (hn : n < 2 ^ d.len) : d.read (x.put d n).bits = n := by
  rw [bits_put, Domain.read_write hn]

theorem read_put_of_apart (h : e.Apart d) : e.read (x.put d n).bits = e.read x.bits := by
  rw [bits_put, h.read_eq (d.write_agreeOff n x.bits)]

theorem ext_bits (h : ∀ b, b ≠ 0 → x.bits b = y.bits b) : x = y :=
  funext fun i => h (i + 1) (Nat.succ_ne_zero i)

/-- On a track stands the bit of the number, elsewhere what stood there. -/
theorem bits_put_read (hlen : d.len = e.len) (s : Assignment) :
    (x.put d (e.read s)).bits b =
      if d.base ≤ b ∧ b < d.base + d.len then s (e.base + (b - d.base)) else x.bits b := by
  rw [bits_put]
  unfold Domain.write
  split_ifs with hb
  · rw [Domain.testBit_read, decide_eq_true (by omega), Bool.true_and]
  · rfl

/-- A letter is determined by what stands on some bits and off them. -/
theorem put_read (h : AgreeOff d x.bits y.bits) : x.put d (d.read y.bits) = y := by
  apply ext_bits
  intro b _
  rw [bits_put_read rfl]
  split_ifs with hin
  · rw [Nat.add_sub_cancel' hin.1]
  · exact h b hin

theorem put_put : (x.put d n).put d k = x.put d k := by
  apply ext_bits
  intro b _
  simp only [bits_put, Domain.write]
  split_ifs <;> rfl

theorem put_agreeOff (h : AgreeOff d x.bits y.bits) :
    AgreeOff d (x.put e n).bits (y.put e n).bits := by
  intro b hb
  simp only [bits_put, Domain.write]
  split_ifs
  · rfl
  · exact h b hb

theorem renamed_eq_put (h : Routes ps names) (hp : (d, e) ∈ ps)
    (hrest : ∀ p ∈ ps, p = (d, e) ∨ p.1 = p.2) : x.renamed names = x.put d (e.read x.bits) := by
  apply ext_bits
  intro b hb
  rw [bits_renamed hb, bits_put_read (h.widths _ hp)]
  split_ifs with hin
  · rw [h.apply_of_mem hp hin]
  · by_cases hsome : ∃ p ∈ ps, p.1.base ≤ b ∧ b < p.1.base + p.1.len
    · obtain ⟨p, hpmem, hbit⟩ := hsome
      rcases hrest p hpmem with rfl | hsame
      · exact absurd hbit hin
      · rw [h.apply_of_mem hpmem hbit, ← hsame, Nat.add_sub_cancel' hbit.1]
    · rw [h.kept b fun p hpmem hbit => hsome ⟨p, hpmem, hbit⟩]

theorem renamed_eq_put_put {d' e' : Domain} (h : Routes [(d, e), (d', e')] names) :
    x.renamed names = (x.put d' (e'.read x.bits)).put d (e.read x.bits) := by
  apply ext_bits
  intro b hb
  have hlen : d.len = e.len := h.widths (d, e) (by simp)
  have hlen' : d'.len = e'.len := h.widths (d', e') (by simp)
  rw [bits_renamed hb, bits_put_read hlen, bits_put_read hlen']
  split_ifs with h1 h2
  · rw [h.apply_of_mem (e := e) (by simp) h1]
  · rw [h.apply_of_mem (e := e') (by simp) h2]
  · rw [h.kept b (List.forall_mem_cons.2 ⟨h1, List.forall_mem_singleton.2 h2⟩)]

end Letter

namespace Word

variable {ns ms : List Nat} {i : Nat}

def on (u : Word) (d : Domain) : List Nat := u.map fun x => d.read x.bits

def tuple (u : Word) (ds : List Domain) : List (List Nat) := ds.map u.on

theorem length_on : (u.on d).length = u.length := List.length_map _

theorem on_lt : ∀ n ∈ u.on d, n < 2 ^ d.len := by
  intro n hn
  obtain ⟨x, -, rfl⟩ := List.mem_map.1 hn
  exact d.read_lt x.bits

theorem length_put (h : ns.length = u.length) : (u.put d ns).length = u.length := by
  rw [put, List.length_zipWith, h, Nat.min_self]

theorem length_put_put (hms : ms.length = u.length) (hns : ns.length = u.length) :
    ((u.put d ms).put e ns).length = u.length :=
  (length_put (hns.trans (length_put hms).symm)).trans (length_put hms)

theorem on_put (h : ns.length = u.length) (hns : ∀ n ∈ ns, n < 2 ^ d.len) :
    (u.put d ns).on d = ns := by
  induction u generalizing ns with
  | nil => exact (List.length_eq_zero_iff.1 h).symm
  | cons x u ih =>
    cases ns with
    | nil => cases h
    | cons n ns =>
      simp only [List.mem_cons, forall_eq_or_imp] at hns
      exact congrArg₂ List.cons (Letter.read_put hns.1) (ih (Nat.succ.inj h) hns.2)

theorem on_put_of_apart (h : ns.length = u.length) (he : e.Apart d) :
    (u.put d ns).on e = u.on e := by
  induction u generalizing ns with
  | nil => rfl
  | cons x u ih =>
    cases ns with
    | nil => cases h
    | cons n ns =>
      exact congrArg₂ List.cons (Letter.read_put_of_apart he) (ih (Nat.succ.inj h))

theorem put_on (h : List.Forall₂ (fun x y => AgreeOff d x.bits y.bits) u v) :
    u.put d (v.on d) = v := by
  induction h with
  | nil => rfl
  | cons hxy _ ih => exact congrArg₂ List.cons (Letter.put_read hxy) ih

theorem put_on_self : u.put d (u.on d) = u :=
  put_on (List.forall₂_same.2 fun _ _ _ _ => rfl)

theorem put_put (h : ns.length = u.length) : (u.put d ns).put d ms = u.put d ms := by
  induction u generalizing ns ms with
  | nil => rfl
  | cons x u ih =>
    cases ns with
    | nil => cases h
    | cons n ns =>
      cases ms with
      | nil => rfl
      | cons k ms => exact congrArg₂ List.cons Letter.put_put (ih (Nat.succ.inj h))

theorem agreeOff_put (h : ns.length = u.length) :
    List.Forall₂ (fun x y => AgreeOff d x.bits y.bits) u (u.put d ns) := by
  induction u generalizing ns with
  | nil => exact .nil
  | cons x u ih =>
    cases ns with
    | nil => cases h
    | cons n ns =>
      refine .cons ?_ (ih (Nat.succ.inj h))
      rw [Letter.bits_put]
      exact d.write_agreeOff n x.bits

theorem exists_agreeOff_iff {P : Word → Prop} :
    (∃ v : Word, List.Forall₂ (fun x y => AgreeOff d x.bits y.bits) u v ∧ P v) ↔
      ∃ ns : List Nat, ns.length = u.length ∧ (∀ n ∈ ns, n < 2 ^ d.len) ∧ P (u.put d ns) := by
  constructor
  · rintro ⟨v, huv, hv⟩
    refine ⟨v.on d, length_on.trans huv.length_eq.symm, on_lt, ?_⟩
    rwa [put_on huv]
  · rintro ⟨ns, hlen, -, hput⟩
    exact ⟨u.put d ns, agreeOff_put hlen, hput⟩

/-- Numbers written on one track change one word of the tuple. -/
theorem tuple_put (hds : ds.Pairwise Domain.Apart) (hd : ds[i]? = some d)
    (h : ns.length = u.length) (hns : ∀ n ∈ ns, n < 2 ^ d.len) :
    (u.put d ns).tuple ds = (u.tuple ds).set i ns := by
  apply List.ext_getElem?
  intro j
  rw [List.getElem?_set, tuple, tuple, List.getElem?_map, List.getElem?_map, List.length_map]
  have hlt := (List.getElem?_eq_some_iff.1 hd).1
  split_ifs with hij
  · subst hij
    rw [hd, Option.map_some, on_put h hns]
  · cases he : ds[j]? with
    | none => rfl
    | some e =>
      rw [Option.map_some, Option.map_some,
        on_put_of_apart h (Domain.apart_of_pairwise hds he hd (Ne.symm hij))]

theorem getElem?_tuple (hd : ds[i]? = some d) : (u.tuple ds)[i]? = some (u.on d) := by
  rw [tuple, List.getElem?_map, hd, Option.map_some]

theorem tuple_renamed (h : Routes ps names) :
    Word.tuple (u.map (Letter.renamed names)) (ps.map Prod.fst) = u.tuple (ps.map Prod.snd) := by
  rw [tuple, tuple, List.map_map, List.map_map]
  refine List.map_congr_left fun p hp => ?_
  change List.map _ (List.map _ u) = List.map _ u
  rw [List.map_map]
  exact List.map_congr_left fun x _ => h.read hp

theorem put_map {f : Letter → Nat} : u.put d (u.map f) = u.map fun x => x.put d (f x) := by
  rw [put, List.zipWith_map_right, List.zipWith_self]

theorem renamed_eq_put (h : Routes ps names) (hp : (d, e) ∈ ps)
    (hrest : ∀ p ∈ ps, p = (d, e) ∨ p.1 = p.2) :
    u.map (Letter.renamed names) = u.put d (u.on e) := by
  rw [on, put_map]
  exact List.map_congr_left fun x _ => Letter.renamed_eq_put h hp hrest

theorem renamed_eq_put_put {d' e' : Domain} (h : Routes [(d, e), (d', e')] names) :
    u.map (Letter.renamed names) = (u.put d' (u.on e')).put d (u.on e) := by
  rw [on, on, put_map, put, List.zipWith_map_left, List.zipWith_map_right, List.zipWith_self]
  exact List.map_congr_left fun x _ => Letter.renamed_eq_put_put h

theorem forall₂_put (h : List.Forall₂ (fun x y => AgreeOff d x.bits y.bits) u v) :
    List.Forall₂ (fun x y => AgreeOff d x.bits y.bits) (u.put e ns) (v.put e ns) := by
  induction h generalizing ns with
  | nil => exact .nil
  | cons hxy _ ih =>
    cases ns with
    | nil => exact .nil
    | cons n ns => exact .cons (Letter.put_agreeOff hxy) ih

theorem tuple_eq_iff (h : u.length = v.length) : u.tuple ds = v.tuple ds ↔
    List.Forall₂ (fun x y => Domain.reads ds x.bits = Domain.reads ds y.bits) u v := by
  rw [tuple, tuple, List.map_inj_left]
  induction u generalizing v with
  | nil =>
    cases v with
    | nil => simp
    | cons y v => cases h
  | cons x u ih =>
    cases v with
    | nil => cases h
    | cons y v =>
      rw [List.forall₂_cons, ← ih (Nat.succ.inj h), Domain.reads, Domain.reads, List.map_inj_left,
        ← forall₂_and]
      simp [on]

end Word

end SymbolicAutomata
