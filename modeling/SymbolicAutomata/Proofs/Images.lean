import SymbolicAutomata.Proofs.RegularRelations
/-!
# Images, preimages and copies

A restriction keeps the tuples whose word at one position is in a set, and a projection leaves the
word at one position out. The image of a set is a restriction of the first word, which is then left
out; a preimage is one of the second word. The pairs of a word with itself are those that one state
reads whose only edge is on the letters that carry the same number on both tracks.
-/
namespace SymbolicAutomata

open Manager Bdd Layout

variable {w : Workspace} {m : Manager} {source target d e : Domain} {g : NFA Nat Nat}
  {L : Nat → Prop} {u v : Word} {ws : List (List Nat)} {xs ys : List Nat} {ds : List Domain}
  {pos n c : Nat}

/-- The numbers are those of an accepted word, letter by letter. -/
def RegularSet.Holds (s : RegularSet) (m : Manager) (xs : List Nat) : Prop :=
  s.toRelation.Holds m xs.length [xs]

theorem RegularSet.Holds.lt {s : RegularSet} (h : s.Holds m xs) :
    ∀ x ∈ xs, x < 2 ^ s.track.len := by
  obtain ⟨u, -, -, htuple⟩ := h
  obtain rfl : u.on s.track = xs := List.singleton_inj.1 htuple
  exact Word.on_lt

theorem Word.tuple_eq_of_agreeOff (h : List.Forall₂ (fun x y => AgreeOff d x.bits y.bits) u v)
    (hds : ∀ e ∈ ds, e.Apart d) : u.tuple ds = v.tuple ds := by
  refine (Word.tuple_eq_iff h.length_eq).2 (h.imp fun x y hxy => ?_)
  exact List.map_congr_left fun e he => (hds e he).read_eq hxy

theorem Word.tuple_eraseIdx : u.tuple (ds.eraseIdx pos) = (u.tuple ds).eraseIdx pos :=
  (List.eraseIdx_map ..).symm

theorem Domain.apart_of_mem_eraseIdx (hds : ds.Pairwise Domain.Apart) (hd : ds[pos]? = some d) :
    ∀ e ∈ ds.eraseIdx pos, e.Apart d := by
  intro e he
  obtain ⟨i, hi, hget⟩ := List.mem_eraseIdx_iff_getElem?.1 he
  exact Domain.apart_of_pairwise hds hget hd hi

theorem Word.exists_pair (hapart : source.Apart target) (hlen : ys.length = xs.length)
    (hxs : ∀ x ∈ xs, x < 2 ^ source.len) (hys : ∀ y ∈ ys, y < 2 ^ target.len) :
    ∃ u : Word, u.length = xs.length ∧ u.tuple [source, target] = [xs, ys] := by
  let blank : Word := List.replicate xs.length fun _ => false
  have hblank : xs.length = blank.length := List.length_replicate.symm
  have hput : ys.length = (blank.put source xs).length :=
    hlen.trans (hblank.trans (Word.length_put hblank).symm)
  refine ⟨(blank.put source xs).put target ys, ?_, ?_⟩
  · rw [Word.length_put hput, Word.length_put hblank, hblank]
  · rw [Word.tuple, List.map_cons, List.map_singleton, Word.on_put hput hys,
      Word.on_put_of_apart hput hapart, Word.on_put hblank hxs]

/-! ### Words over some letters -/

def looped (L : Nat → Prop) : NFA Nat Nat := connect (enlarge bare 0 1 true true) (· = 0) L (· = 0)

theorem looped_contained (L : Nat → Prop) : Contained (looped L) 1 :=
  ((bare_contained 0).enlarge (by decide)).connect (fun _ h => h ▸ by decide) fun _ h =>
    h ▸ by decide

theorem mem_looped_step {p q : Nat} : q ∈ (looped L).step p c ↔ p = 0 ∧ L c ∧ q = 0 :=
  or_iff_right fun hfalse => hfalse

theorem mem_looped_evalFrom {cs : List Nat} {q : Nat} :
    q ∈ (looped L).evalFrom {0} cs ↔ q = 0 ∧ ∀ c ∈ cs, L c := by
  induction cs with
  | nil => simp
  | cons c cs ih =>
    rw [NFA.evalFrom_cons, NFA.stepSet_singleton, NFA.mem_evalFrom_iff_exists, List.forall_mem_cons]
    constructor
    · rintro ⟨p, hp, hq⟩
      obtain ⟨-, hc, rfl⟩ := mem_looped_step.1 hp
      obtain ⟨hzero, hcs⟩ := ih.1 hq
      exact ⟨hzero, hc, hcs⟩
    · rintro ⟨hzero, hc, hcs⟩
      exact ⟨0, mem_looped_step.2 ⟨rfl, hc, rfl⟩, ih.2 ⟨hzero, hcs⟩⟩

theorem mem_looped_accepts {cs : List Nat} : cs ∈ (looped L).accepts ↔ ∀ c ∈ cs, L c := by
  have hzero : ∀ {p}, p ∈ (looped L).accept ↔ p = 0 := fun {p} => by
    simp [looped, connect, enlarge, bare]
  have hstart : (looped L).start = {0} := by
    ext p
    simp [looped, connect, enlarge, bare]
  change (∃ q ∈ (looped L).accept, q ∈ (looped L).evalFrom (looped L).start cs) ↔ _
  rw [hstart]
  simp only [hzero, exists_eq_left, mem_looped_evalFrom, true_and]

namespace SymbolSet

def agreeing (i j : Nat) : BddM SymbolSet := do
  let x ← ofBit i
  let y ← ofBit j
  let both ← x.inter y
  let neither ← x.compl.inter y.compl
  both.union neither

theorem Shows.compl {on : SymbolSet} (h : on.Shows m L) (hm : m.Canonical) :
    on.compl.Shows m fun c => ¬ L c :=
  ⟨h.home, h.denotes.neg hm⟩

theorem agreeing_yields {i j : Nat} (hw : w.current.WellFormed) (hi : 0 < i) (hj : 0 < j)
    (hin : i ≤ maxSymbolBits) (hjn : j ≤ maxSymbolBits) :
    Yields w (agreeing i j) fun on m =>
      on.Shows m fun c => c.testBit (i - 1) = c.testBit (j - 1) := by
  apply Runs.bind (ofBit_yields hw hi hin)
  intro x w1 hl1 hx
  apply Runs.bind (ofBit_yields hl1.after hj hjn)
  intro y w2 hl2 hy
  have hx₂ := hx.later hl2
  apply Runs.bind (inter_yields hx₂ hy hl2.after)
  intro both w3 hl3 hboth
  have hm := hl3.after.canonical
  apply Runs.bind (inter_yields ((hx₂.later hl3).compl hm) ((hy.later hl3).compl hm) hl3.after)
  intro neither w4 hl4 hneither
  apply (union_yields (hboth.later hl4) hneither hl4.after).imp
  intro on w5 _ hon
  refine hon.congr fun c _ => ?_
  cases c.testBit (i - 1) <;> cases c.testBit (j - 1) <;> simp

theorem foldlM_agreeing_yields {on : SymbolSet} {pairs : List (Nat × Nat)}
    (hw : w.current.WellFormed) (hon : on.Shows w.current L)
    (hpairs : ∀ p ∈ pairs, (0 < p.1 ∧ p.1 ≤ maxSymbolBits) ∧ 0 < p.2 ∧ p.2 ≤ maxSymbolBits) :
    Yields w (pairs.foldlM (fun acc p => do acc.inter (← agreeing p.1 p.2)) on) fun r m =>
      r.Shows m fun c => L c ∧ ∀ p ∈ pairs, c.testBit (p.1 - 1) = c.testBit (p.2 - 1) := by
  refine foldlM_runs (b := on) (I := fun (before : List (Nat × Nat)) on m => on.Shows m fun c =>
    L c ∧ ∀ p ∈ before, c.testBit (p.1 - 1) = c.testBit (p.2 - 1)) hw
    (hon.congr fun c _ => by simp) ?_
  rintro before p after rfl w' acc hl hacc
  obtain ⟨⟨hi, hin⟩, hj, hjn⟩ := hpairs p (by simp)
  apply Runs.bind (agreeing_yields hl.after hi hj hin hjn)
  intro same w1 hl1 hsame
  apply (inter_yields (hacc.later hl1) hsame hl1.after).imp
  intro both w2 _ hboth
  refine hboth.congr fun c _ => ?_
  rw [List.forall_mem_append, List.forall_mem_singleton, and_assoc]

end SymbolSet

namespace RegularRelation

variable {r : RegularRelation} {s : RegularSet}

theorem sameSymbols_eq : sameSymbols source target = (do
    let bits := (← source.vars).zip (← target.vars)
    bits.foldlM (fun acc p => do acc.inter (← SymbolSet.agreeing p.1 p.2))
      (.universal (← Bdd.managerId))) := by
  simp only [sameSymbols, SymbolSet.agreeing, bind_assoc]

/-- The letter carries the same number on both tracks. -/
def Repeats (source target : Domain) (c : Nat) : Prop :=
  ∀ i < source.len, c.testBit (source.base + i - 1) = c.testBit (target.base + i - 1)

section Repeats

variable (hlen : source.len = target.len) (hends : EndBy (maxSymbolBits + 1) [source, target])

include hlen hends

theorem repeats_code_iff {x : Letter} :
    Repeats source target x.code ↔ source.read x.bits = target.read x.bits := by
  have hsource := source.base_ne_zero
  have htarget := target.base_ne_zero
  have hsend := hends source (by simp)
  have htend := hends target (by simp)
  have hbit : ∀ i < source.len, x.code.testBit (source.base + i - 1) =
      (source.read x.bits).testBit i ∧
      x.code.testBit (target.base + i - 1) = (target.read x.bits).testBit i := fun i hi => by
    rw [Letter.testBit_code (by omega) (by omega), Letter.testBit_code (by omega) (by omega),
      Domain.testBit_read, Domain.testBit_read, decide_eq_true hi, decide_eq_true (hlen ▸ hi)]
    exact ⟨(Bool.true_and _).symm, (Bool.true_and _).symm⟩
  constructor
  · intro h
    apply Nat.eq_of_testBit_eq
    intro i
    by_cases hi : i < source.len
    · rw [← (hbit i hi).1, h i hi, (hbit i hi).2]
    · rw [Domain.testBit_read, Domain.testBit_read, ← hlen, decide_eq_false hi]
      rfl
  · intro h i hi
    rw [(hbit i hi).1, (hbit i hi).2, h]

theorem sameSymbols_yields (hw : w.current.WellFormed) :
    Yields w (sameSymbols source target) fun on m => on.Shows m (Repeats source target) := by
  have hmax : maxSymbolBits = 65536 := rfl
  have hsource := source.base_ne_zero
  have htarget := target.base_ne_zero
  have hsend := hends source (by simp)
  have htend := hends target (by simp)
  rw [sameSymbols_eq]
  apply Runs.lift_bind (Domain.vars_eq (Domain.stop_of_le (by omega)))
  apply Runs.lift_bind (Domain.vars_eq (Domain.stop_of_le (by omega)))
  apply Runs.ask_bind (a := w.current.id) rfl
  rw [← hlen, List.range'_eq_map_range, List.range'_eq_map_range, List.zip_map']
  apply (SymbolSet.foldlM_agreeing_yields (L := fun _ => True) hw ⟨rfl, .one hw.canonical⟩ ?_).imp
  · intro on w1 _ hon
    refine hon.congr fun c _ => ?_
    simp only [true_and, List.forall_mem_map, List.mem_range]
    rfl
  · simp only [List.forall_mem_map, List.mem_range]
    omega

/-- The pairs of a word with itself, and what is made of them. -/
theorem identity_runs {next : RegularRelation → BddM RegularRelation} {on : SymbolSet}
    {Q : RegularRelation → Manager → Prop} (hw : w.current.WellFormed)
    (hapart : source.Apart target) (hon : on.Shows w.current (Repeats source target))
    (hnext : ∀ r w', w.Leads w' → r.WellFormed w'.current → r.tracks = [source, target] →
      r.automaton.stateCount = 1 → (∀ n ws, r.Holds w'.current n ws ↔
        ∃ xs, xs.length = n ∧ (∀ x ∈ xs, x < 2 ^ target.len) ∧ ws = [xs, xs]) →
      Yields w' (next r) Q) :
    Yields w (do
      let (q, a) ← (← SymbolicNfa.empty).addState true true
      next (← new [source, target] (← a.addEdge q on q))) Q := by
  refine SymbolicNfa.firstState_runs hw fun b w1 hl1 hcount hb => ?_
  apply Runs.bind (SymbolicNfa.addEdge_yields hl1.after hb (hon.later hl1).denotes (by omega)
    (by omega))
  rintro a w2 hl2 ⟨hcount₂, hflag, ha⟩
  have hone : a.stateCount = 1 := hcount₂.trans hcount
  have hcontained : Contained (looped (Repeats source target)) a.stateCount :=
    hone ▸ looped_contained _
  have hpairwise : [source, target].Pairwise Domain.Apart := List.pairwise_pair.2 hapart
  have haccepts (u : Word) : a.Accepts w2.current u ↔ u.on source = u.on target := by
    rw [ha.accepts_iff hl2.after.canonical hcontained.toBounded]
    change u.codes ∈ (looped _).accepts ↔ _
    rw [mem_looped_accepts, Word.on, Word.on, List.map_inj_left]
    simp only [Word.codes, List.forall_mem_map, repeats_code_iff hlen hends]
  rw [new_eq hpairwise hends]
  refine hnext ⟨[source, target], a⟩ w2 (hl1.trans hl2)
    ⟨⟨⟨_, ha, hcontained⟩, SymbolicNfa.honest_of_unknown hflag⟩, hpairwise, hends⟩ rfl hone
    fun n ws => ?_
  constructor
  · rintro ⟨u, rfl, haccepted, rfl⟩
    refine ⟨u.on target, Word.length_on, Word.on_lt, ?_⟩
    change [u.on source, u.on target] = _
    rw [(haccepts u).1 haccepted]
  · rintro ⟨xs, rfl, hxs, rfl⟩
    obtain ⟨u, hu, htuple⟩ := Word.exists_pair hapart rfl (hlen ▸ hxs) hxs
    refine ⟨u, hu, (haccepts u).2 ?_, htuple⟩
    obtain ⟨hfirst, hrest⟩ := List.cons.inj htuple
    exact hfirst.trans (List.singleton_inj.1 hrest).symm

end Repeats

theorem Holds.length (h : r.Holds m n ws) : ws.length = r.tracks.length := by
  obtain ⟨u, -, -, rfl⟩ := h
  exact List.length_map _

theorem Holds.length_of_mem (h : r.Holds m n ws) (hxs : xs ∈ ws) : xs.length = n := by
  obtain ⟨u, rfl, -, rfl⟩ := h
  obtain ⟨d, -, rfl⟩ := List.mem_map.1 hxs
  exact Word.length_on

theorem exists_pair_of_holds (h : r.Holds m n ws) (htracks : r.tracks = [d, e]) :
    ∃ xs ys, ws = [xs, ys] ∧ xs.length = n ∧ ys.length = n := by
  obtain ⟨xs, ys, rfl⟩ := List.length_eq_two.1 (h.length.trans (congrArg List.length htracks))
  exact ⟨xs, ys, rfl, h.length_of_mem (by simp), h.length_of_mem (by simp)⟩

theorem toRelation_eq (htracks : r.tracks = [d]) :
    (⟨d, r.automaton⟩ : RegularSet).toRelation = r := by
  obtain ⟨ds, a⟩ := r
  obtain rfl : ds = [d] := htracks
  rfl

/-- What fits the relation at a position and can be joined with it. -/
structure Restrictable (r : RegularRelation) (pos : Nat) (s : RegularSet) (d : Domain) : Prop where
  position : r.tracks[pos]? = some d
  width : s.track.len = d.len
  joinable : r.automaton.Joinable s.automaton

section Operations

variable (hw : w.current.WellFormed) (hr : r.WellFormed w.current)

include hw hr

theorem restrict_yields (hs : s.toRelation.WellFormed w.current)
    (hsc : s.toRelation.Confined w.current) (h : r.Restrictable pos s d) :
    Yields w (r.restrict pos s) fun t m => t.tracks = r.tracks ∧ t.WellFormed m ∧
      ∀ n ws, t.Holds m n ws ↔
        r.Holds w.current n ws ∧ ∃ xs, ws[pos]? = some xs ∧ s.Holds w.current xs := by
  have hmem : d ∈ r.tracks := List.mem_of_getElem? h.position
  have hmove : s.toRelation.Movable [d] :=
    ⟨.cons h.width .nil, hs.ends, List.forall_mem_singleton.2 (hr.ends d hmem),
      List.pairwise_singleton ..⟩
  have htrack : r.track pos = .ok d := by rw [RegularRelation.track, h.position]
  apply Runs.lift_bind htrack
  apply Runs.bind (Runs.within hs.automaton.home (withTracks_yields hw hs hsc hmove))
  rintro moved w1 hl1 ⟨-, hcount, -, hwell₁, hmoved⟩
  have hr₁ := hr.automaton.later hl1
  have hjoin : r.automaton.Joinable moved.automaton := by
    rw [SymbolicNfa.Joinable, hcount]
    exact h.joinable
  apply Runs.bind ((SymbolicNfa.combine_monotone_yieldsIff hl1.after hr₁ hwell₁
    (f := fun x y => x && y) rfl).yields hjoin)
  rintro c w2 hl2 ⟨hwell₂, haccepts⟩
  rw [new_eq hr.apart hr.ends]
  refine Runs.pure hl2.after ⟨rfl, ⟨hwell₂, hr.apart, hr.ends⟩, fun n ws => ?_⟩
  have hword (u : Word) : c.Accepts w2.current u ↔
      r.automaton.Accepts w.current u ∧ s.Holds w.current (u.on d) := by
    rw [haccepts]
    simp only [Bool.and_eq_true, decide_eq_true_iff]
    rw [hr.automaton.accepts_later hl1, hmoved, RegularSet.Holds, Word.length_on]
    rfl
  constructor
  · rintro ⟨u, hu, haccepted, rfl⟩
    obtain ⟨hleft, hright⟩ := (hword u).1 haccepted
    exact ⟨⟨u, hu, hleft, rfl⟩, u.on d, Word.getElem?_tuple h.position, hright⟩
  · rintro ⟨⟨u, hu, hleft, rfl⟩, xs, hxs, hright⟩
    obtain rfl : u.on d = xs := Option.some.inj ((Word.getElem?_tuple h.position).symm.trans hxs)
    exact ⟨u, hu, (hword u).2 ⟨hleft, hright⟩, rfl⟩

theorem project_yields (hd : r.tracks[pos]? = some d) :
    Yields w (r.project pos) fun t m => t.tracks = r.tracks.eraseIdx pos ∧ t.WellFormed m ∧
      ∀ n ws, t.Holds m n ws ↔ ∃ ws', r.Holds w.current n ws' ∧ ws'.eraseIdx pos = ws := by
  have htrack : r.track pos = .ok d := by rw [RegularRelation.track, hd]
  have hfits := hr.ends d (List.mem_of_getElem? hd)
  apply Runs.lift_bind htrack
  apply Runs.bind ((SymbolicNfa.project_accepts hw hr.automaton).yields (Nat.not_lt.2 hfits))
  rintro c w1 hl1 ⟨-, hwell, haccepts⟩
  have hapart : (r.tracks.eraseIdx pos).Pairwise Domain.Apart :=
    hr.apart.sublist (List.eraseIdx_sublist ..)
  have hends : EndBy (maxSymbolBits + 1) (r.tracks.eraseIdx pos) := fun e he =>
    hr.ends e (List.mem_of_mem_eraseIdx he)
  have hother := Domain.apart_of_mem_eraseIdx hr.apart hd
  rw [new_eq hapart hends]
  refine Runs.pure hl1.after ⟨rfl, ⟨hwell, hapart, hends⟩, fun n ws => ?_⟩
  constructor
  · rintro ⟨u, hu, haccepted, rfl⟩
    obtain ⟨v, huv, hv⟩ := (haccepts u).1 haccepted
    refine ⟨_, ⟨v, huv.length_eq.symm.trans hu, hv, rfl⟩, ?_⟩
    rw [← Word.tuple_eraseIdx, ← Word.tuple_eq_of_agreeOff huv hother]
  · rintro ⟨_, ⟨u, hu, hv, rfl⟩, rfl⟩
    exact ⟨u, hu, (haccepts u).2 ⟨u, List.forall₂_same.2 fun _ _ _ _ => rfl, hv⟩,
      Word.tuple_eraseIdx⟩

/-- A restriction at the position that is then left out. -/
theorem project_restrict_yields (hs : s.toRelation.WellFormed w.current)
    (hsc : s.toRelation.Confined w.current) (h : r.Restrictable pos s d) :
    Yields w (do (← r.restrict pos s).project pos) fun t m =>
      t.tracks = r.tracks.eraseIdx pos ∧ t.WellFormed m ∧ ∀ n ws, t.Holds m n ws ↔
        ∃ ws' xs, r.Holds w.current n ws' ∧ ws'[pos]? = some xs ∧ s.Holds w.current xs ∧
          ws'.eraseIdx pos = ws := by
  apply Runs.bind (restrict_yields hw hr hs hsc h)
  rintro t w1 hl1 ⟨htracks, hwell, hholds⟩
  apply (project_yields hl1.after hwell (by rw [htracks]; exact h.position)).imp
  rintro t' w2 _ ⟨htracks', hwell', hholds'⟩
  refine ⟨htracks'.trans (by rw [htracks]), hwell', fun n ws => ?_⟩
  rw [hholds']
  simp only [hholds]
  constructor
  · rintro ⟨ws', ⟨hws', xs, hxs, hheld⟩, hrest⟩
    exact ⟨ws', xs, hws', hxs, hheld, hrest⟩
  · rintro ⟨ws', xs, hws', hxs, hheld, hrest⟩
    exact ⟨ws', ⟨hws', xs, hxs, hheld⟩, hrest⟩

theorem rest_yields (hs : s.toRelation.WellFormed w.current)
    (hsc : s.toRelation.Confined w.current) (h : r.Restrictable pos s d)
    (hrest : r.tracks.eraseIdx pos = [e]) :
    Yields w (do return (⟨e, (← (do (← r.restrict pos s).project pos)).automaton⟩ : RegularSet))
      fun t m => t.track = e ∧ t.toRelation.WellFormed m ∧ ∀ ys, t.Holds m ys ↔
        ∃ ws xs, r.Holds w.current ys.length ws ∧ ws[pos]? = some xs ∧ s.Holds w.current xs ∧
          ws.eraseIdx pos = [ys] := by
  apply Runs.bind (project_restrict_yields hw hr hs hsc h)
  rintro t w1 hl1 ⟨htracks, hwell, hholds⟩
  have ht : (⟨e, t.automaton⟩ : RegularSet).toRelation = t := toRelation_eq (htracks.trans hrest)
  refine Runs.pure hl1.after ⟨rfl, ht.symm ▸ hwell, fun ys => ?_⟩
  rw [RegularSet.Holds, ht, hholds]

end Operations

section Pairs

variable (hw : w.current.WellFormed) (hs : s.toRelation.WellFormed w.current)
  (hsc : s.toRelation.Confined w.current)

include hw hs hsc

theorem image_yields (hr : r.WellFormed w.current) (htracks : r.tracks = [source, target])
    (hlen : s.track.len = source.len) (hjoin : r.automaton.Joinable s.automaton) :
    Yields w (r.image s) fun t m => t.track = target ∧ t.toRelation.WellFormed m ∧
      ∀ ys, t.Holds m ys ↔ ∃ xs, xs.length = ys.length ∧ s.Holds w.current xs ∧
        r.Holds w.current ys.length [xs, ys] := by
  have hposition : r.tracks[0]? = some source := by rw [htracks]; rfl
  have heq : r.image s = do
      return ⟨target, (← (do (← r.restrict 0 s).project 0)).automaton⟩ := by
    simp only [image, htracks, bind_assoc]
  rw [heq]
  apply (rest_yields hw hr hs hsc ⟨hposition, hlen, hjoin⟩ (by rw [htracks]; rfl)).imp
  rintro t w1 _ ⟨htrack, hwell, hholds⟩
  refine ⟨htrack, hwell, fun ys => (hholds ys).trans ?_⟩
  constructor
  · rintro ⟨ws, xs, hws, hfirst, hxs, hsecond⟩
    obtain ⟨xs', ys', rfl, hxlen, hylen⟩ := exists_pair_of_holds hws htracks
    obtain rfl : xs' = xs := Option.some.inj hfirst
    obtain rfl : ys' = ys := List.singleton_inj.1 hsecond
    exact ⟨xs', hxlen, hxs, hws⟩
  · rintro ⟨xs, -, hxs, hpair⟩
    exact ⟨_, xs, hpair, rfl, hxs, rfl⟩

theorem preimage_yields (hr : r.WellFormed w.current) (htracks : r.tracks = [source, target])
    (hlen : s.track.len = target.len) (hjoin : r.automaton.Joinable s.automaton) :
    Yields w (r.preimage s) fun t m => t.track = source ∧ t.toRelation.WellFormed m ∧
      ∀ xs, t.Holds m xs ↔ ∃ ys, ys.length = xs.length ∧ s.Holds w.current ys ∧
        r.Holds w.current xs.length [xs, ys] := by
  have hposition : r.tracks[1]? = some target := by rw [htracks]; rfl
  have heq : r.preimage s = do
      return ⟨source, (← (do (← r.restrict 1 s).project 1)).automaton⟩ := by
    simp only [preimage, htracks, bind_assoc]
  rw [heq]
  apply (rest_yields hw hr hs hsc ⟨hposition, hlen, hjoin⟩ (by rw [htracks]; rfl)).imp
  rintro t w1 _ ⟨htrack, hwell, hholds⟩
  refine ⟨htrack, hwell, fun xs => (hholds xs).trans ?_⟩
  constructor
  · rintro ⟨ws, ys, hws, hsecond, hys, hfirst⟩
    obtain ⟨xs', ys', rfl, hxlen, hylen⟩ := exists_pair_of_holds hws htracks
    obtain rfl : ys' = ys := Option.some.inj hsecond
    obtain rfl : xs' = xs := List.singleton_inj.1 hfirst
    exact ⟨ys', hylen, hys, hws⟩
  · rintro ⟨ys, -, hys, hpair⟩
    exact ⟨_, ys, hpair, rfl, hys, rfl⟩

theorem copy_yields (hapart : source.Apart target)
    (hends : EndBy (maxSymbolBits + 1) [source, target]) (hlen : source.len = target.len)
    (hwidth : s.track.len = target.len) (hfew : s.automaton.stateCount + 1 < 2 ^ 31) :
    Yields w (copy source target s) fun t m => t.tracks = [source, target] ∧ t.WellFormed m ∧
      ∀ n ws, t.Holds m n ws ↔ ∃ xs, xs.length = n ∧ s.Holds w.current xs ∧ ws = [xs, xs] := by
  apply Runs.check hw fun hne => hne hlen
  intro _
  apply Runs.bind (sameSymbols_yields hlen hends hw)
  intro on w1 hl1 hon
  refine identity_runs hlen hends hl1.after hapart hon fun r w2 hl2 hr htracks hone hholds => ?_
  have hl := hl1.trans hl2
  have hjoin : r.automaton.Joinable s.automaton := by
    have hbits : bitsNeeded (s.automaton.stateCount + 1) ≤ 31 := bitsNeeded_le_iff.2 hfew.le
    have htwo : bitsNeeded 2 = 1 := by decide
    rw [SymbolicNfa.Joinable, hone, htwo]
    omega
  have hposition : r.tracks[1]? = some target := by rw [htracks]; rfl
  have hsc₂ := Confined.later hsc hs hl
  apply (restrict_yields hl2.after hr (hs.later hl) hsc₂ ⟨hposition, hwidth, hjoin⟩).imp
  rintro t w3 _ ⟨htracks', hwell, hheld⟩
  refine ⟨htracks'.trans htracks, hwell, fun n ws => ?_⟩
  rw [hheld, hholds]
  constructor
  · rintro ⟨⟨xs, hxs, -, rfl⟩, ys, hys, hin⟩
    obtain rfl : xs = ys := Option.some.inj hys
    exact ⟨xs, hxs, (hs.holds_later hl).1 hin, rfl⟩
  · rintro ⟨xs, hxs, hin, rfl⟩
    exact ⟨⟨xs, hxs, hwidth ▸ hin.lt, rfl⟩, xs, rfl, (hs.holds_later hl).2 hin⟩

/-- An image holds the words that are related to some word of the set, a preimage those that some
word of the set is related to, and a copy relates every word of the set to itself. -/
theorem image_preimage_copy (hr : r.WellFormed w.current) :
    (∀ source target, r.tracks = [source, target] → r.automaton.Joinable s.automaton →
      (s.track.len = source.len → Yields w (r.image s) fun t m => t.track = target ∧
        ∀ ys, t.Holds m ys ↔ ∃ xs, xs.length = ys.length ∧ s.Holds w.current xs ∧
          r.Holds w.current ys.length [xs, ys]) ∧
      (s.track.len = target.len → Yields w (r.preimage s) fun t m => t.track = source ∧
        ∀ xs, t.Holds m xs ↔ ∃ ys, ys.length = xs.length ∧ s.Holds w.current ys ∧
          r.Holds w.current xs.length [xs, ys])) ∧
    ∀ source target : Domain, source.Apart target → EndBy (maxSymbolBits + 1) [source, target] →
      source.len = target.len → s.track.len = target.len → s.automaton.stateCount + 1 < 2 ^ 31 →
      Yields w (copy source target s) fun t m => t.tracks = [source, target] ∧
        ∀ n ws, t.Holds m n ws ↔ ∃ xs, xs.length = n ∧ s.Holds w.current xs ∧ ws = [xs, xs] := by
  refine ⟨fun source target htracks hjoin => ⟨fun hlen => ?_, fun hlen => ?_⟩,
    fun source target hapart hends hlen hwidth hfew => ?_⟩
  · apply (image_yields hw hs hsc hr htracks hlen hjoin).imp
    rintro t w1 _ ⟨htrack, -, hholds⟩
    exact ⟨htrack, hholds⟩
  · apply (preimage_yields hw hs hsc hr htracks hlen hjoin).imp
    rintro t w1 _ ⟨htrack, -, hholds⟩
    exact ⟨htrack, hholds⟩
  · apply (copy_yields hw hs hsc hapart hends hlen hwidth hfew).imp
    rintro t w1 _ ⟨htracks, -, hholds⟩
    exact ⟨htracks, hholds⟩

end Pairs

theorem bitSet_holds_iff {a : SymbolicNfa} {p : Nat}
    (ha : ∀ u, a.Accepts m u ↔ ∃ x : Letter, u = [x] ∧ x.bits 1 = true) :
    RegularSet.Holds ⟨bitTrack 1, a⟩ m [p] ↔ p = 1 := by
  change RegularRelation.Holds ⟨[bitTrack 1], a⟩ m 1 [[p]] ↔ _
  rw [holds_of_letters ha]
  simp only [Word.tuple, Word.on, List.map_cons, List.map_nil, read_bitTrack, List.cons.injEq,
    and_true]
  constructor
  · rintro ⟨x, hx, rfl⟩
    rw [hx]
    rfl
  · rintro rfl
    exact ⟨.ofBits fun _ => true, rfl, rfl⟩

/-- Of the pairs whose first bit is set, the set of the words with a set bit has all second words as
its image and one first word as its preimage. -/
theorem image_preimage_copy_ofBit : ∃ m a w, Manager.new 0 1 1 = .ok m ∧
    SymbolicNfa.ofBit 1 ⟨m, []⟩ = .ok a w ∧
    (∃ t w', (bitPair 1 2 a).image ⟨bitTrack 1, a⟩ w = .ok t w' ∧ t.Holds w'.current [0]) ∧
    (∃ t w', (bitPair 1 2 a).preimage ⟨bitTrack 1, a⟩ w = .ok t w' ∧ t.Holds w'.current [1] ∧
      ¬ t.Holds w'.current [0]) ∧
    ∃ t w', copy (bitTrack 2) (bitTrack 3) ⟨bitTrack 1, a⟩ w = .ok t w' ∧
      t.Holds w'.current 1 [[1], [1]] ∧ ¬ t.Holds w'.current 1 [[0], [0]] := by
  obtain ⟨m, hm⟩ : ∃ m, Manager.new 0 1 1 = .ok m := ⟨_, rfl⟩
  obtain ⟨a, w, ha, hl, hcount, hwell, haccepts, hdepends⟩ := yields_iff.1
    (SymbolicNfa.ofBit_yields 1 (w := ⟨m, []⟩) (Manager.wellFormed_new hm) (by decide) (by decide))
  have hset : (⟨bitTrack 1, a⟩ : RegularSet).toRelation.WellFormed w.current :=
    ⟨hwell, List.pairwise_singleton .., List.forall_mem_singleton.2
      (show 1 + 1 ≤ maxSymbolBits + 1 by decide)⟩
  have hjoin : a.Joinable a := by
    rw [SymbolicNfa.Joinable, hcount]
    decide
  have hpair : (bitPair 1 2 a).WellFormed w.current :=
    bitPair_wellFormed hwell (by decide) (by decide) (by decide)
  obtain ⟨hbinary, hcopy⟩ := image_preimage_copy hl.after hset
    (confined_of_mem (by decide) List.mem_cons_self hdepends) hpair
  obtain ⟨himage, hpreimage⟩ := hbinary _ _ rfl hjoin
  obtain ⟨t₁, w₁, hrun₁, -, -, hholds₁⟩ := yields_iff.1 (himage rfl)
  obtain ⟨t₂, w₂, hrun₂, -, -, hholds₂⟩ := yields_iff.1 (hpreimage rfl)
  obtain ⟨t₃, w₃, hrun₃, -, -, hholds₃⟩ := yields_iff.1 (hcopy (bitTrack 2) (bitTrack 3)
    (Domain.apart_of_le (by decide)) (bitPair_ends (a := a) (by decide) (by decide)) rfl rfl
    (by rw [hcount]; decide))
  have hone : RegularSet.Holds ⟨bitTrack 1, a⟩ w.current [1] := (bitSet_holds_iff haccepts).2 rfl
  refine ⟨m, a, w, hm, ha, ⟨t₁, w₁, hrun₁, ?_⟩, ⟨t₂, w₂, hrun₂, ?_, ?_⟩, t₃, w₃, hrun₃, ?_, ?_⟩
  · exact (hholds₁ _).2 ⟨[1], rfl, hone, (bitPair_holds_iff haccepts).2 (by decide)⟩
  · exact (hholds₂ _).2 ⟨[1], rfl, hone, (bitPair_holds_iff haccepts).2 (by decide)⟩
  · intro hheld
    obtain ⟨ys, hlen, -, hpair⟩ := (hholds₂ _).1 hheld
    obtain ⟨y, rfl⟩ := List.length_eq_one_iff.1 hlen
    exact absurd ((bitPair_holds_iff haccepts).1 hpair).1 (by decide)
  · exact (hholds₃ _ _).2 ⟨[1], rfl, hone, rfl⟩
  · intro hheld
    obtain ⟨xs, -, hin, hpair⟩ := (hholds₃ _ _).1 hheld
    obtain rfl : [0] = xs := List.head_eq_of_cons_eq hpair
    exact absurd ((bitSet_holds_iff haccepts).1 hin) (by decide)

end RegularRelation

end SymbolicAutomata
