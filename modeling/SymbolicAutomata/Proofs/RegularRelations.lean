import SymbolicAutomata.Proofs.Tracks
/-!
# Regular relations

A relation holds the tuples that the accepted words carry on its tracks. Where the edges depend on
bits of the tracks alone, what a word carries there decides whether it is accepted, so on other
tracks the relation holds the same tuples. A product with another relation is then a connective of
the two relations, read on the tracks of the first.
-/
namespace SymbolicAutomata

open Manager Bdd Layout

namespace RegularRelation

variable {w w' : Workspace} {m : Manager} {r s : RegularRelation} {a b : SymbolicNfa}
  {ds es targets : List Domain} {u v : Word} {ws : List (List Nat)} {n : Nat} {f : Connective}

/-- The tracks are disjoint blocks of symbol bits. -/
structure WellFormed (r : RegularRelation) (m : Manager) : Prop where
  automaton : r.automaton.WellFormed m
  apart : r.tracks.Pairwise Domain.Apart
  ends : EndBy (maxSymbolBits + 1) r.tracks

/-- The words of `n` letters on the tracks are those of an accepted word. -/
def Holds (r : RegularRelation) (m : Manager) (n : Nat) (ws : List (List Nat)) : Prop :=
  ∃ u : Word, u.length = n ∧ r.automaton.Accepts m u ∧ u.tuple r.tracks = ws

/-- The edges depend on bits of the tracks alone. -/
def Confined (r : RegularRelation) (m : Manager) : Prop :=
  ∀ bit, r.automaton.DependsOn m bit → ∃ d ∈ r.tracks, d.base ≤ bit ∧ bit < d.base + d.len

def SameWidths (ds es : List Domain) : Prop := List.Forall₂ (fun d e => d.len = e.len) ds es

theorem SameWidths.symm (h : SameWidths ds es) : SameWidths es ds :=
  h.flip.imp fun _ _ => Eq.symm

theorem SameWidths.map_fst (h : SameWidths ds es) : (ds.zip es).map Prod.fst = ds :=
  List.map_fst_zip h.length_eq.le

theorem SameWidths.map_snd (h : SameWidths ds es) : (ds.zip es).map Prod.snd = es :=
  List.map_snd_zip h.length_eq.ge

theorem SameWidths.widths (h : SameWidths ds es) : ∀ p ∈ ds.zip es, p.1.len = p.2.len :=
  fun _ hp => (List.forall₂_iff_zip.1 h).2 hp

theorem WellFormed.later (h : r.WellFormed w.current) (hl : w.Leads w') : r.WellFormed w'.current :=
  ⟨h.automaton.later hl, h.apart, h.ends⟩

theorem WellFormed.holds_later (h : r.WellFormed w.current) (hl : w.Leads w') :
    r.Holds w'.current n ws ↔ r.Holds w.current n ws := by
  unfold Holds
  simp only [h.automaton.accepts_later hl]

theorem Confined.later (hc : r.Confined w.current) (h : r.WellFormed w.current)
    (hl : w.Leads w') : r.Confined w'.current :=
  fun bit hbit => hc bit ((h.automaton.dependsOn_later hl).1 hbit)

theorem new_ok (h : new ds a = .ok r) : ds.Pairwise Domain.Apart ∧ r = ⟨ds, a⟩ := by
  obtain ⟨found, hfound, h⟩ := exists_of_bind_eq_ok h
  cases found with
  | some p => cases h
  | none => exact ⟨apart_of_overlapping? hfound, (Except.ok.inj h).symm⟩

theorem new_eq (hapart : ds.Pairwise Domain.Apart) (hend : EndBy (maxSymbolBits + 1) ds) :
    new ds a = .ok ⟨ds, a⟩ := by
  have hnone := overlapping?_eq_none hapart (hend.mono (by decide))
  rw [new, hnone]
  rfl

theorem new_runs {p : Prop} (hw : w.current.WellFormed)
    (hp : ¬ (ds.Pairwise Domain.Apart ∧ EndBy (maxSymbolBits + 1) ds) → p) :
    Runs p w (liftM (new ds a)) fun t _ => t = ⟨ds, a⟩ := by
  cases hnew : new ds a with
  | ok t => exact Runs.pure hw (new_ok hnew).2
  | error e =>
    refine ⟨hp fun ⟨hapart, hend⟩ => ?_, .refl hw⟩
    cases hnew.symm.trans (new_eq hapart hend)

theorem accepts_congr (h : r.automaton.WellFormed m) (hm : m.Canonical) (hc : r.Confined m)
    (hlen : u.length = v.length) (htuple : u.tuple r.tracks = v.tuple r.tracks) :
    r.automaton.Accepts m u ↔ r.automaton.Accepts m v := by
  apply SymbolicNfa.accepts_congr h hm
  apply ((Word.tuple_eq_iff hlen).1 htuple).imp
  intro x y hreads bit hbit
  obtain ⟨d, hd, h1, h2⟩ := hc bit hbit
  exact Domain.eq_of_read_eq (List.map_inj_left.1 hreads d hd) h1 h2

theorem holds_tuple_iff (h : r.automaton.WellFormed m) (hm : m.Canonical) (hc : r.Confined m) :
    r.Holds m u.length (u.tuple r.tracks) ↔ r.automaton.Accepts m u := by
  constructor
  · rintro ⟨v, hlen, haccepts, htuple⟩
    exact (accepts_congr h hm hc hlen htuple).1 haccepts
  · exact fun haccepts => ⟨u, rfl, haccepts, rfl⟩

theorem exists_routes (hwidths : SameWidths ds es) (hds : EndBy (maxSymbolBits + 1) ds)
    (hes : EndBy (maxSymbolBits + 1) es) (hapart : ds.Pairwise Domain.Apart) :
    ∃ names, Routes (ds.zip es) names := by
  rw [← hwidths.map_fst] at hds hapart
  rw [← hwidths.map_snd] at hes
  obtain ⟨names, hnames⟩ := exists_moves hwidths.widths hds hes
  exact ⟨names, routes_of_moves hnames hapart⟩

theorem exists_tuple (hwidths : SameWidths ds es) (hds : EndBy (maxSymbolBits + 1) ds)
    (hes : EndBy (maxSymbolBits + 1) es) (hapart : ds.Pairwise Domain.Apart) (v : Word) :
    ∃ u : Word, u.length = v.length ∧ u.tuple ds = v.tuple es := by
  obtain ⟨names, hroutes⟩ := exists_routes hwidths hds hes hapart
  have htuple := Word.tuple_renamed (u := v) hroutes
  rw [hwidths.map_fst, hwidths.map_snd] at htuple
  exact ⟨v.map (Letter.renamed names), List.length_map _, htuple⟩

/-- The tracks fit each other and the alphabet. -/
structure Movable (r : RegularRelation) (es : List Domain) : Prop where
  widths : SameWidths r.tracks es
  sources : EndBy (maxSymbolBits + 1) r.tracks
  targets : EndBy (maxSymbolBits + 1) es
  apart : es.Pairwise Domain.Apart

/-- A word on the targets is read under the new names of the tracks. -/
theorem withTracks_runs {p : Prop} (hw : w.current.WellFormed)
    (h : r.automaton.WellFormed w.current) (hapart : r.tracks.Pairwise Domain.Apart)
    (hp : ¬ r.Movable targets → p) :
    Runs p w (r.withTracks targets) fun t m => t.tracks = targets ∧
      t.automaton.stateCount = r.automaton.stateCount ∧
      t.automaton.deterministicCount m ≤ r.automaton.deterministicCount w.current ∧
      t.automaton.WellFormed m ∧ SameWidths r.tracks targets ∧
      ∃ names, Routes (r.tracks.zip targets) names ∧ ∀ u, t.automaton.Accepts m u ↔
        r.automaton.Accepts w.current (u.map (Letter.renamed names)) := by
  unfold withTracks
  apply Runs.check hw fun hlen => hp fun hmove => hlen hmove.widths.length_eq.symm
  intro hlen
  have hlen' : r.tracks.length = targets.length := (not_not.1 hlen).symm
  have hfst : (r.tracks.zip targets).map Prod.fst = r.tracks := List.map_fst_zip hlen'.le
  have hsnd : (r.tracks.zip targets).map Prod.snd = targets := List.map_snd_zip hlen'.ge
  apply Runs.lift_cases hw
  · intro e he
    refine hp fun hmove => ?_
    obtain ⟨names, hnames⟩ := exists_moves hmove.widths.widths (by rw [hfst]; exact hmove.sources)
      (by rw [hsnd]; exact hmove.targets)
    cases he.symm.trans hnames
  · intro names hnames
    have hroutes := routes_of_moves hnames (by rwa [hfst])
    have hwidths : SameWidths r.tracks targets :=
      List.forall₂_iff_zip.2 ⟨hlen', fun hp => hroutes.widths _ hp⟩
    apply Runs.branch (Q := fun a m => a.stateCount = r.automaton.stateCount ∧
      a.deterministicCount m ≤ r.automaton.deterministicCount w.current ∧ a.WellFormed m ∧
      ∀ u, a.Accepts m u ↔ r.automaton.Accepts w.current (u.map (Letter.renamed names)))
    · split_ifs with hid
      · have hsame : Letter.renamed names = fun x => x :=
          funext fun x => Letter.renamed_of_isIdentity hid
        exact Runs.pure hw ⟨rfl, le_refl _, h, fun u => by rw [hsame, List.map_id']⟩
      · apply (SymbolicNfa.rename_accepts hw h).mono _ fun a w1 _ ha => ha
        refine fun hnone => hp fun hmove => ?_
        obtain ⟨names', hrenaming⟩ := hroutes.exists_bitRenaming (by rw [hfst]; exact hmove.sources)
          (by rw [hsnd]; exact hmove.targets)
        exact hnone names' hrenaming
    · rintro a w1 hl1 ⟨hcount, hfew, hwell, haccepts⟩
      apply (new_runs hl1.after fun h => hp fun hmove => h ⟨hmove.apart, hmove.targets⟩).imp
      rintro t w2 hl2 rfl
      have hfew₂ := (hwell.deterministicCount_later hl2).trans_le hfew
      refine ⟨rfl, hcount, hfew₂, hwell.later hl2, hwidths, names, hroutes, fun u => ?_⟩
      exact (hwell.accepts_later hl2).trans (haccepts u)

theorem withTracks_yields (hw : w.current.WellFormed) (h : r.WellFormed w.current)
    (hc : r.Confined w.current) (hmove : r.Movable targets) :
    Yields w (r.withTracks targets) fun t m => t.tracks = targets ∧
      t.automaton.stateCount = r.automaton.stateCount ∧
      t.automaton.deterministicCount m ≤ r.automaton.deterministicCount w.current ∧
      t.automaton.WellFormed m ∧
      ∀ u, t.automaton.Accepts m u ↔ r.Holds w.current u.length (u.tuple targets) := by
  apply (withTracks_runs hw h.automaton h.apart (absurd hmove)).imp
  rintro t w1 _ ⟨htracks, hcount, hfew, hwell, -, names, hroutes, haccepts⟩
  refine ⟨htracks, hcount, hfew, hwell, fun u => ?_⟩
  have htuple := Word.tuple_renamed (u := u) hroutes
  rw [hmove.widths.map_fst, hmove.widths.map_snd] at htuple
  rw [haccepts, ← holds_tuple_iff h.automaton hw.canonical hc, htuple, List.length_map]

open Classical in
/-- What the two relations make of a tuple decides what a product makes of it. No tuple is new. -/
theorem holds_of_product {t : RegularRelation} (hw : w.current.WellFormed)
    (hr : r.WellFormed w.current) (hs : s.WellFormed w.current) (hrc : r.Confined w.current)
    (hwidths : SameWidths r.tracks s.tracks) (hf : f false false = false)
    (htracks : t.tracks = r.tracks)
    (ht : ∀ u, t.automaton.Accepts m u ↔ f (decide (r.automaton.Accepts w.current u))
      (decide (s.Holds w.current u.length (u.tuple r.tracks))) = true) :
    t.Holds m n ws ↔
      f (decide (r.Holds w.current n ws)) (decide (s.Holds w.current n ws)) = true := by
  have hword : ∀ u : Word, t.automaton.Accepts m u ↔
      f (decide (r.Holds w.current u.length (u.tuple r.tracks)))
        (decide (s.Holds w.current u.length (u.tuple r.tracks))) = true := fun u => by
    rw [ht]
    simp only [holds_tuple_iff hr.automaton hw.canonical hrc]
  constructor
  · rintro ⟨u, rfl, haccepts, rfl⟩
    rw [htracks]
    exact (hword u).1 haccepts
  · intro hholds
    have hcarried : ∃ u : Word, u.length = n ∧ u.tuple r.tracks = ws := by
      by_cases hrn : r.Holds w.current n ws
      · obtain ⟨u, hlen, -, htuple⟩ := hrn
        exact ⟨u, hlen, htuple⟩
      by_cases hsn : s.Holds w.current n ws
      · obtain ⟨v, hlen, -, htuple⟩ := hsn
        obtain ⟨u, hlen', htuple'⟩ := exists_tuple hwidths hr.ends hs.ends hr.apart v
        exact ⟨u, hlen'.trans hlen, htuple'.trans htuple⟩
      · rw [decide_eq_false hrn, decide_eq_false hsn, hf] at hholds
        cases hholds
    obtain ⟨u, rfl, rfl⟩ := hcarried
    exact ⟨u, rfl, (hword u).2 hholds, by rw [htracks]⟩

section Operations

variable (hw : w.current.WellFormed) (hr : r.WellFormed w.current) (hs : s.WellFormed w.current)
  (hc : s.Confined w.current) (hwidths : SameWidths r.tracks s.tracks)

include hw hr hs hc hwidths

theorem aligned_yields : Yields w (r.aligned s) fun b m =>
    b.stateCount = s.automaton.stateCount ∧
      b.deterministicCount m ≤ s.automaton.deterministicCount w.current ∧ b.WellFormed m ∧
      ∀ u, b.Accepts m u ↔ s.Holds w.current u.length (u.tuple r.tracks) := by
  have hman : r.automaton.manager = s.automaton.manager :=
    hr.automaton.home.trans hs.automaton.home.symm
  unfold aligned
  rw [if_neg (not_not.2 hman)]
  apply Runs.bind (withTracks_yields hw hs hc ⟨hwidths.symm, hs.ends, hr.ends, hr.apart⟩)
  rintro t w1 hl1 ⟨-, ht⟩
  exact Runs.pure hl1.after ht

open Classical in
/-- A product with the aligned relation is the connective of the two relations. -/
theorem product_yields {w₁ : Workspace} (hrc : r.Confined w.current) (hf : f false false = false)
    (hb : r.aligned s w = .ok b w₁)
    (hproduct : Yields w₁ (r.automaton.combine b f) fun c m => c.WellFormed m ∧
      ∀ u, c.Accepts m u ↔ f (decide (r.automaton.Accepts w₁.current u))
        (decide (b.Accepts w₁.current u)) = true) :
    Yields w (do new r.tracks (← r.automaton.combine (← r.aligned s) f)) fun t m =>
      t.tracks = r.tracks ∧ ∀ n ws, t.Holds m n ws ↔
        f (decide (r.Holds w.current n ws)) (decide (s.Holds w.current n ws)) = true := by
  obtain ⟨hl₁, -, -, hwell, haligned⟩ := (aligned_yields hw hr hs hc hwidths).of_ok hb
  obtain ⟨c, w₂, hrun, hl₂, -, haccepts⟩ := yields_iff.1 hproduct
  refine yields_iff.2 ⟨⟨r.tracks, c⟩, w₂, ?_, hl₁.trans hl₂, rfl, fun n ws => ?_⟩
  · rw [bind_of_ok hb, bind_of_ok hrun, new_eq hr.apart hr.ends]
    rfl
  · refine holds_of_product hw hr hs hrc hwidths hf rfl fun u => ?_
    rw [haccepts]
    simp only [hr.automaton.accepts_later hl₁, haligned]

/-- The second relation can be read on the tracks of the first, whatever its own. Union,
intersection and difference then are those of the tuples, compared position by position, and so is
inclusion. -/
theorem operations_of_sameWidths (hrc : r.Confined w.current) :
    ∃ b w₁, r.aligned s w = .ok b w₁ ∧
    (r.automaton.Joinable s.automaton →
      (Yields w (r.union s) fun t m => t.tracks = r.tracks ∧
        ∀ n ws, t.Holds m n ws ↔ r.Holds w.current n ws ∨ s.Holds w.current n ws) ∧
      Yields w (r.inter s) fun t m => t.tracks = r.tracks ∧
        ∀ n ws, t.Holds m n ws ↔ r.Holds w.current n ws ∧ s.Holds w.current n ws) ∧
    (r.automaton.Pairable b w₁.current →
      (Yields w (r.sdiff s) fun t m => t.tracks = r.tracks ∧
        ∀ n ws, t.Holds m n ws ↔ r.Holds w.current n ws ∧ ¬ s.Holds w.current n ws) ∧
      Yields w (r.subset s) fun x _ => x = true ↔
        ∀ n ws, r.Holds w.current n ws → s.Holds w.current n ws) := by
  classical
  obtain ⟨b, w₁, hb, hl₁, hcount, -, hwell, haligned⟩ :=
    yields_iff.1 (aligned_yields hw hr hs hc hwidths)
  have hr₁ := hr.automaton.later hl₁
  have hmonotone (f : Connective) (hf : f.monotone = true)
      (hjoin : r.automaton.Joinable s.automaton) :=
    (SymbolicNfa.combine_monotone_yieldsIff hl₁.after hr₁ hwell hf).yields
      (show r.automaton.Joinable b by rwa [SymbolicNfa.Joinable, hcount])
  refine ⟨b, w₁, hb, fun hjoin => ⟨?_, ?_⟩, fun hpair => ⟨?_, ?_⟩⟩
  · apply (product_yields hw hr hs hc hwidths hrc rfl hb (hmonotone _ rfl hjoin)).imp
    simp
  · apply (product_yields hw hr hs hc hwidths hrc rfl hb (hmonotone _ rfl hjoin)).imp
    simp
  · apply (product_yields hw hr hs hc hwidths hrc rfl hb
      ((SymbolicNfa.combine_pairable_yieldsIff hl₁.after hr₁ hwell rfl).yields hpair)).imp
    simp
  · obtain ⟨x, w₂, hrun, hl₂, hx⟩ :=
      yields_iff.1 (SymbolicNfa.includedIn_yields hl₁.after hr₁ hwell hpair)
    refine yields_iff.2 ⟨x, w₂, ?_, hl₁.trans hl₂, ?_⟩
    · exact (bind_of_ok hb).trans hrun
    rw [hx, hr.automaton.language_later hl₁]
    constructor
    · rintro hsub _ _ ⟨u, rfl, haccepts, rfl⟩
      exact (haligned u).1 (hsub haccepts)
    · exact fun hholds u haccepts => (haligned u).2 (hholds _ _ ⟨u, rfl, haccepts, rfl⟩)

end Operations

section Bits

def bitTrack (bit : Nat) (h : bit ≠ 0 := by decide) : Domain := ⟨bit, 1, h⟩

def bitPair (i j : Nat) (a : SymbolicNfa) (hi : i ≠ 0 := by decide) (hj : j ≠ 0 := by decide) :
    RegularRelation := ⟨[bitTrack i hi, bitTrack j hj], a⟩

variable {bit i j p q : Nat} {hbit : bit ≠ 0} {hi : i ≠ 0} {hj : j ≠ 0}

theorem read_bitTrack {t : Assignment} : (bitTrack bit hbit).read t = (t bit).toNat := by
  apply Nat.eq_of_testBit_eq
  intro i
  rw [Domain.testBit_read]
  change (decide (i < 1) && t (bit + i)) = _
  cases i with
  | zero => cases t bit <;> simp
  | succ i => cases t bit <;> simp [Nat.testBit_succ]

theorem bitPair_apart (h : i ≠ j) : (bitPair i j a hi hj).tracks.Pairwise Domain.Apart := by
  refine List.pairwise_pair.2 fun c h1 h2 h3 => ?_
  change i ≤ c at h1
  change c < i + 1 at h2
  change j ≤ c at h3
  change j + 1 ≤ c
  omega

theorem bitPair_ends {n : Nat} (hin : i < n) (hjn : j < n) : EndBy n (bitPair i j a hi hj).tracks :=
  List.forall_mem_cons.2 ⟨hin, List.forall_mem_singleton.2 hjn⟩

theorem bitPair_wellFormed (h : a.WellFormed m) (hij : i ≠ j) (hin : i ≤ maxSymbolBits)
    (hjn : j ≤ maxSymbolBits) : (bitPair i j a hi hj).WellFormed m :=
  ⟨h, bitPair_apart hij, bitPair_ends (Nat.lt_succ_of_le hin) (Nat.lt_succ_of_le hjn)⟩

theorem confined_of_mem (h : bit ≠ 0) (hmem : bitTrack bit h ∈ r.tracks)
    (ha : ∀ b, r.automaton.DependsOn m b ↔ b = bit) : r.Confined m :=
  fun b hb => ⟨_, hmem, ((ha b).1 hb).ge, Nat.lt_succ_of_le ((ha b).1 hb).le⟩

theorem holds_of_letters
    (hr : ∀ u, r.automaton.Accepts m u ↔ ∃ x : Letter, u = [x] ∧ x.bits bit = true) :
    r.Holds m 1 ws ↔ ∃ x : Letter, x.bits bit = true ∧ Word.tuple [x] r.tracks = ws := by
  constructor
  · rintro ⟨u, -, haccepts, rfl⟩
    obtain ⟨x, rfl, hx⟩ := (hr u).1 haccepts
    exact ⟨x, hx, rfl⟩
  · rintro ⟨x, hx, rfl⟩
    exact ⟨[x], rfl, (hr _).2 ⟨x, rfl, hx⟩, rfl⟩

theorem bitPair_holds_iff
    (ha : ∀ u, a.Accepts m u ↔ ∃ x : Letter, u = [x] ∧ x.bits 1 = true) :
    (bitPair 1 2 a).Holds m 1 [[p], [q]] ↔ p = 1 ∧ q ≤ 1 := by
  rw [holds_of_letters ha]
  simp only [bitPair, Word.tuple, Word.on, List.map_cons, List.map_nil, read_bitTrack,
    List.cons.injEq, and_true]
  constructor
  · rintro ⟨x, hx, rfl, rfl⟩
    exact ⟨by rw [hx]; rfl, Bool.toNat_le _⟩
  · rintro ⟨rfl, hq⟩
    refine ⟨.ofBits fun b => b = 1 || q = 1, rfl, rfl, ?_⟩
    change (decide (q = 1)).toNat = q
    rcases Nat.le_one_iff_eq_zero_or_eq_one.1 hq with rfl | rfl <;> rfl

theorem bitPair_crossed_holds_iff
    (ha : ∀ u, a.Accepts m u ↔ ∃ x : Letter, u = [x] ∧ x.bits 1 = true) :
    (bitPair 2 1 a).Holds m 1 [[p], [q]] ↔ q = 1 ∧ p ≤ 1 := by
  have hswap : (bitPair 2 1 a).Holds m 1 [[p], [q]] ↔ (bitPair 1 2 a).Holds m 1 [[q], [p]] := by
    rw [holds_of_letters ha, holds_of_letters ha]
    simp only [bitPair, Word.tuple, List.map_cons, List.map_nil, List.cons.injEq, and_true]
    exact exists_congr fun x => and_congr_right fun _ => and_comm
  rw [hswap, bitPair_holds_iff ha]

/-- On crossed tracks of one automaton, one relation fixes the first word of a pair and the other
the second word. -/
theorem operations_of_sameWidths_ofBit : ∃ m a w, Manager.new 0 1 1 = .ok m ∧
    SymbolicNfa.ofBit 1 ⟨m, []⟩ = .ok a w ∧
    (∃ t w', (bitPair 1 2 a).union (bitPair 2 1 a) w = .ok t w' ∧ t.Holds w'.current 1 [[0], [1]]) ∧
    (∃ t w', (bitPair 1 2 a).inter (bitPair 2 1 a) w = .ok t w' ∧ t.Holds w'.current 1 [[1], [1]] ∧
      ¬ t.Holds w'.current 1 [[1], [0]]) ∧
    (∃ t w', (bitPair 1 2 a).sdiff (bitPair 2 1 a) w = .ok t w' ∧ t.Holds w'.current 1 [[1], [0]] ∧
      ¬ t.Holds w'.current 1 [[1], [1]]) ∧
    ∃ w', (bitPair 1 2 a).subset (bitPair 2 1 a) w = .ok false w' := by
  obtain ⟨m, hm⟩ : ∃ m, Manager.new 0 1 1 = .ok m := ⟨_, rfl⟩
  obtain ⟨a, w, ha, hl, hcount, hwell, haccepts, hdepends⟩ := yields_iff.1
    (SymbolicNfa.ofBit_yields 1 (w := ⟨m, []⟩) (Manager.wellFormed_new hm) (by decide)
      (by decide))
  have hfirst : (bitPair 1 2 a).WellFormed w.current :=
    bitPair_wellFormed hwell (by decide) (by decide) (by decide)
  have hsecond : (bitPair 2 1 a).WellFormed w.current :=
    bitPair_wellFormed hwell (by decide) (by decide) (by decide)
  have hconfined : (bitPair 2 1 a).Confined w.current :=
    confined_of_mem (by decide) (List.mem_cons_of_mem _ List.mem_cons_self) hdepends
  have hwidths : SameWidths (bitPair 1 2 a).tracks (bitPair 2 1 a).tracks :=
    .cons rfl (.cons rfl .nil)
  obtain ⟨b, w₁, hb, hjoined, hpaired⟩ := operations_of_sameWidths hl.after
    hfirst hsecond hconfined hwidths (confined_of_mem (by decide) List.mem_cons_self hdepends)
  obtain ⟨hl₁, hcount₁, -, hwell₁, -⟩ :=
    (aligned_yields hl.after hfirst hsecond hconfined hwidths).of_ok hb
  have hjoin : a.Joinable a := by
    rw [SymbolicNfa.Joinable, hcount]
    decide
  have hpair : a.Pairable b w₁.current := SymbolicNfa.pairable_of_le (hwell.later hl₁) hwell₁
    hl₁.after.canonical (by omega) (by rw [hcount₁]; change a.stateCount ≤ 4; omega)
  obtain ⟨hunion, hinter⟩ := hjoined hjoin
  obtain ⟨hsdiff, hsubset⟩ := hpaired hpair
  obtain ⟨t₁, v₁, hrun₁, -, -, hholds₁⟩ := yields_iff.1 hunion
  obtain ⟨t₂, v₂, hrun₂, -, -, hholds₂⟩ := yields_iff.1 hinter
  obtain ⟨t₃, v₃, hrun₃, -, -, hholds₃⟩ := yields_iff.1 hsdiff
  obtain ⟨x, v₄, hrun₄, -, hx⟩ := yields_iff.1 hsubset
  have hnot : x = false := Bool.eq_false_of_not_eq_true fun htrue => by
    have hmem := hx.1 htrue 1 [[1], [0]] ((bitPair_holds_iff haccepts).2 (by decide))
    exact absurd ((bitPair_crossed_holds_iff haccepts).1 hmem) (by decide)
  refine ⟨m, a, w, hm, ha, ⟨t₁, v₁, hrun₁, ?_⟩, ⟨t₂, v₂, hrun₂, ?_⟩, ⟨t₃, v₃, hrun₃, ?_⟩, v₄,
    hnot ▸ hrun₄⟩
  all_goals
    simp only [hholds₁, hholds₂, hholds₃, bitPair_holds_iff haccepts,
      bitPair_crossed_holds_iff haccepts]
    decide

end Bits

end RegularRelation

end SymbolicAutomata
