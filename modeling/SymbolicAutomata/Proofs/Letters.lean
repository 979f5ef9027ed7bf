import SymbolicAutomata.Proofs.Decisions
import SymbolicAutomata.Proofs.Encodings
import SymbolicAutomata.Proofs.Relabellings
/-!
# Words over other symbols

An automaton whose symbols are renamed reads each letter under the new names of its bits; one whose
bits are made irrelevant reads some letter that agrees elsewhere. An edge depends on a bit if two
letters that differ in this bit alone tell it apart. Letters that agree on all such bits are on the
same edges.
-/
namespace SymbolicAutomata

open Manager Bdd Layout

namespace Letter

variable {x y : Letter} {names : Renaming} {b n : Nat} {d : Domain}

/-- The values of the symbol bits by their numbers, which begin at 1. -/
def bits (x : Letter) : Assignment
  | 0 => false
  | i + 1 => x i

def ofBits (s : Assignment) : Letter := fun i => s (i + 1)

def renamed (names : Renaming) (x : Letter) : Letter := ofBits (names.pull x.bits)

/-- The letter with a number written on some bits. -/
def put (d : Domain) (x : Letter) (n : Nat) : Letter := ofBits (d.write n x.bits)

theorem bits_ofBits {s : Assignment} (hb : b ≠ 0) : (ofBits s).bits b = s b := by
  cases b with
  | zero => exact absurd rfl hb
  | succ i => rfl

theorem bits_renamed (hb : b ≠ 0) : (x.renamed names).bits b = x.bits (names.apply b) :=
  bits_ofBits hb

theorem renamed_of_isIdentity (h : names.isIdentity = true) : x.renamed names = x := by
  funext i
  have hname : names.apply (i + 1) = i + 1 :=
    Renaming.apply_of_notMem fun hmem => by simp [Std.TreeMap.mem_iff_contains,
      Std.TreeMap.contains_of_isEmpty h] at hmem
  change x.bits (names.apply (i + 1)) = x i
  rw [hname]
  rfl

theorem bits_put : (x.put d n).bits = d.write n x.bits := by
  funext b
  cases b with
  | zero =>
    have hbase := d.base_ne_zero
    exact (if_neg (by omega)).symm
  | succ i => rfl

def spread (x : Letter) : Assignment := fun v => x (v - alphabetBase)

theorem code_eq (x : Letter) : x.code = alphabet.read x.spread := rfl

theorem spread_add {i : Nat} : x.spread (alphabetBase + i) = x.bits (i + 1) :=
  congrArg x (Nat.add_sub_cancel_left ..)

theorem testBit_alphabet {t : Assignment} (hpos : 0 < b) (hle : b ≤ maxSymbolBits) :
    (alphabet.read t).testBit (b - 1) = t (alphabetBase + (b - 1)) := by
  have hlt : b - 1 < alphabet.len := show b - 1 < maxSymbolBits by omega
  rw [Domain.testBit_read, decide_eq_true hlt, Bool.true_and]
  rfl

theorem testBit_code (hpos : 0 < b) (hle : b ≤ maxSymbolBits) :
    x.code.testBit (b - 1) = x.bits b := by
  rw [code_eq, testBit_alphabet hpos hle, spread_add, Nat.sub_add_cancel hpos]

theorem code_congr (h : ∀ b, 0 < b → b ≤ maxSymbolBits → x.bits b = y.bits b) :
    x.code = y.code := by
  refine Domain.read_congr fun v h1 h2 => ?_
  change 97 ≤ v at h1
  change v < 97 + maxSymbolBits at h2
  exact h (v - 97 + 1) (by omega) (by omega)

end Letter

def Word.put (d : Domain) (u : Word) (ns : List Nat) : Word := List.zipWith (Letter.put d) u ns

def Layout.symbolBlock (d : Domain) : Domain :=
  ⟨alphabetBase + (d.base - 1), d.len, by simp [alphabetBase, destBase, partitionBase, sourceBase]⟩

theorem Layout.symbols_eq_ok_iff {d e : Domain} :
    symbols d = .ok e ↔ d.base + d.len ≤ maxSymbolBits + 1 ∧ e = symbolBlock d := by
  have hbase := d.base_ne_zero
  have hmax : maxSymbolBits = 65536 := rfl
  have hpow : Nat.pow 2 32 = 4294967296 := rfl
  have hne : alphabetBase + (d.base - 1) ≠ 0 := by
    have : alphabetBase = 97 := rfl
    omega
  have hsub : alphabetBase + d.base - 1 = alphabetBase + (d.base - 1) := by omega
  unfold symbols Domain.stop fits
  by_cases hle : d.base + d.len ≤ maxSymbolBits + 1
  · have hfits : d.base + d.len < Nat.pow 2 32 := by omega
    simp only [hfits, ↓reduceIte, bind, Except.bind, hle, Domain.new, hne, ne_eq,
      not_false_eq_true, ↓reduceDIte, Except.ok.injEq, true_and, symbolBlock, hsub]
    exact eq_comm
  · by_cases hfits : d.base + d.len < Nat.pow 2 32
    · simp [hfits, hle, bind, Except.bind]
    · simp [hfits, hle, bind, Except.bind]

namespace SymbolSet

variable {names r : Renaming} {bit v : Nat}

theorem bitVar_eq_ok_iff :
    bitVar bit = .ok v ↔ 0 < bit ∧ bit ≤ maxSymbolBits ∧ v = alphabetBase + (bit - 1) := by
  rcases Nat.eq_zero_or_pos bit with rfl | hpos
  · simp [bitVar, Domain.new, bind, Except.bind]
  have hone : Domain.new bit 1 = .ok ⟨bit, 1, by omega⟩ := dif_pos (by omega)
  constructor
  · intro h
    obtain ⟨d, hd, h⟩ := exists_of_bind_eq_ok h
    obtain rfl : (⟨bit, 1, by omega⟩ : Domain) = d := Except.ok.inj (hone.symm.trans hd)
    obtain ⟨e, he, h⟩ := exists_of_bind_eq_ok h
    obtain ⟨hle, rfl⟩ := symbols_eq_ok_iff.1 he
    exact ⟨hpos, Nat.le_of_succ_le_succ hle, (Except.ok.inj h).symm⟩
  · rintro ⟨-, hle, rfl⟩
    have hblock : symbols ⟨bit, 1, by omega⟩ = .ok (symbolBlock ⟨bit, 1, by omega⟩) :=
      symbols_eq_ok_iff.2 ⟨Nat.succ_le_succ hle, rfl⟩
    rw [bitVar, hone]
    change (symbols ⟨bit, 1, _⟩ >>= fun d => pure d.base) = _
    rw [hblock]
    rfl

/-- The variable of the new name of a bit, by the variable of the bit. -/
def bitName (names : Renaming) (v : Nat) : Nat :=
  alphabetBase + (names.apply (v - alphabetBase + 1) - 1)

theorem bitName_eq (hpos : 0 < bit) :
    bitName names (alphabetBase + (bit - 1)) = alphabetBase + (names.apply bit - 1) := by
  rw [bitName, Nat.add_sub_cancel_left, Nat.sub_add_cancel hpos]

theorem bitRenaming_entry {b c : Nat} {e : Nat × Nat} (hbc : (b, c) ∈ names.entries)
    (he : (do return (← bitVar b, ← bitVar c)) = Except.ok e) :
    0 < b ∧ 0 < c ∧ e = (alphabetBase + (b - 1), bitName names (alphabetBase + (b - 1))) := by
  obtain ⟨v, hv, he⟩ := exists_of_bind_eq_ok he
  obtain ⟨v', hv', he⟩ := exists_of_bind_eq_ok he
  obtain ⟨hb, -, rfl⟩ := bitVar_eq_ok_iff.1 hv
  obtain ⟨hc, -, rfl⟩ := bitVar_eq_ok_iff.1 hv'
  rw [bitName_eq hb, Renaming.apply_of_mem_entries hbc]
  exact ⟨hb, hc, (Except.ok.inj he).symm⟩

theorem bitRenaming_apply (h : bitRenaming names = .ok r) (hpos : 0 < bit) :
    0 < names.apply bit ∧
      r.apply (alphabetBase + (bit - 1)) = alphabetBase + (names.apply bit - 1) := by
  obtain ⟨es, hmake, h⟩ := exists_of_bind_eq_ok h
  obtain rfl : Renaming.ofList es = r := Except.ok.inj h
  have hpairs := forall₂_of_mapM hmake
  have hnew : ∀ e ∈ es, e.2 = bitName names e.1 := by
    intro e he
    obtain ⟨⟨b, c⟩, hbc, hmade⟩ := exists_left_of_forall₂ hpairs e he
    obtain ⟨-, -, rfl⟩ := bitRenaming_entry hbc hmade
    rfl
  rw [Renaming.ofList, Renaming.apply_foldl_insert _ hnew, bitName_eq hpos]
  by_cases hbit : bit ∈ names.names
  · obtain ⟨⟨b, c⟩, hbc, rfl⟩ := List.mem_map.1 (Renaming.mem_entries_fst.2 hbit)
    obtain ⟨e, he, hmade⟩ := exists_right_of_forall₂ hpairs (b, c) hbc
    obtain ⟨-, hc, rfl⟩ := bitRenaming_entry hbc hmade
    rw [if_pos (List.mem_map_of_mem he), Renaming.apply_of_mem_entries hbc]
    exact ⟨hc, rfl⟩
  · rw [Renaming.apply_of_notMem hbit]
    exact ⟨hpos, ite_self _⟩

theorem exists_bitRenaming (h : ∀ b ∈ names.names, 0 < b ∧ b ≤ maxSymbolBits ∧
    0 < names.apply b ∧ names.apply b ≤ maxSymbolBits) : ∃ r, bitRenaming names = .ok r := by
  refine ⟨.ofList (names.entries.map fun e =>
    (alphabetBase + (e.1 - 1), alphabetBase + (e.2 - 1))), ?_⟩
  unfold bitRenaming
  rw [mapM_eq_ok (g := fun e => (alphabetBase + (e.1 - 1), alphabetBase + (e.2 - 1)))]
  · rfl
  · rintro ⟨b, c⟩ hbc
    have hc := Renaming.apply_of_mem_entries hbc
    obtain ⟨h1, h2, h3, h4⟩ := h b (Renaming.mem_entries_fst.1 (List.mem_map_of_mem hbc))
    rw [hc] at h3 h4
    simp only [bitVar_eq_ok_iff.2 ⟨h1, h2, rfl⟩, bitVar_eq_ok_iff.2 ⟨h3, h4, rfl⟩]
    rfl

theorem ofBit_yields {w : Workspace} (hw : w.current.WellFormed) (hpos : 0 < bit)
    (hle : bit ≤ maxSymbolBits) :
    Yields w (ofBit bit) fun s m => s.Shows m fun c => c.testBit (bit - 1) = true := by
  unfold ofBit
  rw [if_neg hpos.ne']
  apply Runs.lift_bind (bitVar_eq_ok_iff.2 ⟨hpos, hle, rfl⟩)
  apply Runs.bind (literal_yields hw (Nat.add_pos_left (by decide) _))
  intro f w1 hl1 hf
  refine Runs.ask_bind (a := w1.current.id) rfl (Runs.pure hl1.after ⟨rfl, ?_⟩)
  exact hf.congr fun t => by rw [Letter.testBit_alphabet hpos hle]

end SymbolSet

section Relabelled

variable {g g' : NFA Nat Nat} {A : Letter → Letter → Prop} {T : Assignment → Assignment → Prop}
  {names r : Renaming} {d : Domain} {x : Letter} {u : Word} {p q : Nat}

/-- Where each letter of one automaton stands for some letters of another, so does each word. -/
theorem mem_evalFrom_of_letterwise
    (hstep : ∀ p q x, q ∈ g'.step p (Letter.code x) ↔ ∃ y, A x y ∧ q ∈ g.step p y.code) :
    q ∈ g'.evalFrom {p} u.codes ↔ ∃ v : Word, List.Forall₂ A u v ∧ q ∈ g.evalFrom {p} v.codes := by
  induction u generalizing p with
  | nil => simp [Word.codes]
  | cons x u ih =>
    simp only [List.forall₂_cons_left_iff]
    change q ∈ g'.evalFrom {p} (x.code :: Word.codes u) ↔ _
    rw [NFA.evalFrom_cons, NFA.stepSet_singleton, NFA.mem_evalFrom_iff_exists]
    constructor
    · rintro ⟨p', hp', hq⟩
      obtain ⟨y, hxy, hstep'⟩ := (hstep p p' x).1 hp'
      obtain ⟨v, huv, hq⟩ := ih.1 hq
      refine ⟨y :: v, ⟨y, v, hxy, huv, rfl⟩, ?_⟩
      change q ∈ g.evalFrom {p} (y.code :: Word.codes v)
      rw [NFA.evalFrom_cons, NFA.stepSet_singleton, NFA.mem_evalFrom_iff_exists]
      exact ⟨p', hstep', hq⟩
    · rintro ⟨-, ⟨y, v, hxy, huv, rfl⟩, hq⟩
      change q ∈ g.evalFrom {p} (y.code :: Word.codes v) at hq
      rw [NFA.evalFrom_cons, NFA.stepSet_singleton, NFA.mem_evalFrom_iff_exists] at hq
      obtain ⟨p', hstep', hq⟩ := hq
      exact ⟨p', (hstep p p' x).2 ⟨y, hxy, hstep'⟩, ih.2 ⟨v, huv, hq⟩⟩

theorem accepts_relabelled
    (hstep : ∀ p q x, q ∈ (relabelled g T).step p (Letter.code x) ↔
      ∃ y, A x y ∧ q ∈ g.step p y.code) :
    u.codes ∈ (relabelled g T).accepts ↔ ∃ v : Word, List.Forall₂ A u v ∧ v.codes ∈ g.accepts := by
  have hstart : (relabelled g T).start = g.start := rfl
  have haccept : (relabelled g T).accept = g.accept := rfl
  simp only [mem_accepts_iff_exists, hstart, haccept, mem_evalFrom_of_letterwise hstep]
  constructor
  · rintro ⟨p, hp, q, hq, v, huv, hrun⟩
    exact ⟨v, huv, p, hp, q, hq, hrun⟩
  · rintro ⟨v, huv, p, hp, q, hq, hrun⟩
    exact ⟨p, hp, q, hq, v, huv, hrun⟩

theorem Lettering.step_code_iff (hT : Lettering T) :
    q ∈ (relabelled g T).step p x.code ↔ ∃ t, T x.spread t ∧ q ∈ g.step p (alphabet.read t) := by
  rw [x.code_eq]
  constructor
  · rintro ⟨t, u, htu, hread, hq⟩
    obtain ⟨u', hu', hletter⟩ := hT.letter t u x.spread htu hread.symm
    exact ⟨u', hu', by rwa [hletter]⟩
  · rintro ⟨t, ht, hq⟩
    exact ⟨x.spread, t, ht, rfl, hq⟩

theorem pulled_step_iff (hr : SymbolSet.bitRenaming names = .ok r) :
    q ∈ (relabelled g fun t u => u = r.pull t).step p x.code ↔
      q ∈ g.step p (x.renamed names).code := by
  have hcode : alphabet.read (r.pull x.spread) = (x.renamed names).code := by
    refine Domain.read_congr fun v hv _ => ?_
    change alphabetBase ≤ v at hv
    obtain ⟨hpos, hname⟩ := SymbolSet.bitRenaming_apply hr (Nat.succ_pos (v - alphabetBase))
    rw [Nat.succ_sub_one, Nat.add_sub_cancel' hv] at hname
    change x.spread (r.apply v) = x.bits (names.apply (v - alphabetBase).succ)
    rw [hname, Letter.spread_add, Nat.sub_add_cancel hpos]
  rw [(lettering_pull (SymbolSet.bitRenaming_ofLetters hr)).step_code_iff]
  simp only [exists_eq_left, hcode]

theorem evalFrom_pulled {S : Set Nat} (hr : SymbolSet.bitRenaming names = .ok r) :
    (relabelled g fun t u => u = r.pull t).evalFrom S u.codes =
      g.evalFrom S (Word.codes (u.map (Letter.renamed names))) := by
  have hmap : ∀ v : Word, List.Forall₂ (fun x y => x.renamed names = y) u v ↔
      u.map (Letter.renamed names) = v := fun v => by
    rw [← List.forall₂_map_left_iff, List.forall₂_eq_eq_eq]
  ext q
  rw [NFA.mem_evalFrom_iff_exists, NFA.mem_evalFrom_iff_exists]
  refine exists_congr fun p => and_congr_right fun _ => ?_
  rw [mem_evalFrom_of_letterwise (A := fun x y => x.renamed names = y) fun p q x => by
    rw [pulled_step_iff hr, exists_eq_left']]
  simp only [hmap, exists_eq_left']

theorem projected_step_iff (hd : d.base + d.len ≤ maxSymbolBits + 1) :
    q ∈ (relabelled g (AgreeOff (symbolBlock d))).step p x.code ↔
      ∃ y : Letter, AgreeOff d x.bits y.bits ∧ q ∈ g.step p y.code := by
  have hbase := d.base_ne_zero
  have hblock : ∀ i, (symbolBlock d).base ≤ alphabetBase + i ∧
      alphabetBase + i < (symbolBlock d).base + (symbolBlock d).len ↔
      d.base ≤ i + 1 ∧ i + 1 < d.base + d.len := fun i => by
    change alphabetBase + (d.base - 1) ≤ alphabetBase + i ∧
      alphabetBase + i < alphabetBase + (d.base - 1) + d.len ↔ _
    omega
  rw [(lettering_agreeOff (symbols_within (symbols_eq_ok_iff.2 ⟨hd, rfl⟩)).1).step_code_iff]
  constructor
  · rintro ⟨t, ht, hq⟩
    refine ⟨fun i => t (alphabetBase + i), fun b hb => ?_, ?_⟩
    · cases b with
      | zero => rfl
      | succ i => rw [← Letter.spread_add, ht _ (mt (hblock i).1 hb), Letter.bits]
    · have hcode : Letter.code (fun i => t (alphabetBase + i)) = alphabet.read t :=
        Domain.read_congr fun v hv _ => congrArg t (Nat.add_sub_cancel' hv)
      rwa [hcode]
  · rintro ⟨y, hxy, hq⟩
    refine ⟨fun v => if alphabetBase ≤ v then y.spread v else x.spread v, fun v hv => ?_, ?_⟩
    · by_cases hle : alphabetBase ≤ v
      · obtain ⟨i, rfl⟩ := Nat.exists_eq_add_of_le hle
        refine Eq.trans ?_ (if_pos hle).symm
        rw [Letter.spread_add, Letter.spread_add]
        exact hxy _ (mt (hblock i).2 hv)
      · exact (if_neg hle).symm
    · have hcode : alphabet.read (fun v => if alphabetBase ≤ v then y.spread v else x.spread v) =
          y.code := Domain.read_congr fun v hv _ => if_pos hv
      rwa [hcode]

end Relabelled

namespace SymbolicNfa

variable {w : Workspace} {m : Manager} {a : SymbolicNfa} {names : Renaming} {d : Domain}
  {x y : Letter} {u v : Word} {p q : Nat}

/-- Each word is read under the new names of its bits, and leads to no new power-states. -/
theorem rename_accepts (hw : w.current.WellFormed) (h : a.WellFormed w.current) :
    Runs (∀ r, SymbolSet.bitRenaming names ≠ .ok r) w (a.rename names) fun b m =>
      b.stateCount = a.stateCount ∧ b.deterministicCount m ≤ a.deterministicCount w.current ∧
        b.WellFormed m ∧
        ∀ u, b.Accepts m u ↔ a.Accepts w.current (u.map (Letter.renamed names)) := by
  obtain ⟨g, hshows, hg⟩ := h.shown
  apply (rename_runs hw hshows).imp
  rintro b w1 hl1 ⟨hcount, hflag, r, hr, hb⟩
  have hgb : Contained (relabelled g fun t u => u = r.pull t) b.stateCount :=
    hcount ▸ hg.relabelled _
  refine ⟨hcount, ?_, ⟨⟨_, hb, hgb⟩, honest_of_unknown hflag⟩, fun u => ?_⟩
  · have hsub : b.powerStates w1.current ⊆ a.powerStates w.current := by
      rintro _ ⟨u, rfl⟩
      refine ⟨u.map (Letter.renamed names), ?_⟩
      rw [hshows.reached_eq hw.canonical hg.toBounded,
        hb.reached_eq hl1.after.canonical hgb.toBounded, evalFrom_pulled hr]
      rfl
    rw [deterministicCount, if_neg (by rw [hflag]; decide)]
    exact (Set.encard_le_encard hsub).trans
      (h.encard_powerStates_le_deterministicCount hw.canonical)
  · rw [hb.accepts_iff hl1.after.canonical hgb.toBounded,
      hshows.accepts_iff hw.canonical hg.toBounded]
    change (∃ q ∈ g.accept, q ∈ (relabelled g _).evalFrom g.start u.codes) ↔ _
    rw [evalFrom_pulled hr]
    rfl

theorem project_accepts (hw : w.current.WellFormed) (h : a.WellFormed w.current) :
    Runs (maxSymbolBits + 1 < d.base + d.len) w (a.project d) fun b m =>
      d.base + d.len ≤ maxSymbolBits + 1 ∧ b.WellFormed m ∧ ∀ u, b.Accepts m u ↔
        ∃ v : Word, List.Forall₂ (fun x y => AgreeOff d x.bits y.bits) u v ∧
          a.Accepts w.current v := by
  obtain ⟨g, hshows, hg⟩ := h.shown
  apply (project_runs hw hshows).mono
  · intro hnone
    by_contra hle
    exact hnone _ (symbols_eq_ok_iff.2 ⟨Nat.not_lt.1 hle, rfl⟩)
  rintro b w1 hl1 ⟨hcount, hflag, e, he, hb⟩
  obtain ⟨hle, rfl⟩ := symbols_eq_ok_iff.1 he
  have hgb : Contained (relabelled g (AgreeOff (symbolBlock d))) b.stateCount :=
    hcount ▸ hg.relabelled _
  refine ⟨hle, ⟨⟨_, hb, hgb⟩, honest_of_unknown hflag⟩, fun u => ?_⟩
  rw [hb.accepts_iff hl1.after.canonical hgb.toBounded,
    accepts_relabelled fun p q x => projected_step_iff hle]
  simp only [hshows.accepts_iff hw.canonical hg.toBounded]

/-- Two letters that differ in this bit alone are not on the same edges. -/
def DependsOn (a : SymbolicNfa) (m : Manager) (bit : Nat) : Prop :=
  ∃ p q x y, (∀ b, b ≠ bit → x.bits b = y.bits b) ∧ a.HasEdge m p x q ∧ ¬ a.HasEdge m p y q

theorem WellFormed.dependsOn_later {w' : Workspace} {bit : Nat} (h : a.WellFormed w.current)
    (hl : w.Leads w') : a.DependsOn w'.current bit ↔ a.DependsOn w.current bit := by
  obtain ⟨g, hg, hb⟩ := h.shown
  unfold DependsOn
  simp only [hg.hasEdge_iff hl.before.canonical, (hg.later hl).hasEdge_iff hl.after.canonical]

/-- The letters agree where the edges tell letters apart. -/
def Identifies (a : SymbolicNfa) (m : Manager) (x y : Letter) : Prop :=
  ∀ b, a.DependsOn m b → x.bits b = y.bits b

/-- From one letter to the other bit by bit. -/
theorem HasEdge.of_identifies (h : a.WellFormed m) (hm : m.Canonical) (hxy : a.Identifies m x y)
    (hedge : a.HasEdge m p x q) : a.HasEdge m p y q := by
  have hpartly : ∀ n, a.HasEdge m p (.ofBits fun b => if b ≤ n then y.bits b else x.bits b) q := by
    intro n
    induction n with
    | zero =>
      have hx : (Letter.ofBits fun b => if b ≤ 0 then y.bits b else x.bits b) = x := rfl
      rwa [hx]
    | succ n ih =>
      by_contra hnot
      have hdepends : a.DependsOn m (n + 1) := by
        refine ⟨p, q, _, _, fun b hb => ?_, ih, hnot⟩
        cases b with
        | zero => rfl
        | succ i =>
          rw [Letter.bits_ofBits (by omega), Letter.bits_ofBits (by omega)]
          have hiff : i + 1 ≤ n ↔ i + 1 ≤ n + 1 := by omega
          simp only [hiff]
      have hsame : (Letter.ofBits fun b => if b ≤ n then y.bits b else x.bits b) =
          .ofBits fun b => if b ≤ n + 1 then y.bits b else x.bits b := by
        funext i
        have hbit := hxy _ hdepends
        simp only [Letter.ofBits]
        by_cases hi : i = n
        · subst hi
          simpa using hbit
        · have hiff : i + 1 ≤ n ↔ i + 1 ≤ n + 1 := by omega
          simp only [hiff]
      exact hnot (hsame ▸ ih)
  obtain ⟨g, hshows, hg⟩ := h.shown
  have hcode : Letter.code (.ofBits fun b => if b ≤ maxSymbolBits then y.bits b else x.bits b) =
      y.code := Letter.code_congr fun b hpos hle => by
    rw [Letter.bits_ofBits hpos.ne', if_pos hle]
  have hlast := hpartly maxSymbolBits
  rw [hshows.hasEdge_code_iff hm hg.toBounded, hcode] at hlast
  exact (hshows.hasEdge_code_iff hm hg.toBounded).2 hlast

theorem Identifies.symm (h : a.Identifies m x y) : a.Identifies m y x := fun b hb => (h b hb).symm

theorem run_of_identifies (h : a.WellFormed m) (hm : m.Canonical)
    (huv : List.Forall₂ (a.Identifies m) u v) (hrun : a.Run m p u q) : a.Run m p v q := by
  induction huv generalizing p with
  | nil => exact hrun
  | cons hxy _ ih =>
    obtain ⟨p', hfirst, hrest⟩ := run_cons_iff.1 hrun
    exact run_cons_iff.2 ⟨p', hfirst.of_identifies h hm hxy, ih hrest⟩

/-- Words whose letters agree where it matters are both accepted or both not. -/
theorem accepts_congr (h : a.WellFormed m) (hm : m.Canonical)
    (huv : List.Forall₂ (a.Identifies m) u v) : a.Accepts m u ↔ a.Accepts m v := by
  have hvu : List.Forall₂ (a.Identifies m) v u := huv.flip.imp fun _ _ => Identifies.symm
  constructor
  · rintro ⟨p, q, hp, hrun, hq⟩
    exact ⟨p, q, hp, run_of_identifies h hm huv hrun, hq⟩
  · rintro ⟨p, q, hp, hrun, hq⟩
    exact ⟨p, q, hp, run_of_identifies h hm hvu hrun, hq⟩

/-- No edge depends on a bit of the domain. -/
def Misses (a : SymbolicNfa) (m : Manager) (d : Domain) : Prop :=
  ∀ bit, a.DependsOn m bit → ¬ (d.base ≤ bit ∧ bit < d.base + d.len)

theorem Misses.accepts_congr (hd : a.Misses m d) (h : a.WellFormed m) (hm : m.Canonical)
    (huv : List.Forall₂ (fun x y => AgreeOff d x.bits y.bits) u v) :
    a.Accepts m u ↔ a.Accepts m v :=
  SymbolicNfa.accepts_congr h hm (huv.imp fun _ _ hxy bit hbit => hxy bit (hd bit hbit))

def ofBit (bit : Nat) : BddM SymbolicNfa := do ofSymbols (← SymbolSet.ofBit bit)

theorem ofBit_yields (bit : Nat) (hw : w.current.WellFormed) (hpos : 0 < bit)
    (hle : bit ≤ maxSymbolBits) :
    Yields w (ofBit bit) fun a m => a.stateCount = 2 ∧ a.WellFormed m ∧
      (∀ u, a.Accepts m u ↔ ∃ x : Letter, u = [x] ∧ x.bits bit = true) ∧
      ∀ b, a.DependsOn m b ↔ b = bit := by
  apply Runs.bind (SymbolSet.ofBit_yields hw hpos hle)
  intro s w1 hl1 hs
  apply (ofSymbols_yields (L := fun c => c.testBit (bit - 1) = true) hl1.after hs.denotes).imp
  rintro a w2 hl2 ⟨hcount, hflag, hshows⟩
  have hcontained : Contained (oneLetter fun c => c.testBit (bit - 1) = true) a.stateCount :=
    hcount ▸ oneLetter_contained _
  have hm := hl2.after.canonical
  have hedge (p x q) : a.HasEdge w2.current p x q ↔ p = 0 ∧ x.bits bit = true ∧ q = 1 := by
    rw [hshows.hasEdge_code_iff hm hcontained.toBounded, mem_oneLetter_step,
      Letter.testBit_code hpos hle]
  refine ⟨hcount, ⟨⟨_, hshows, hcontained⟩, honest_of_unknown hflag⟩, fun u => ?_, fun b => ?_⟩
  · rw [hshows.accepts_iff hm hcontained.toBounded, oneLetter_accepts_iff]
    constructor
    · rintro ⟨c, hu, hc⟩
      obtain ⟨x, rfl, rfl⟩ := List.map_eq_singleton_iff.1 hu
      exact ⟨x, rfl, by rwa [← Letter.testBit_code hpos hle]⟩
    · rintro ⟨x, rfl, hx⟩
      exact ⟨x.code, rfl, by rwa [Letter.testBit_code hpos hle]⟩
  · constructor
    · rintro ⟨p, q, x, y, hagree, hx, hy⟩
      by_contra hne
      rw [hedge] at hx hy
      exact hy ⟨hx.1, by rw [← hagree bit (Ne.symm hne)]; exact hx.2.1, hx.2.2⟩
    · rintro rfl
      have hset : (Letter.ofBits fun _ => true).bits b = true := Letter.bits_ofBits hpos.ne'
      have hclear : (Letter.ofBits fun c => c != b).bits b = false := by
        rw [Letter.bits_ofBits hpos.ne']
        simp
      refine ⟨0, 1, .ofBits fun _ => true, .ofBits fun c => c != b, fun c hc => ?_, ?_, ?_⟩
      · cases c with
        | zero => rfl
        | succ i => simp [Letter.bits_ofBits, hc]
      · exact (hedge ..).2 ⟨rfl, hset, rfl⟩
      · rw [hedge, hclear]
        simp

/-- Without some bits a word is accepted if it agrees elsewhere with an accepted word. Under new
names, which may be the same for several bits, it is accepted if the word that it is read as is. -/
theorem letterwise_of_wellFormed (hw : w.current.WellFormed) (h : a.WellFormed w.current) :
    (∀ d : Domain, d.base + d.len ≤ maxSymbolBits + 1 →
      Yields w (a.project d) fun b m => b.WellFormed m ∧ ∀ u, b.Accepts m u ↔
        ∃ v : Word, List.Forall₂ (fun x y => AgreeOff d x.bits y.bits) u v ∧
          a.Accepts w.current v) ∧
    ∀ names : Renaming, (∀ bit ∈ names.names, 0 < bit ∧ bit ≤ maxSymbolBits ∧
        0 < names.apply bit ∧ names.apply bit ≤ maxSymbolBits) →
      Yields w (a.rename names) fun b m => b.WellFormed m ∧ ∀ u, b.Accepts m u ↔
        a.Accepts w.current (u.map (Letter.renamed names)) := by
  constructor
  · intro d hd
    apply ((project_accepts hw h).yields (Nat.not_lt.2 hd)).imp
    rintro b w1 _ ⟨-, hwell, haccepts⟩
    exact ⟨hwell, haccepts⟩
  · intro names hnames
    obtain ⟨r, hr⟩ := SymbolSet.exists_bitRenaming hnames
    apply ((rename_accepts hw h).yields fun hnone => hnone r hr).imp
    rintro b w1 _ ⟨-, -, hwell, haccepts⟩
    exact ⟨hwell, haccepts⟩

/-- A letter that had to set the first bit has to set nothing without it, and has to set the second
bit where the first one is read from there. -/
theorem letterwise_of_wellFormed_ofBit : ∃ m a w, Manager.new 0 1 1 = .ok m ∧
    ofBit 1 ⟨m, []⟩ = .ok a w ∧
    (∃ b w', a.project ⟨1, 1, by decide⟩ w = .ok b w' ∧ b.Accepts w'.current [fun _ => false]) ∧
    ∃ b w', a.rename (.ofList [(1, 2)]) w = .ok b w' ∧ b.Accepts w'.current [fun i => i == 1] ∧
      ¬ b.Accepts w'.current [fun i => i == 0] := by
  obtain ⟨m, hm⟩ : ∃ m, Manager.new 0 1 1 = .ok m := ⟨_, rfl⟩
  obtain ⟨a, w, ha, hl, hcount, hwell, haccepts, hdepends⟩ := yields_iff.1
    (ofBit_yields 1 (w := ⟨m, []⟩) (Manager.wellFormed_new hm) (by decide) (by decide))
  obtain ⟨hproject, hrename⟩ := letterwise_of_wellFormed hl.after hwell
  obtain ⟨b, w₁, hb, -, -, hprojected⟩ := yields_iff.1 (hproject ⟨1, 1, by decide⟩ (by decide))
  have happly (bit : Nat) : (Renaming.ofList [(1, 2)]).apply bit = if bit = 1 then 2 else bit :=
    Renaming.apply_insert _ 1 2 bit
  have hnames : ∀ bit ∈ (Renaming.ofList [(1, 2)]).names, bit = 1 := fun bit hbit => by
    simpa [Renaming.identity] using Renaming.mem_names_foldl_insert.1 hbit
  obtain ⟨c, w₂, hc, -, -, hrenamed⟩ := yields_iff.1 (hrename _ fun bit hbit => by
    rw [happly, hnames bit hbit]
    decide)
  have hbit (x : Letter) : (x.renamed (.ofList [(1, 2)])).bits 1 = x 1 := by
    rw [Letter.bits_renamed (by decide), happly]
    rfl
  refine ⟨m, a, w, hm, ha, ⟨b, w₁, hb, ?_⟩, c, w₂, hc, ?_, ?_⟩
  · refine (hprojected _).2 ⟨[fun i => i == 0], .cons (fun v hv => ?_) .nil, ?_⟩
    swap
    · exact (haccepts _).2 ⟨_, rfl, rfl⟩
    rcases v with _ | _ | v
    · rfl
    · exact absurd ⟨Nat.le_refl _, Nat.lt_succ_self _⟩ hv
    · rfl
  · exact (hrenamed _).2 ((haccepts _).2 ⟨_, rfl, hbit _⟩)
  · intro hnot
    obtain ⟨x, hx, hset⟩ := (haccepts _).1 ((hrenamed _).1 hnot)
    obtain rfl := List.singleton_inj.1 hx
    rw [hbit] at hset
    cases hset

end SymbolicNfa

end SymbolicAutomata
