import SymbolicAutomata.Proofs.Isomorphisms
import SymbolicAutomata.Proofs.Paths
import SymbolicAutomata.Proofs.Tracks
import Mathlib.Data.List.Shortlex
/-!
# Accepted words

A walk along sets of symbols visits the states that words with a letter in each of them lead to. All
accepted words of some symbol bits are listed by walking along every word of their values, up to a
length.
-/
namespace SymbolicAutomata

open Manager Bdd Layout

variable {w w' : Workspace} {m : Manager} {g : NFA Nat Nat} {V : Word → Prop} {X : Letter → Prop}
  {u : Word} {bits : Domain} {k n : Nat} {ps : List (List Nat)} {ls : List Nat}

theorem forall₂_concat_iff {α β : Type} {R : α → β → Prop} {xs : List α} {ys : List β} {y : β} :
    List.Forall₂ R xs (ys ++ [y]) ↔ ∃ zs x, xs = zs ++ [x] ∧ List.Forall₂ R zs ys ∧ R x y := by
  rw [← List.forall₂_reverse_iff, List.reverse_append, List.reverse_singleton,
    List.singleton_append, List.forall₂_cons_right_iff]
  constructor
  · rintro ⟨x, zs, hx, hzs, heq⟩
    refine ⟨zs.reverse, x, ?_, ?_, hx⟩
    · rw [← List.reverse_reverse xs, heq, List.reverse_cons]
    · rwa [← List.forall₂_reverse_iff, List.reverse_reverse]
  · rintro ⟨zs, x, rfl, hzs, hx⟩
    exact ⟨x, zs.reverse, hx, List.forall₂_reverse_iff.2 hzs, by simp⟩

theorem flatMap_eq_filter {α β : Type} {P : α → Prop} [DecidablePred P] {f : β → List α}
    {xs : List α} {ys : List β}
    (h : List.Forall₂ (fun x y => f y = if P x then [x] else []) xs ys) :
    ys.flatMap f = xs.filter P := by
  induction h with
  | nil => rfl
  | @cons x y xs ys hxy _ ih =>
    rw [List.flatMap_cons, ih, hxy, List.filter_cons]
    split_ifs <;> simp_all

theorem lex_append {p q s t : List Nat} (h : List.Lex (· < ·) p q) (hlen : p.length = q.length) :
    List.Lex (· < ·) (p ++ s) (q ++ t) := by
  induction h with
  | nil => cases hlen
  | cons _ ih => exact .cons (ih (Nat.succ.inj hlen))
  | rel h => exact .rel h

/-- The given words and those that extend them by at most `n` numbers below `k`, level by level. -/
def levels (k : Nat) : Nat → List (List Nat) → List (List Nat)
  | 0, ps => ps
  | n + 1, ps => ps ++ levels k n (ps.flatMap fun p => (List.range k).map (p ++ [·]))

theorem mem_levels_iff : ls ∈ levels k n ps ↔
    ∃ p ∈ ps, ∃ t : List Nat, ls = p ++ t ∧ t.length ≤ n ∧ ∀ i ∈ t, i < k := by
  induction n generalizing ps with
  | zero => simp [levels]
  | succ n ih =>
    rw [levels, List.mem_append, ih]
    simp only [List.mem_flatMap, List.mem_map, List.mem_range]
    constructor
    · rintro (hls | ⟨_, ⟨p, hp, i, hi, rfl⟩, t, rfl, hlen, ht⟩)
      · exact ⟨ls, hls, [], by simp, by simp, by simp⟩
      · exact ⟨p, hp, i :: t, by simp, Nat.succ_le_succ hlen, List.forall_mem_cons.2 ⟨hi, ht⟩⟩
    · rintro ⟨p, hp, t, rfl, hlen, ht⟩
      cases t with
      | nil => exact .inl (by simpa using hp)
      | cons i t =>
        obtain ⟨hi, ht⟩ := List.forall_mem_cons.1 ht
        exact .inr ⟨p ++ [i], ⟨p, hp, i, hi, rfl⟩, t, by simp, Nat.le_of_succ_le_succ hlen, ht⟩

theorem shortlex_levels {j : Nat} (hps : ps.Pairwise (List.Shortlex (· < ·)))
    (hlen : ∀ p ∈ ps, p.length = j) : (levels k n ps).Pairwise (List.Shortlex (· < ·)) := by
  induction n generalizing ps j with
  | zero => exact hps
  | succ n ih =>
    have hnext : ∀ q ∈ ps.flatMap fun p => (List.range k).map (p ++ [·]), q.length = j + 1 := by
      intro q hq
      obtain ⟨p, hp, hq⟩ := List.mem_flatMap.1 hq
      obtain ⟨i, -, rfl⟩ := List.mem_map.1 hq
      rw [List.length_append, hlen p hp, List.length_singleton]
    refine List.pairwise_append.2 ⟨hps, ih ?_ hnext, fun p hp q hq => ?_⟩
    · refine List.pairwise_flatMap.2 ⟨fun p _ => ?_, hps.imp_of_mem fun hp hq hlt => ?_⟩
      · refine List.pairwise_map.2 (List.pairwise_lt_range.imp fun hlt => ?_)
        exact List.Shortlex.append_left ((List.shortlex_singleton_iff _ _).2 hlt) p
      · intro x hx y hy
        obtain ⟨i, -, rfl⟩ := List.mem_map.1 hx
        obtain ⟨i', -, rfl⟩ := List.mem_map.1 hy
        have hsame := (hlen _ hp).trans (hlen _ hq).symm
        refine .of_lex (by simp [hsame]) (lex_append ?_ hsame)
        exact (List.shortlex_iff_lex hsame).1 hlt
    · obtain ⟨q, hq', t, rfl, -⟩ := mem_levels_iff.1 hq
      refine .of_length_lt ?_
      rw [hlen p hp, List.length_append, hnext q hq']
      omega

def Word.Then (V : Word → Prop) (X : Letter → Prop) (u : Word) : Prop :=
  ∃ v x, u = v ++ [x] ∧ V v ∧ X x

/-- The words with a letter in each of the sets. -/
def Word.Through (m : Manager) (word : List SymbolSet) (u : Word) : Prop :=
  List.Forall₂ (fun x on => on.Has m x) u word

theorem Word.through_concat_iff {word : List SymbolSet} {on : SymbolSet} :
    Word.Through m (word ++ [on]) u ↔ Word.Then (Word.Through m word) (on.Has m) u :=
  forall₂_concat_iff

theorem Word.on_concat_iff :
    u.on bits = ls ++ [n] ↔ Word.Then (·.on bits = ls) (fun x => bits.read x.bits = n) u := by
  constructor
  · intro h
    obtain ⟨v, t, rfl, hv, ht⟩ := List.map_eq_append_iff.1 h
    obtain ⟨x, rfl, hx⟩ := List.map_eq_singleton_iff.1 ht
    exact ⟨v, x, rfl, hv, hx⟩
  · rintro ⟨v, x, rfl, rfl, rfl⟩
    exact List.map_append

/-- The variables of symbol bits carry a part of the number of the letter. -/
theorem Layout.read_symbolBlock (hend : bits.base + bits.len ≤ maxSymbolBits + 1) (t : Assignment) :
    (symbolBlock bits).read t = (alphabet.read t >>> (bits.base - 1)) % 2 ^ bits.len := by
  have hbase := bits.base_ne_zero
  apply Nat.eq_of_testBit_eq
  intro i
  rw [Domain.testBit_read, Nat.testBit_mod_two_pow, Nat.testBit_shiftRight, Domain.testBit_read]
  change (decide (i < bits.len) && t (alphabetBase + (bits.base - 1) + i)) =
    (decide (i < bits.len) &&
      (decide (bits.base - 1 + i < maxSymbolBits) && t (alphabetBase + (bits.base - 1 + i))))
  by_cases hi : i < bits.len
  · have hin : bits.base - 1 + i < maxSymbolBits := by omega
    rw [Nat.add_assoc, decide_eq_true hin, Bool.true_and]
  · simp [hi]

theorem Letter.read_bits (hend : bits.base + bits.len ≤ maxSymbolBits + 1) (x : Letter) :
    bits.read x.bits = (x.code >>> (bits.base - 1)) % 2 ^ bits.len := by
  rw [code_eq, ← read_symbolBlock hend]
  apply Nat.eq_of_testBit_eq
  intro i
  rw [Domain.testBit_read, Domain.testBit_read]
  have hbase := bits.base_ne_zero
  have hplace : bits.base - 1 + i + 1 = bits.base + i := by omega
  change _ = (decide (i < bits.len) && x.spread (alphabetBase + (bits.base - 1) + i))
  rw [Nat.add_assoc, spread_add, hplace]

theorem SymbolSet.ofValue_yields (hw : w.current.WellFormed) (hlen : bits.len ≤ 64)
    (hend : bits.base + bits.len ≤ maxSymbolBits + 1) (hn : n < 2 ^ bits.len) :
    Yields w (ofValue bits n) fun on m =>
      on.Shows m fun c => (c >>> (bits.base - 1)) % 2 ^ bits.len = n := by
  have hblock : alphabetBase + (bits.base - 1) + bits.len ≤ 2 ^ 31 := by
    have hmax : maxSymbolBits = 65536 := rfl
    have hfirst : alphabetBase = 97 := rfl
    omega
  apply Runs.lift_bind (symbols_eq_ok_iff.2 ⟨hend, rfl⟩)
  apply Runs.bind (value_yields (d := symbolBlock bits) hw hlen hblock hn)
  intro f w1 hl1 hf
  refine Runs.ask_bind (a := w1.current.id) rfl (Runs.pure hl1.after ⟨rfl, ?_⟩)
  exact hf.congr fun t => by rw [read_symbolBlock hend]

namespace Automaton

variable {a : Automaton} {s accepting : ValueSet} {on : SymbolSet} {word : List SymbolSet}

/-- Some run on the word leads from a starting to an accepting state. -/
def Accepts (a : Automaton) (m : Manager) (u : Word) : Prop :=
  ∃ q ∈ a.reached m u, a.Begins m .backward q

theorem Shows.accepts_iff (h : Shows m a g) (hm : m.Canonical) (hg : Contained g a.size) :
    a.Accepts m u ↔ u.codes ∈ g.accepts := by
  unfold Accepts
  rw [h.reached_eq hm hg]
  simp only [h.begins_iff hm hg]
  exact exists_congr fun q => and_comm

theorem accepts_symbolic_iff {a : SymbolicNfa} (ha : a.WellFormed m) (hm : m.Canonical) :
    (symbolic a).Accepts m u ↔ a.Accepts m u := by
  obtain ⟨g, h, hg⟩ := ha.shown
  rw [(Shows.symbolic h).accepts_iff hm hg, h.accepts_iff hm hg.toBounded]

/-- The set holds the states that the words of `V` lead to. -/
def Led (a : Automaton) (g : NFA Nat Nat) (V : Word → Prop) (s : ValueSet) (m : Manager) : Prop :=
  s.domain = a.stateBlock ∧ s.Shows m fun q => ∃ u, V u ∧ q ∈ g.evalFrom g.start u.codes

theorem Led.later (hs : a.Led g V s w.current) (hl : w.Leads w') : a.Led g V s w'.current :=
  ⟨hs.1, hs.2.later hl⟩

theorem Led.congr {W : Word → Prop} (hs : a.Led g V s m) (h : ∀ u, V u ↔ W u) :
    a.Led g W s m := by
  have heq : V = W := funext fun u => propext (h u)
  exact heq ▸ hs

theorem Shows.starting_led (h : Shows w.current a g) (hw : w.current.WellFormed)
    (hg : Contained g a.size) : Yields w a.starting (a.Led g (· = [])) := by
  apply (h.ends_yields hw hg).imp
  intro s w1 _ hs
  refine ⟨hs.1, hs.2.congr fun q _ => ?_⟩
  constructor
  · exact fun hq => ⟨[], rfl, hq⟩
  · rintro ⟨_, rfl, hq⟩
    exact hq

theorem Led.step_yields {L : Nat → Prop} (hs : a.Led g V s w.current) (h : Shows w.current a g)
    (hw : w.current.WellFormed) (hg : Contained g a.size) (hon : on.Shows w.current L)
    (hX : ∀ x, L (Letter.code x) ↔ X x) :
    Yields w (a.step .forward s on) (a.Led g (Word.Then V X)) := by
  have hmovable := ValueSet.movable_of_lt h.width_le hs fun q ⟨u, _, hq⟩ =>
    (hg.mono (le_two_pow_bitsNeeded a.size)).eval (hg.mono (le_two_pow_bitsNeeded a.size)).start
      u.codes q hq
  apply (h.step_yields hw hg hmovable hon.denotes).imp
  intro t w1 _ ht
  refine ⟨ht.1, ht.2.congr fun q _ => ?_⟩
  constructor
  · rintro ⟨p, ⟨u, hu, hp⟩, c, hc, hL, hstep⟩
    obtain ⟨x, rfl⟩ := Letter.exists_code hc
    refine ⟨u ++ [x], ⟨u, x, rfl, hu, (hX x).1 hL⟩, ?_⟩
    rw [Word.codes_append, NFA.evalFrom_append]
    exact NFA.mem_stepSet.2 ⟨p, hp, hstep⟩
  · rintro ⟨_, ⟨u, x, rfl, hu, hx⟩, hq⟩
    rw [Word.codes_append, NFA.evalFrom_append] at hq
    obtain ⟨p, hp, hstep⟩ := NFA.mem_stepSet.1 hq
    exact ⟨p, ⟨u, hu, hp⟩, x.code, x.code_lt, (hX x).2 hx, hstep⟩

theorem Led.intersects_yields (hs : a.Led g V s w.current) (hw : w.current.WellFormed)
    (hg : Contained g a.size)
    (haccepting : accepting.domain = a.stateBlock ∧ accepting.Shows w.current (· ∈ g.accept)) :
    Yields w (s.intersects accepting) fun b _ => b = true ↔ ∃ u, V u ∧ u.codes ∈ g.accepts := by
  apply (ValueSet.intersects_yields hs.2 haccepting.2 (hs.1.trans haccepting.1.symm) hw).imp
  intro b w1 _ hb
  rw [hb, hs.1]
  constructor
  · rintro ⟨q, -, ⟨u, hu, hq⟩, hacc⟩
    exact ⟨u, hu, q, hacc, hq⟩
  · rintro ⟨u, hu, q, hacc, hq⟩
    exact ⟨q, Nat.lt_of_lt_of_le (hg.accept q hacc) (le_two_pow_bitsNeeded a.size), ⟨u, hu, hq⟩,
      hacc⟩

/-- A walk visits what the words through each beginning of the sets of symbols lead to. -/
theorem Shows.run_yields (h : Shows w.current a g) (hw : w.current.WellFormed)
    (hg : Contained g a.size) (hword : ∀ on ∈ word, ∃ L, on.Shows w.current L) :
    Yields w (a.run word) fun sets m => List.Forall₂
      (fun before s => a.Led g (Word.Through w.current before) s m) word.inits sets := by
  apply Runs.bind (h.starting_led hw hg)
  intro s w1 hl1 hs
  have hstart : a.Led g (Word.Through w.current []) s w1.current :=
    hs.congr fun u => List.forall₂_nil_right_iff.symm
  -- the loop keeps what it has visited in reverse
  apply Runs.bind (foldlM_runs (b := ([s], s)) (I := fun before visited m =>
    List.Forall₂ (fun before s => a.Led g (Word.Through w.current before) s m) before.inits
      visited.1.reverse ∧ a.Led g (Word.Through w.current before) visited.2 m) hl1.after
    ⟨.cons hstart .nil, hstart⟩ ?_)
  · rintro ⟨sets, last⟩ w2 hl2 ⟨hsets, -⟩
    exact Runs.pure hl2.after hsets
  · rintro before on after hsplit w2 ⟨sets, s⟩ hl2 ⟨hsets, hs⟩
    have hl := hl1.trans hl2
    obtain ⟨L, hon⟩ := hword on (by simp [← hsplit])
    apply Runs.bind (hs.step_yields (h.later hl) hl2.after hg (hon.later hl)
      fun x => (hon.has_iff hw.canonical).symm)
    intro next w3 hl3 hnext
    have hnext' : a.Led g (Word.Through w.current (before ++ [on])) next w3.current :=
      hnext.congr fun u => Word.through_concat_iff.symm
    refine Runs.pure hl3.after ⟨?_, hnext'⟩
    rw [List.reverse_cons, List.inits_append]
    exact List.rel_append (hsets.imp fun _ _ hs => hs.later hl3) (.cons hnext' .nil)

/-- Every word comes with the states that it leads to. -/
def Explored (a : Automaton) (g : NFA Nat Nat) (bits : Domain) (ps : List (List Nat))
    (words : List (List Nat × ValueSet)) (m : Manager) : Prop :=
  List.Forall₂ (fun p word => word.1 = p ∧ a.Led g (·.on bits = p) word.2 m) ps words

theorem Explored.later {words : List (List Nat × ValueSet)}
    (hwords : a.Explored g bits ps words w.current) (hl : w.Leads w') :
    a.Explored g bits ps words w'.current :=
  hwords.imp fun _ _ hword => ⟨hword.1, hword.2.later hl⟩

theorem Led.extensions_yields (hs : a.Led g (·.on bits = ls) s w.current)
    (h : Shows w.current a g) (hw : w.current.WellFormed) (hg : Contained g a.size)
    (hlen : bits.len ≤ 64) (hend : bits.base + bits.len ≤ maxSymbolBits + 1) :
    Yields w (a.extensions bits ls s)
      (a.Explored g bits ((List.range (2 ^ bits.len)).map (ls ++ [·]))) := by
  unfold extensions Explored
  simp only [List.forall₂_map_left_iff]
  apply mapM_yields hw
  · refine List.forall₂_same.2 fun n hn w' hl => ?_
    apply Runs.bind (SymbolSet.ofValue_yields hl.after hlen hend (List.mem_range.1 hn))
    intro on w1 hl1 hon
    have hl' := hl.trans hl1
    apply Runs.bind ((hs.later hl').step_yields (h.later hl') hl1.after hg hon
      fun x => by rw [← Letter.read_bits hend])
    intro t w2 hl2 ht
    exact Runs.pure hl2.after ⟨rfl, ht.congr fun u => Word.on_concat_iff.symm⟩
  · exact fun n word w' w'' hl hword => ⟨hword.1, hword.2.later hl⟩

theorem Explored.map_fst {words : List (List Nat × ValueSet)}
    (hwords : a.Explored g bits ps words m) : words.map (·.1) = ps := by
  rw [← List.forall₂_eq_eq_eq, List.forall₂_map_left_iff]
  exact hwords.flip.imp fun _ _ hword => hword.1

def Carried (g : NFA Nat Nat) (bits : Domain) (ls : List Nat) : Prop :=
  ∃ u : Word, u.on bits = ls ∧ u.codes ∈ g.accepts

open Classical in
/-- Of the words of each level those are listed that an accepted word carries. -/
theorem Explored.acceptedFrom_yields {words : List (List Nat × ValueSet)}
    (hwords : a.Explored g bits ps words w.current) (h : Shows w.current a g)
    (hw : w.current.WellFormed) (hg : Contained g a.size)
    (haccepting : accepting.domain = a.stateBlock ∧ accepting.Shows w.current (· ∈ g.accept))
    (hlen : bits.len ≤ 64) (hend : bits.base + bits.len ≤ maxSymbolBits + 1) :
    Yields w (a.acceptedFrom bits accepting n words) fun found _ =>
      found = (levels (2 ^ bits.len) n ps).filter (Carried g bits) := by
  induction n generalizing w ps words with
  | zero =>
    apply Runs.bind (filterM_yields (P := fun word => Carried g bits word.1) hw ?_)
    · intro found w1 hl1 hfound
      refine Runs.pure hl1.after ?_
      rw [levels, hfound, ← hwords.map_fst, List.filter_map]
      rfl
    · intro word hword w1 hl1
      obtain ⟨p, -, rfl, hs⟩ := exists_left_of_forall₂ hwords word hword
      exact (hs.later hl1).intersects_yields hl1.after hg
        ⟨haccepting.1, haccepting.2.later hl1⟩
  | succ n ih =>
    apply Runs.bind (mapM_yields (Q := fun p next m =>
      next.1 = (if Carried g bits p then [p] else []) ∧
        a.Explored g bits ((List.range (2 ^ bits.len)).map (p ++ [·])) next.2 m) hw ?visits ?later)
    case visits =>
      refine hwords.imp fun p word hword w1 hl1 => ?_
      obtain ⟨rfl, hs⟩ := hword
      apply Runs.bind ((hs.later hl1).intersects_yields hl1.after hg
        ⟨haccepting.1, haccepting.2.later hl1⟩)
      intro accepted w2 hl2 haccepted
      apply Runs.bind ((hs.later (hl1.trans hl2)).extensions_yields (h.later (hl1.trans hl2))
        hl2.after hg hlen hend)
      intro next w3 hl3 hnext
      exact Runs.pure hl3.after ⟨if_congr haccepted rfl rfl, hnext⟩
    case later => exact fun p next w' w'' hl hnext => ⟨hnext.1, hnext.2.later hl⟩
    intro visited w1 hl1 hvisited
    have hnext : a.Explored g bits (ps.flatMap fun p => (List.range (2 ^ bits.len)).map (p ++ [·]))
        (visited.flatMap (·.2)) w1.current :=
      List.rel_flatMap hvisited fun _ _ hnext => hnext.2
    apply Runs.bind (ih hnext (h.later hl1) hl1.after ⟨haccepting.1, haccepting.2.later hl1⟩)
    intro longer w2 hl2 hlonger
    refine Runs.pure hl2.after ?_
    have hhere : visited.flatMap (·.1) = ps.filter (Carried g bits) :=
      flatMap_eq_filter (hvisited.imp fun _ _ hnext => hnext.1)
    rw [hhere, hlonger, levels, List.filter_append]

/-- After each beginning of a word of symbol sets a walk is at the states that the words through it
lead to, and is told whether one of these words is accepted. -/
theorem run_of_wellFormed (hw : w.current.WellFormed) (ha : a.WellFormed w.current)
    (hword : ∀ on ∈ word, ∃ L, on.Shows w.current L) :
    ∃ sets w₁, a.run word w = .ok sets w₁ ∧ w.Leads w₁ ∧ sets.length = word.length + 1 ∧
      ∀ n s, sets[n]? = some s →
        (∀ q, s.contains q w₁.current = .ok true ↔
          ∃ u, Word.Through w.current (word.take n) u ∧ q ∈ a.reached w.current u) ∧
        ∃ b w₂, a.acceptsIn s w₁ = .ok b w₂ ∧ w₁.Leads w₂ ∧
          (b = true ↔ ∃ u, Word.Through w.current (word.take n) u ∧ a.Accepts w.current u) := by
  obtain ⟨g, h, hg⟩ := ha.exists_shows
  have hm := hw.canonical
  obtain ⟨sets, w₁, hrun, hl, hsets⟩ := yields_iff.1 (h.run_yields hw hg hword)
  refine ⟨sets, w₁, hrun, hl, by rw [← hsets.length_eq, List.length_inits], fun n s hn => ?_⟩
  obtain ⟨before, hbefore, hs⟩ := getElem?_left_of_forall₂ hsets hn
  obtain ⟨hlt, rfl⟩ := List.getElem?_eq_some_iff.1 hbefore
  rw [List.getElem_inits] at hs
  have h₁ := h.later hl
  constructor
  · intro q
    rw [h₁.contains_iff hl.after.canonical hs fun p ⟨u, _, hp⟩ => hg.eval hg.start u.codes p hp]
    simp only [h.reached_eq hm hg]
  · have haccepts : Yields w₁ (a.acceptsIn s) fun b _ => b = true ↔
        ∃ u, Word.Through w.current (word.take n) u ∧ u.codes ∈ g.accepts := by
      apply Runs.bind (h₁.ends_yields hl.after hg)
      intro accepting w2 hl2 haccepting
      exact (hs.later hl2).intersects_yields hl2.after hg haccepting
    simp only [h.accepts_iff hm hg]
    exact yields_iff.1 haccepts

/-- The accepted words of up to `n` letters on some symbol bits: shorter ones come first, and words
of a length in the order of their letters. -/
theorem acceptedWords_of_wellFormed (hw : w.current.WellFormed) (ha : a.WellFormed w.current)
    (hlen : bits.len ≤ 64) (hend : bits.base + bits.len ≤ maxSymbolBits + 1) :
    ∃ found w₁, a.acceptedWords bits n w = .ok found w₁ ∧ w.Leads w₁ ∧
      found.Pairwise (List.Shortlex (· < ·)) ∧
      ∀ ls, ls ∈ found ↔ ls.length ≤ n ∧ ∃ u : Word, u.on bits = ls ∧ a.Accepts w.current u := by
  classical
  obtain ⟨g, h, hg⟩ := ha.exists_shows
  have hlist : Yields w (a.acceptedWords bits n) fun found _ =>
      found = (levels (2 ^ bits.len) n [[]]).filter (Carried g bits) := by
    apply Runs.bind (h.starting_led hw hg)
    intro s w1 hl1 hs
    apply Runs.bind ((h.later hl1).ends_yields hl1.after hg)
    intro accepting w2 hl2 haccepting
    have hempty : a.Explored g bits [[]] [([], s)] w2.current :=
      .cons ⟨rfl, (hs.later hl2).congr fun u => List.map_eq_nil_iff.symm⟩ .nil
    exact hempty.acceptedFrom_yields (h.later (hl1.trans hl2)) hl2.after hg haccepting hlen hend
  obtain ⟨found, w₁, hrun, hl, rfl⟩ := yields_iff.1 hlist
  have hsorted := shortlex_levels (k := 2 ^ bits.len) (n := n) (j := 0)
    (List.pairwise_singleton (List.Shortlex (· < ·)) []) (by simp)
  refine ⟨_, w₁, hrun, hl, hsorted.filter _, fun ls => ?_⟩
  simp only [h.accepts_iff hw.canonical hg]
  rw [List.mem_filter, mem_levels_iff, decide_eq_true_iff]
  constructor
  · rintro ⟨⟨_, hnil, t, rfl, hlen, -⟩, hcarried⟩
    obtain rfl := List.mem_singleton.1 hnil
    exact ⟨hlen, hcarried⟩
  · rintro ⟨hlen, u, rfl, hu⟩
    exact ⟨⟨[], List.mem_singleton_self _, u.on bits, rfl, hlen, Word.on_lt⟩, u, rfl, hu⟩

end Automaton

end SymbolicAutomata
