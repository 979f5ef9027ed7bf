import SymbolicAutomata.Proofs.Determinization
import SymbolicAutomata.Proofs.SubAutomata
/-!
# Products

A pair of states is one number, the first state in the low bits. The product answers for a word
whatever the connective makes of some pair of answers of its operands. A sink makes rejection
available on every word, which does no harm to a monotone connective; a deterministic operand has
one answer only.
-/
namespace SymbolicAutomata

open Manager Bdd Layout SymbolicNfa

/-- Some state that the word leads to accepts or rejects, as `x` says. -/
def Answers (g : NFA Nat Nat) (cs : List Nat) (x : Bool) : Prop :=
  ∃ p ∈ g.evalFrom g.start cs, (p ∈ g.accept ↔ x = true)

/-- Pairs of states whose numbers have `k` bits in the first automaton. -/
def product (g₁ g₂ : NFA Nat Nat) (k : Nat) (f : Connective) : NFA Nat Nat where
  step v c := {u | u % 2 ^ k ∈ g₁.step (v % 2 ^ k) c ∧ u / 2 ^ k ∈ g₂.step (v / 2 ^ k) c}
  start := {v | v % 2 ^ k ∈ g₁.start ∧ v / 2 ^ k ∈ g₂.start}
  accept := {v | ∃ x y, f x y = true ∧ (v % 2 ^ k ∈ g₁.accept ↔ x = true) ∧
    (v / 2 ^ k ∈ g₂.accept ↔ y = true)}

def paired (k : Nat) (S T : Set Nat) : Set Nat := {v | v % 2 ^ k ∈ S ∧ v / 2 ^ k ∈ T}

variable {g g₁ g₂ : NFA Nat Nat} {k n p q : Nat} {S T : Set Nat} {f : Connective} {cs : List Nat}

theorem exists_pair (hp : p < 2 ^ k) (q : Nat) : ∃ v, v % 2 ^ k = p ∧ v / 2 ^ k = q := by
  have hpos := Nat.two_pow_pos k
  refine ⟨p + 2 ^ k * q, ?_, ?_⟩
  · rw [Nat.add_mul_mod_self_left, Nat.mod_eq_of_lt hp]
  · rw [Nat.add_mul_div_left _ _ hpos, Nat.div_eq_of_lt hp, Nat.zero_add]

theorem stepSet_product {c : Nat} (hS : ∀ p ∈ S, p < 2 ^ k) :
    (product g₁ g₂ k f).stepSet (paired k S T) c =
      paired k (g₁.stepSet S c) (g₂.stepSet T c) := by
  ext u
  rw [NFA.mem_stepSet]
  constructor
  · rintro ⟨v, ⟨hvS, hvT⟩, hu₁, hu₂⟩
    exact ⟨NFA.mem_stepSet.2 ⟨_, hvS, hu₁⟩, NFA.mem_stepSet.2 ⟨_, hvT, hu₂⟩⟩
  · rintro ⟨hu₁, hu₂⟩
    obtain ⟨p, hp, hu₁⟩ := NFA.mem_stepSet.1 hu₁
    obtain ⟨q, hq, hu₂⟩ := NFA.mem_stepSet.1 hu₂
    obtain ⟨v, rfl, rfl⟩ := exists_pair (hS p hp) q
    exact ⟨v, ⟨hp, hq⟩, hu₁, hu₂⟩

theorem evalFrom_product (hg : Bounded g₁ (2 ^ k)) (hS : ∀ p ∈ S, p < 2 ^ k) :
    (product g₁ g₂ k f).evalFrom (paired k S T) cs =
      paired k (g₁.evalFrom S cs) (g₂.evalFrom T cs) := by
  induction cs generalizing S T with
  | nil => rfl
  | cons c cs ih =>
    rw [NFA.evalFrom_cons, stepSet_product hS]
    refine ih fun q hq => ?_
    obtain ⟨p, -, hp⟩ := NFA.mem_stepSet.1 hq
    exact hg.target p c q hp

theorem accepts_product (hg : Bounded g₁ (2 ^ k)) :
    cs ∈ (product g₁ g₂ k f).accepts ↔
      ∃ x y, f x y = true ∧ Answers g₁ cs x ∧ Answers g₂ cs y := by
  have heval : (product g₁ g₂ k f).evalFrom (product g₁ g₂ k f).start cs =
      paired k (g₁.evalFrom g₁.start cs) (g₂.evalFrom g₂.start cs) := evalFrom_product hg hg.start
  change (∃ v ∈ (product g₁ g₂ k f).accept,
    v ∈ (product g₁ g₂ k f).evalFrom (product g₁ g₂ k f).start cs) ↔ _
  rw [heval]
  constructor
  · rintro ⟨v, ⟨x, y, hf, hx, hy⟩, hv₁, hv₂⟩
    exact ⟨x, y, hf, ⟨_, hv₁, hx⟩, _, hv₂, hy⟩
  · rintro ⟨x, y, hf, ⟨p, hp, hx⟩, q, hq, hy⟩
    obtain ⟨v, rfl, rfl⟩ := exists_pair (hg.eval hg.start cs p hp) q
    exact ⟨v, ⟨x, y, hf, hx, hy⟩, hp, hq⟩

theorem product_bounded (hg : Bounded g₂ n) : Bounded (product g₁ g₂ k f) (n * 2 ^ k) := by
  have hlt : ∀ v, v / 2 ^ k < n → v < n * 2 ^ k := fun v hv =>
    (Nat.div_lt_iff_lt_mul (Nat.two_pow_pos k)).1 hv
  refine ⟨fun v hv => hlt v (hg.start _ hv.2), fun v c u hu => hlt v ?_, fun v c u hu => hlt u ?_⟩
  · exact hg.source _ c _ hu.2
  · exact hg.target _ c _ hu.2

/-- An operand answers as the language does. A monotone connective may find a rejection besides. -/
def Faithful (f : Connective) (g g' : NFA Nat Nat) : Prop :=
  ∀ cs, Lettered cs → (Answers g' cs true ↔ cs ∈ g.accepts) ∧
    if f.monotone then Answers g' cs false else (Answers g' cs false ↔ cs ∉ g.accepts)

open Classical in
theorem accepts_product_of_faithful {g₁' g₂' : NFA Nat Nat} (hg : Bounded g₁' (2 ^ k))
    (h₁ : Faithful f g₁ g₁') (h₂ : Faithful f g₂ g₂') (hcs : Lettered cs) :
    cs ∈ (product g₁' g₂' k f).accepts ↔
      f (decide (cs ∈ g₁.accepts)) (decide (cs ∈ g₂.accepts)) = true := by
  obtain ⟨ht₁, hf₁⟩ := h₁ cs hcs
  obtain ⟨ht₂, hf₂⟩ := h₂ cs hcs
  rw [accepts_product hg]
  by_cases hmono : f.monotone
  · rw [if_pos hmono] at hf₁ hf₂
    have hraise := Connective.monotone_iff.1 hmono
    constructor
    · rintro ⟨x, y, hf, hx, hy⟩
      refine hraise x y _ _ (fun hx' => ?_) (fun hy' => ?_) hf
      · subst hx'
        simpa using ht₁.1 hx
      · subst hy'
        simpa using ht₂.1 hy
    · intro hf
      have hanswer : ∀ {g g' : NFA Nat Nat}, (Answers g' cs true ↔ cs ∈ g.accepts) →
          Answers g' cs false → Answers g' cs (decide (cs ∈ g.accepts)) := by
        intro g g' ht hfalse
        by_cases hmem : cs ∈ g.accepts
        · rw [decide_eq_true hmem]
          exact ht.2 hmem
        · rwa [decide_eq_false hmem]
      exact ⟨_, _, hf, hanswer ht₁ hf₁, hanswer ht₂ hf₂⟩
  · rw [if_neg hmono] at hf₁ hf₂
    have hanswer : ∀ {g g' : NFA Nat Nat} (x : Bool), (Answers g' cs true ↔ cs ∈ g.accepts) →
        (Answers g' cs false ↔ cs ∉ g.accepts) →
        (Answers g' cs x ↔ x = decide (cs ∈ g.accepts)) := by
      intro g g' x ht hfalse
      cases x with
      | true => rw [ht, eq_comm, decide_eq_true_iff]
      | false => rw [hfalse, eq_comm, decide_eq_false_iff_not]
    constructor
    · rintro ⟨x, y, hf, hx, hy⟩
      rwa [← (hanswer x ht₁ hf₁).1 hx, ← (hanswer y ht₂ hf₂).1 hy]
    · intro hf
      exact ⟨_, _, hf, (hanswer _ ht₁ hf₁).2 rfl, (hanswer _ ht₂ hf₂).2 rfl⟩

theorem evalFrom_sunk (hg : Contained g n) (hS : ∀ p ∈ S, p < n) :
    (sunk g n).evalFrom (insert n S) cs = insert n (g.evalFrom S cs) := by
  induction cs generalizing S with
  | nil => rfl
  | cons c cs ih =>
    have hstep : (sunk g n).stepSet (insert n S) c = insert n (g.stepSet S c) := by
      ext q
      rw [NFA.mem_stepSet]
      constructor
      · rintro ⟨p, hp, hq⟩
        rcases hq with hq | ⟨-, -, hq⟩
        · have hlt := hg.source p c q hq
          rcases hp with rfl | hp
          · omega
          · exact .inr (NFA.mem_stepSet.2 ⟨p, hp, hq⟩)
        · exact .inl hq
      · rintro (rfl | hq)
        · exact ⟨q, .inl rfl, .inr ⟨Nat.lt_succ_self q, trivial, rfl⟩⟩
        · obtain ⟨p, hp, hq⟩ := NFA.mem_stepSet.1 hq
          exact ⟨p, .inr hp, .inl hq⟩
    rw [NFA.evalFrom_cons, hstep]
    refine ih fun q hq => ?_
    obtain ⟨p, -, hp⟩ := NFA.mem_stepSet.1 hq
    exact hg.target p c q hp

theorem sunk_contained (hg : Contained g n) : Contained (sunk g n) (n + 1) :=
  (hg.enlarge (Nat.le_succ n)).connect (fun _ hp => hp) fun _ hq => by omega

theorem sunk_faithful (hg : Contained g n) (hf : f.monotone = true) :
    Faithful f g (sunk g n) := by
  intro cs _
  have hstart : (sunk g n).start = insert n g.start := by
    ext p
    constructor
    · rintro (hp | ⟨-, h1, h2⟩)
      · exact .inr hp
      · exact .inl (by omega)
    · rintro (rfl | hp)
      · exact .inr ⟨rfl, Nat.le_refl p, Nat.lt_succ_self p⟩
      · exact .inl hp
  have hrun : (sunk g n).evalFrom (sunk g n).start cs = insert n (g.evalFrom g.start cs) := by
    rw [hstart, evalFrom_sunk hg hg.start]
  have haccept : ∀ p, p ∈ (sunk g n).accept ↔ p ∈ g.accept := fun p =>
    ⟨fun h => h.resolve_right fun h' => Bool.false_ne_true h'.1, .inl⟩
  have hsink : n ∉ g.accept := fun h => Nat.lt_irrefl n (hg.accept n h)
  rw [if_pos hf]
  refine ⟨?_, n, ?_, ?_⟩
  · unfold Answers
    rw [hrun]
    simp only [haccept, iff_true]
    constructor
    · rintro ⟨p, hp, hacc⟩
      rcases hp with rfl | hp
      · exact absurd hacc hsink
      · exact ⟨p, hacc, hp⟩
    · rintro ⟨p, hacc, hp⟩
      exact ⟨p, .inr hp, hacc⟩
  · rw [hrun]
    exact .inl rfl
  · simp [haccept, hsink]

theorem Deterministic.eval_eq (h : Deterministic g n) (hg : Bounded g n) (hcs : Lettered cs)
    (hp : p < n) : ∃ q, g.evalFrom {p} cs = {q} := by
  induction cs generalizing p with
  | nil => exact ⟨p, rfl⟩
  | cons c cs ih =>
    obtain ⟨hc, hrest⟩ := lettered_cons.1 hcs
    obtain ⟨q, hq, honly⟩ := h.successor p hp c hc
    have hstep : g.step p c = {q} := Set.eq_singleton_iff_unique_mem.2 ⟨hq, honly⟩
    rw [NFA.evalFrom_cons, NFA.stepSet_singleton, hstep]
    exact ih hrest (hg.target p c q hq)

theorem Deterministic.run (h : Deterministic g n) (hg : Bounded g n) (hcs : Lettered cs) :
    ∃ q < n, g.evalFrom g.start cs = {q} := by
  obtain ⟨p, hp, honly⟩ := h.start
  have hstart : g.start = {p} := Set.eq_singleton_iff_unique_mem.2 ⟨hp, honly⟩
  obtain ⟨q, hq⟩ := h.eval_eq hg hcs (hg.start p hp)
  rw [hstart, hq]
  have hlt : q < n := hg.eval hg.start cs q (by rw [hstart, hq]; rfl)
  exact ⟨q, hlt, rfl⟩

theorem accepts_of_run (hrun : g.evalFrom g.start cs = {q}) : cs ∈ g.accepts ↔ q ∈ g.accept := by
  change (∃ r ∈ g.accept, r ∈ g.evalFrom g.start cs) ↔ _
  rw [hrun]
  simp

theorem Deterministic.accepts_of_all (h : Deterministic g n) (hg : Bounded g n)
    (hall : ∀ q < n, q ∈ g.accept) (hcs : Lettered cs) : cs ∈ g.accepts := by
  obtain ⟨q, hq, hrun⟩ := h.run hg hcs
  exact (accepts_of_run hrun).2 (hall q hq)

/-- With one run on each word there is one answer. -/
theorem Deterministic.faithful {g' : NFA Nat Nat} (h : Deterministic g' n) (hg : Bounded g' n)
    (hf : f.monotone = false) (hlang : ∀ cs, Lettered cs → (cs ∈ g'.accepts ↔ cs ∈ g.accepts)) :
    Faithful f g g' := by
  intro cs hcs
  obtain ⟨q, -, hrun⟩ := h.run hg hcs
  have hanswer : ∀ x, Answers g' cs x ↔ (q ∈ g'.accept ↔ x = true) := fun x => by
    unfold Answers
    rw [hrun]
    simp
  rw [← hlang cs hcs, accepts_of_run hrun, hanswer, hanswer, if_neg (by simp [hf])]
  simp

theorem trap_contained : Contained trap 1 :=
  ((bare_contained 0).enlarge (by decide)).connect (fun _ h => h ▸ by decide) fun _ h =>
    h ▸ by decide

theorem trap_deterministic : Deterministic trap 1 := by
  refine ⟨⟨0, .inr ⟨rfl, Nat.le_refl 0, Nat.zero_lt_one⟩, fun p hp => ?_⟩, fun p hp c _ =>
    ⟨0, .inr ⟨by omega, trivial, rfl⟩, fun q hq => ?_⟩⟩
  · have := trap_contained.start p hp
    omega
  · have := trap_contained.target p c q hq
    omega

theorem everything_deterministic : Deterministic everything 1 :=
  ⟨trap_deterministic.start, trap_deterministic.successor⟩

theorem trap_accepts : cs ∉ trap.accepts := by
  rintro ⟨q, hq, -⟩
  rcases hq with hq | ⟨hfalse, -⟩
  · exact hq
  · exact Bool.false_ne_true hfalse

namespace SymbolicNfa

variable {w : Workspace} {a b : SymbolicNfa}

/-- What the product makes of an operand first. -/
def operand (a : SymbolicNfa) (f : Connective) : BddM SymbolicNfa :=
  if f.monotone then a.withSink else do (← a.determinize).totalize

theorem combine_eq (a b : SymbolicNfa) (f : Connective) : a.combine b f = (do
    if a.manager ≠ b.manager then throw .automatonManagers
    let a ← a.operand f
    let b ← b.operand f
    a.pairs b f) := by
  unfold combine operand
  cases f.monotone <;> simp

/-- State numbers run out while an operand is made. -/
def TooMany (g : NFA Nat Nat) (n : Nat) (f : Connective) : Prop :=
  if f.monotone then 2 ^ 32 ≤ n + 1 else ManyReached g (2 ^ 32)

/-- A state is added that every word leads to, unless there is no number left for it. -/
theorem sink_yieldsIff (hw : w.current.WellFormed) (h : a.Shows w.current g)
    (hg : Contained g a.stateCount) :
    YieldsIff (a.stateCount + 1 < 2 ^ 32) w a.withSink fun b m =>
      b.stateCount = a.stateCount + 1 ∧ b.Shows m (sunk g a.stateCount) := by
  by_cases hn : a.stateCount + 1 < 2 ^ 32
  · exact ((withSink_yields hw h hg hn).imp fun b w1 _ hb => ⟨hb.1, hb.2.2⟩).yieldsIff hn
  · exact Runs.bind (Q := fun _ _ => False) (.lift_error hw (if_neg hn) hn) fun _ _ _ hfalse =>
      hfalse.elim

theorem operand_runs (hw : w.current.WellFormed) (h : a.Shows w.current g)
    (hg : Contained g a.stateCount) (hhonest : a.Honest w.current) :
    Runs (TooMany g a.stateCount f) w (a.operand f) fun b m => 0 < b.stateCount ∧
      ∃ g', b.Shows m g' ∧ Contained g' b.stateCount ∧ Faithful f g g' := by
  unfold operand TooMany
  by_cases hf : f.monotone = true
  · rw [if_pos hf, if_pos hf]
    apply (sink_yieldsIff hw h hg).mono Nat.not_lt.1
    rintro b w1 - ⟨-, hcount, hb⟩
    exact ⟨by omega, _, hb, hcount ▸ sunk_contained hg, sunk_faithful hg hf⟩
  · rw [if_neg hf, if_neg hf]
    refine .bind (determinize_shows hw h hg hhonest) fun b w1 hl1 hb => ?_
    obtain ⟨g', hb, hg', hlang, hcase⟩ := hb
    refine .weaken ((totalize_yields hl1.after).imp fun c w2 hl2 hc => ⟨hc.1, ?_⟩)
    have hf' : f.monotone = false := by simpa using hf
    rcases hcase with ⟨⟨p, hp⟩, hdet, -⟩ | ⟨hnone, hzero, -⟩
    · -- there is a starting state, hence a state
      obtain ⟨q, hq, -⟩ := hdet.start
      have hpos := hg'.start q hq
      rcases hc.2 with ⟨-, rfl⟩ | ⟨hzero, -⟩
      · exact ⟨g', hb.later hl2, hg', hdet.faithful hg'.toBounded hf' hlang⟩
      · omega
    · rcases hc.2 with ⟨hpos, -⟩ | ⟨-, hone, htrap⟩
      · omega
      · refine ⟨trap, htrap, hone ▸ trap_contained, trap_deterministic.faithful
          trap_contained.toBounded hf' fun cs _ => iff_of_false trap_accepts ?_⟩
        rintro ⟨q, -, hq⟩
        obtain ⟨p, hp, -⟩ := NFA.mem_evalFrom_iff_exists.1 hq
        exact hnone p hp

def highBlock (k l : Nat) : Domain := ⟨sourceBase + k, l, by simp [sourceBase]⟩

def destHighBlock (k l : Nat) : Domain := ⟨destBase + k, l, by simp [destBase, partitionBase,
  sourceBase]⟩

theorem highBlock_new {k l : Nat} : Domain.new (sourceBase + k) l = .ok (highBlock k l) := by
  simp [Domain.new, highBlock, sourceBase]

theorem destHighBlock_new {k l : Nat} :
    Domain.new (destBase + k) l = .ok (destHighBlock k l) := by
  simp [Domain.new, destHighBlock, destBase, partitionBase, sourceBase]

theorem read_pair (k l : Nat) (t : Assignment) :
    (sourceBlock k).read t = (sourceBlock (k + l)).read t % 2 ^ k ∧
      (highBlock k l).read t = (sourceBlock (k + l)).read t / 2 ^ k :=
  ⟨Domain.read_withLen (d := sourceBlock (k + l)) (Nat.le_add_right k l),
    Domain.read_upper (d := sourceBlock (k + l)) rfl rfl t⟩

theorem read_dest_pair (k l : Nat) (t : Assignment) :
    (destBlock k).read t = (destBlock (k + l)).read t % 2 ^ k ∧
      (destHighBlock k l).read t = (destBlock (k + l)).read t / 2 ^ k :=
  ⟨Domain.read_withLen (d := destBlock (k + l)) (Nat.le_add_right k l),
    Domain.read_upper (d := destBlock (k + l)) rfl rfl t⟩

/-- So many pairs need the bits of both operands. -/
theorem bitsNeeded_mul {n : Nat} (hn : 0 < n) (k : Nat) :
    bitsNeeded (n * 2 ^ k) = k + bitsNeeded n := by
  have hle : ∀ j, bitsNeeded (n * 2 ^ k) ≤ j ↔ k + bitsNeeded n ≤ j := by
    intro j
    rw [bitsNeeded_le_iff]
    change n * 2 ^ k ≤ 2 ^ j ↔ _
    rcases Nat.lt_or_ge j k with hj | hj
    · have hpow : 2 ^ j < 2 ^ k := Nat.pow_lt_pow_right (by decide) hj
      have hmul : 2 ^ k ≤ n * 2 ^ k := Nat.le_mul_of_pos_left _ hn
      omega
    · have hsplit : 2 ^ j = 2 ^ (j - k) * 2 ^ k := by rw [← Nat.pow_add, Nat.sub_add_cancel hj]
      have hbits := bitsNeeded_le_iff (n := n) (k := j - k)
      change _ ↔ n ≤ 2 ^ (j - k) at hbits
      rw [hsplit, Nat.mul_le_mul_right_iff (Nat.two_pow_pos k), ← hbits]
      omega
  exact Nat.le_antisymm ((hle _).2 (Nat.le_refl _)) ((hle _).1 (Nat.le_refl _))

theorem acceptingPairs_yields {x y : Ref} {F G : Assignment → Prop} (hw : w.current.WellFormed)
    (hx : w.current.Denotes x F) (hy : w.current.Denotes y G) :
    Yields w (acceptingPairs f x y) fun r m => m.Denotes r fun t =>
      ∃ i j, f i j = true ∧ (F t ↔ i = true) ∧ (G t ↔ j = true) := by
  refine (disjMap_yields (P := fun e t => (F t ↔ e.1 = true) ∧ (G t ↔ e.2 = true)) hw
    fun e _ w1 hl1 => ?_).imp fun r w1 _ hr => hr.congr fun t => ?_
  · have hm := hl1.after.canonical
    refine (conj_yields hl1.after ((hl1.denotes hx).negIf hm _)
      ((hl1.denotes hy).negIf hm _)).imp fun r w2 _ hr => hr.congr fun t => ?_
    cases e.1 <;> cases e.2 <;> simp
  · constructor
    · rintro ⟨⟨i, j⟩, he, h⟩
      exact ⟨i, j, (List.mem_filter.1 he).2, h⟩
    · rintro ⟨i, j, hf, h⟩
      refine ⟨(i, j), List.mem_filter.2 ⟨?_, hf⟩, h⟩
      cases i <;> cases j <;> simp [Connective.answers]

theorem high_set_yields {s : ValueSet} {P : Nat → Prop} {l : Nat} (hw : w.current.WellFormed)
    (hkl : k + l ≤ 32) (hs : s.domain = sourceBlock l ∧ s.Shows w.current P)
    (hP : ∀ v, P v → v < 2 ^ l) :
    Yields w (s.withDomain (highBlock k l)) fun r m =>
      m.Denotes r.fn fun t => P ((sourceBlock (k + l)).read t / 2 ^ k) := by
  have hl : l ≤ 32 := by omega
  have hbase : (highBlock k l).base ≤ edgeEnd := by
    change 1 + k ≤ 131072
    omega
  have hfit : s.domain.Fits (highBlock k l) P := by
    rw [hs.1]
    exact fits_of_small hl hl sourceBlock_base_le hbase fun v hv => ⟨hP v hv, hP v hv⟩
  refine (hs.2.withDomain hw hfit).imp fun r w1 _ hr => hr.2.denotes.congr fun t => ?_
  rw [hr.1, (read_pair k l t).2]

theorem high_edges_yields {r : Relation} {l : Nat} (hw : w.current.WellFormed)
    (hkl : k + l ≤ 32) (hr : r.domains = edgeBlocks l ∧ r.Shows w.current (Edges g))
    (hg : Bounded g (2 ^ l)) :
    Yields w (r.withDomains [highBlock k l, alphabet, destHighBlock k l]) fun u m =>
      m.Denotes u.fn fun t => (destBlock (k + l)).read t / 2 ^ k ∈
        g.step ((sourceBlock (k + l)).read t / 2 ^ k) (alphabet.read t) := by
  have hl : l ≤ 32 := by omega
  have hhigh : (highBlock k l).base + (highBlock k l).len ≤ 33 := by
    change 1 + k + l ≤ 33
    omega
  have hdest : (destHighBlock k l).base + (destHighBlock k l).len ≤ 97 := by
    change 65 + k + l ≤ 97
    omega
  have hbases : (33 : Nat) ≤ (destHighBlock k l).base ∧ (97 : Nat) ≤ alphabet.base := by
    change 33 ≤ 65 + k ∧ 97 ≤ 97
    omega
  have hapart : [highBlock k l, alphabet, destHighBlock k l].Pairwise Domain.Apart := by
    simp only [List.pairwise_cons, List.mem_cons, List.not_mem_nil, or_false, forall_eq_or_imp,
      forall_eq, IsEmpty.forall_iff, implies_true, List.Pairwise.nil, and_true]
    exact ⟨⟨Domain.apart_of_le (by omega), Domain.apart_of_le (by omega)⟩,
      (Domain.apart_of_le (by omega)).symm⟩
  have hends : EndBy edgeEnd [highBlock k l, alphabet, destHighBlock k l] := by
    have hend : (97 : Nat) ≤ edgeEnd := by decide
    intro d hd
    simp only [List.mem_cons, List.not_mem_nil, or_false] at hd
    rcases hd with rfl | rfl | rfl
    · omega
    · exact alphabet_end
    · omega
  refine (moveEdges_yields hw hr hl hl hl hapart hends hg hg.source hg.target).imp
    fun u w1 _ hu => hu.2.denotes.congr fun t => ?_
  rw [hu.1]
  simp only [Domain.reads, List.map_cons, List.map_nil, edges_iff, (read_pair k l t).2,
    (read_dest_pair k l t).2]

/-- The product holds the live pairs, numbered in ascending order. -/
theorem pairs_shows {g₁ g₂ : NFA Nat Nat} (hw : w.current.WellFormed)
    (ha : a.Shows w.current g₁) (hb : b.Shows w.current g₂)
    (hgb : Contained g₂ b.stateCount) (hpos : 0 < b.stateCount)
    (hbits : a.width + b.width ≤ 32) (hcount : b.stateCount * 2 ^ a.width < 2 ^ 32) :
    Yields w (a.pairs b f) fun c m => c.determinism = .unknown ∧ ∃ vs : List Nat, vs.Nodup ∧
      (∀ v, v ∈ vs ↔ Live (product g₁ g₂ a.width f) v) ∧ c.stateCount = vs.length ∧
      c.Shows m (renumber (product g₁ g₂ a.width f) vs) := by
  have hgb' := hgb.mono b.count_le_two_pow_width
  have hsource := sourceBlock_stop ha.width_le
  have hdest := destBlock_stop ha.width_le
  have halphabet : b.edges.domain 1 = .ok alphabet := Relation.domain_eq (by rw [hb.edges.1]; rfl)
  unfold pairs
  simp only []
  rw [if_neg (by change ¬ 32 < a.width + b.width; omega),
    if_neg (by change ¬ 2 ^ 32 ≤ b.stateCount * 2 ^ a.width; omega)]
  refine .lift_bind (states_eq ha.width_le) (.lift_bind hsource (.lift_bind highBlock_new
    (.lift_bind (dests_eq ha.width_le) (.lift_bind hdest (.lift_bind destHighBlock_new ?_)))))
  refine .bind (high_set_yields hw hbits hb.starting hgb'.start) fun s w1 hl1 hs => ?_
  have hb1 := hb.later hl1
  refine .bind (high_set_yields hl1.after hbits hb1.accepting hgb'.accept) fun t w2 hl2 ht => ?_
  have hb2 := hb1.later hl2
  refine .lift_bind halphabet ?_
  refine .bind (high_edges_yields hl2.after hbits hb2.edges hgb'.toBounded) fun r w3 hl3 hr => ?_
  refine .bind (ofCount_yields hl3.after hcount) fun c w4 hl4 hc => ?_
  obtain ⟨hccount, -, hc⟩ := hc
  have hwidth : c.width = a.width + b.width := by
    rw [width, hccount]
    exact bitsNeeded_mul hpos a.width
  refine .lift_bind hc.stateDomain ?_
  rw [hwidth]
  have hl4' := hl1.trans (hl2.trans (hl3.trans hl4))
  have ha4 := ha.later hl4'
  have hstart1 := ha4.starting.2.denotes
  have haccept1 := ha4.accepting.2.denotes
  have hedges1 := ha4.edges.2.denotes
  rw [ha.starting.1] at hstart1
  rw [ha.accepting.1] at haccept1
  rw [ha.edges.1] at hedges1
  refine .bind (conj_yields hl4.after hstart1 ((hl2.trans (hl3.trans hl4)).denotes hs))
    fun x w5 hl5 hx => ?_
  refine .bind (ValueSet.ofFn_yields (P := (· ∈ (product g₁ g₂ a.width f).start)) hl5.after
    (hx.congr fun t => ?_)) fun starting w6 hl6 hstarting => ?_
  · rw [(read_pair a.width b.width t).1]
    rfl
  refine .bind (acceptingPairs_yields hl6.after ((hl5.trans hl6).denotes haccept1)
    ((hl3.trans (hl4.trans (hl5.trans hl6))).denotes ht)) fun y w7 hl7 hy => ?_
  refine .bind (ValueSet.ofFn_yields (P := (· ∈ (product g₁ g₂ a.width f).accept)) hl7.after
    (hy.congr fun t => ?_)) fun accepting w8 hl8 haccepting => ?_
  · rw [(read_pair a.width b.width t).1]
    rfl
  have hl48 := hl5.trans (hl6.trans (hl7.trans hl8))
  refine .bind (conj_yields hl8.after (hl48.denotes hedges1) ((hl4.trans hl48).denotes hr))
    fun z w9 hl9 hz => ?_
  refine .lift_bind (transitions_eq hbits) ?_
  refine .bind (Relation.ofFn_yields (R := Edges (product g₁ g₂ a.width f)) hl9.after
    (edgeBlocks_apart hbits) ((edgeBlocks_ends hbits).mono (by have := edgeEnd_le; omega))
    (hz.congr fun t => ?_)) fun edges w10 hl10 hedges => ?_
  · simp only [Domain.reads, edgeBlocks, List.map_cons, List.map_nil, edges_iff,
      (read_pair a.width b.width t).1, (read_dest_pair a.width b.width t).1]
    rfl
  have hc10 := hc.later (hl48.trans (hl9.trans hl10))
  rw [← hwidth] at hstarting haccepting hedges
  have hstarting10 := hstarting.2.later (hl7.trans (hl8.trans (hl9.trans hl10)))
  have hshows : ({ c with starting := starting, accepting := accepting, edges := edges } :
      SymbolicNfa).Shows w10.current (product g₁ g₂ a.width f) :=
    ⟨⟨hc10.home, hc10.states, ⟨hstarting.1, hstarting10⟩,
      ⟨haccepting.1, haccepting.2.later (hl9.trans hl10)⟩, hedges⟩, hc10.few⟩
  have hbounded : Bounded (product g₁ g₂ a.width f) c.stateCount :=
    hccount ▸ product_bounded hgb.toBounded
  exact filterLive_shows hl10.after hshows hbounded

/-- Pairs that do not fit are refused. -/
theorem pairs_yieldsIff {g₁ g₂ : NFA Nat Nat} (hw : w.current.WellFormed)
    (ha : a.Shows w.current g₁) (hb : b.Shows w.current g₂)
    (hgb : Contained g₂ b.stateCount) (hpos : 0 < b.stateCount) :
    YieldsIff (a.width + b.width ≤ 32 ∧ b.stateCount * 2 ^ a.width < 2 ^ 32) w (a.pairs b f)
      fun c m => c.determinism = .unknown ∧ ∃ vs : List Nat, vs.Nodup ∧
        (∀ v, v ∈ vs ↔ Live (product g₁ g₂ a.width f) v) ∧ c.stateCount = vs.length ∧
        c.Shows m (renumber (product g₁ g₂ a.width f) vs) := by
  by_cases hfits : a.width + b.width ≤ 32 ∧ b.stateCount * 2 ^ a.width < 2 ^ 32
  · exact (pairs_shows hw ha hb hgb hpos hfits.1 hfits.2).yieldsIff hfits
  · unfold pairs
    simp only []
    by_cases hbits : 32 < a.width + b.width
    · rw [if_pos (by change 32 < a.width + b.width; omega)]
      exact Runs.throw hw hfits
    · rw [if_neg (by change ¬ 32 < a.width + b.width; omega),
        if_pos (by change 2 ^ 32 ≤ b.stateCount * 2 ^ a.width; omega)]
      exact Runs.throw hw hfits

/-- The pairs of states fit, the sinks that a monotone product adds counted in. -/
def Joinable (a b : SymbolicNfa) : Prop :=
  bitsNeeded (a.stateCount + 1) + bitsNeeded (b.stateCount + 1) ≤ 32 ∧
    (b.stateCount + 1) * 2 ^ bitsNeeded (a.stateCount + 1) < 2 ^ 32

theorem Joinable.counts (h : a.Joinable b) :
    a.stateCount + 1 < 2 ^ 32 ∧ b.stateCount + 1 < 2 ^ 32 := by
  have hpos := Nat.two_pow_pos (bitsNeeded (a.stateCount + 1))
  have hle := le_two_pow_bitsNeeded (a.stateCount + 1)
  have hleft := Nat.le_mul_of_pos_right (b.stateCount + 1) hpos
  have hright := Nat.le_mul_of_pos_left (2 ^ bitsNeeded (a.stateCount + 1))
    (show 0 < b.stateCount + 1 by omega)
  have hroom := h.2
  omega

open Classical in
/-- A monotone product accepts a word exactly if the connective holds of the two answers. -/
theorem combine_monotone_yieldsIff (hw : w.current.WellFormed) (ha : a.WellFormed w.current)
    (hb : b.WellFormed w.current) (hf : f.monotone = true) :
    YieldsIff (a.Joinable b) w (a.combine b f) fun c m => c.WellFormed m ∧ ∀ u, c.Accepts m u ↔
      f (decide (a.Accepts w.current u)) (decide (b.Accepts w.current u)) = true := by
  obtain ⟨g₁, h₁, hg₁⟩ := ha.shown
  obtain ⟨g₂, h₂, hg₂⟩ := hb.shown
  have hman : a.manager = b.manager := h₁.home.trans h₂.home.symm
  have hoperand : ∀ c : SymbolicNfa, c.operand f = c.withSink := fun c => if_pos hf
  rw [combine_eq]
  simp only [hman, ne_eq, not_true_eq_false, ↓reduceIte, hoperand]
  refine ((sink_yieldsIff hw h₁ hg₁).bind
    (D := b.stateCount + 1 < 2 ^ 32 ∧ a.Joinable b) ?_).congr
    ⟨fun h => h.2.2, fun h => ⟨h.counts.1, h.counts.2, h⟩⟩
  rintro a' w1 hl1 ⟨hcount₁, ha'⟩
  apply (sink_yieldsIff hl1.after (h₂.later hl1) hg₂).bind
  rintro b' w2 hl2 ⟨hcount₂, hb'⟩
  have hg₁' : Contained (sunk g₁ a.stateCount) a'.stateCount := hcount₁ ▸ sunk_contained hg₁
  have hg₂' : Contained (sunk g₂ b.stateCount) b'.stateCount := hcount₂ ▸ sunk_contained hg₂
  have hpairs := pairs_yieldsIff (f := f) hl2.after (ha'.later hl2) hb' hg₂' (by omega)
  rw [width, width, hcount₁, hcount₂] at hpairs
  apply hpairs.imp
  rintro c w3 hl3 ⟨hflag, vs, -, hvs, hlen, hc⟩
  have hg := hlen ▸ renumber_contained (product (sunk g₁ a.stateCount) (sunk g₂ b.stateCount)
    (bitsNeeded (a.stateCount + 1)) f) vs
  refine ⟨⟨⟨_, hc, hg⟩, honest_of_unknown hflag⟩, fun u => ?_⟩
  have hbounded : Bounded (sunk g₁ a.stateCount) (2 ^ bitsNeeded (a.stateCount + 1)) := by
    have hwidth := hg₁'.bounded
    rwa [hcount₁] at hwidth
  rw [hc.accepts_iff hl3.after.canonical hg.toBounded,
    accepts_renumber (fun v => (hvs v).2) u.lettered_codes,
    accepts_product_of_faithful hbounded (sunk_faithful hg₁ hf) (sunk_faithful hg₂ hf)
      u.lettered_codes]
  simp only [h₁.accepts_iff hw.canonical hg₁.toBounded, h₂.accepts_iff hw.canonical hg₂.toBounded]

end SymbolicNfa

end SymbolicAutomata
