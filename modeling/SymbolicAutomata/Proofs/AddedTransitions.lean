import SymbolicAutomata.Proofs.Derivations
import SymbolicAutomata.Proofs.MatrixEdits
/-!
# Edges added from a relation

A symbolic automaton moves a relation onto its own domains. A matrix asks the relation for the label
of each pair of states and moves the single states onto the domains of the relation, so it fails
where a state does not fit there, whether the relation has triples with this state or not.
-/
namespace SymbolicAutomata

open Manager Bdd Layout

variable {w w' : Workspace} {m : Manager} {g g' : NFA Nat Nat} {d e : Domain} {n p q : Nat}
  {failing : Prop}

theorem ValueSet.Shows.moved_runs {s : ValueSet} {v : Nat} (hs : s.Shows w.current (· = v))
    (hw : w.current.WellFormed) (hv : v < 2 ^ s.domain.len)
    (hsend : s.domain.base + s.domain.len ≤ 2 ^ 31) (hdend : d.base + d.len ≤ 2 ^ 31)
    (hnarrower : s.domain.len ≤ d.len + 64) (hwider : d.len ≤ s.domain.len + 64)
    (hfails : ¬ v < 2 ^ d.len → failing) :
    Runs failing w (s.moved d) fun t m => v < 2 ^ d.len ∧ t.domain = d ∧ t.Shows m (· = v) := by
  by_cases hfit : v < 2 ^ d.len
  · have hfits : s.domain.Fits d (· = v) := by
      refine ⟨hsend, hdend, hnarrower, hwider, ?_⟩
      rintro _ rfl
      exact ⟨hv, hfit⟩
    exact Runs.weaken ((hs.moved hw hfits).imp fun t w1 _ ht => ⟨hfit, ht⟩)
  · have hnone : Keeps w (s.moved d) fun _ _ => False :=
      .within hs.home ((hs.withDomain_fits hw (Domain.safe_of_ends hsend hdend)).imp
        fun t w1 _ ht => hfit (ht.1 v hv rfl))
    exact hnone.mono (fun _ => hfails hfit) fun t w1 _ hfalse => hfalse.elim

namespace Relation

variable {r out : Relation}

/-- A triple of a relation with symbols in the middle. -/
def HasTriple (r : Relation) (m : Manager) (p : Nat) (x : Letter) (q : Nat) : Prop :=
  ∃ s : Assignment, Domain.reads r.domains s = [p, x.code, q] ∧ m.Evaluates s r.fn true

theorem Shows.hasTriple_iff {R : List Nat → Prop} {x : Letter} (h : r.Shows m R)
    (hdom : r.domains = [d, alphabet, e]) (hm : m.Canonical) :
    r.HasTriple m p x q ↔ p < 2 ^ d.len ∧ q < 2 ^ e.len ∧ R [p, x.code, q] := by
  have hfits : List.Forall₂ (fun v d => v < 2 ^ d.len) [p, x.code, q] r.domains ↔
      p < 2 ^ d.len ∧ q < 2 ^ e.len := by
    rw [hdom]
    simp only [List.forall₂_cons, List.forall₂_nil_right_iff, and_true]
    exact and_congr_right fun _ => and_iff_right x.code_lt
  constructor
  · rintro ⟨s, hs, hval⟩
    obtain ⟨hp, hq⟩ := hfits.1 (hs ▸ Domain.forall₂_reads)
    rw [← hm.eval_eq_iff h.denotes.has, h.denotes.holds, hs] at hval
    exact ⟨hp, hq, hval⟩
  · rintro ⟨hp, hq, hval⟩
    obtain ⟨s, hs⟩ := Domain.exists_reads h.apart (hfits.2 ⟨hp, hq⟩)
    refine ⟨s, hs, ?_⟩
    rwa [← hm.eval_eq_iff h.denotes.has, h.denotes.holds, hs]

/-- Triples of numbers below `n` with symbols in the middle. The domains of the numbers are in reach
of those of `n` states: they lie low enough for the blocks of a move above them, and have at most as
many more bits as a word has. -/
structure Between (r : Relation) (m : Manager) (d e : Domain) (n : Nat) : Prop where
  domains : r.domains = [d, alphabet, e]
  shown : ∃ R, r.Shows m R
  among : ∀ p x q, r.HasTriple m p x q → p < n ∧ q < n
  ends : EndBy (2 ^ 30) r.domains
  source : d.len ≤ bitsNeeded n + 64
  target : e.len ≤ bitsNeeded n + 64

/-- The domains have room for all states, not only for those of the triples. -/
def Covers (r : Relation) (d e : Domain) (n : Nat) : Prop :=
  n ≤ 2 ^ d.len ∧ (r.isEmpty = false → n ≤ 2 ^ e.len)

/-- The triples as the edges of an automaton that has no starting and accepting states. -/
structure Carries (r : Relation) (m : Manager) (d e : Domain) (n : Nat) (g : NFA Nat Nat) : Prop
    extends r.Between m d e n where
  edges : r.Shows m (Edges g)
  bounded : Bounded g n
  carried : ∀ p c q, q ∈ g.step p c → p < 2 ^ d.len ∧ c < letterCount ∧ q < 2 ^ e.len
  triple_iff : ∀ p x q, r.HasTriple m p x q ↔ q ∈ g.step p x.code

theorem Carries.contained_augment (h : r.Carries m d e n g) (hg : Contained g' n) :
    Contained (augment g' fun p c q => q ∈ g.step p c) n :=
  hg.augment fun p c q hq => ⟨h.bounded.source p c q hq, h.bounded.target p c q hq⟩

theorem Between.exists_carries (h : r.Between m d e n) (hm : m.Canonical) :
    ∃ g, r.Carries m d e n g := by
  obtain ⟨R, hR⟩ := h.shown
  let g : NFA Nat Nat :=
    ⟨fun p c => {q | p < 2 ^ d.len ∧ c < letterCount ∧ q < 2 ^ e.len ∧ R [p, c, q]}, ∅, ∅⟩
  have htriple : ∀ p x q, r.HasTriple m p x q ↔ q ∈ g.step p x.code := by
    intro p x q
    rw [hR.hasTriple_iff h.domains hm]
    exact ⟨fun ⟨hp, hq, hval⟩ => ⟨hp, x.code_lt, hq, hval⟩,
      fun ⟨hp, _, hq, hval⟩ => ⟨hp, hq, hval⟩⟩
  have hamong : ∀ p c q, q ∈ g.step p c → p < n ∧ q < n := by
    intro p c q hq
    obtain ⟨x, rfl⟩ := Letter.exists_code hq.2.1
    exact h.among p x q ((htriple p x q).2 hq)
  refine ⟨g, h, hR.congr fun ts hts => ?_,
    ⟨fun _ hp => hp.elim, fun p c q hq => (hamong p c q hq).1, fun p c q hq => (hamong p c q hq).2⟩,
    fun p c q hq => ⟨hq.1, hq.2.1, hq.2.2.1⟩, htriple⟩
  rw [h.domains, forall₂_triple] at hts
  obtain ⟨p, c, q, rfl, hp, hc, hq⟩ := hts
  rw [edges_iff]
  exact ⟨fun hR => ⟨hp, hc, hq, hR⟩, fun hstep => hstep.2.2.2⟩

theorem Carries.later (h : r.Carries w.current d e n g) (hl : w.Leads w') :
    r.Carries w'.current d e n g := by
  have hlater := h.edges.later hl
  have htriple : ∀ p x q, r.HasTriple w'.current p x q ↔ q ∈ g.step p x.code := by
    intro p x q
    rw [← h.triple_iff, hlater.hasTriple_iff h.domains hl.after.canonical,
      h.edges.hasTriple_iff h.domains hl.before.canonical]
  refine ⟨⟨h.domains, ⟨_, hlater⟩, fun p x q hpq => ?_, h.ends, h.source, h.target⟩, hlater,
    h.bounded, h.carried, htriple⟩
  have hstep := (htriple p x q).1 hpq
  exact ⟨h.bounded.source p _ q hstep, h.bounded.target p _ q hstep⟩

theorem Carries.isEmpty_iff (h : r.Carries m d e n g) (hm : m.Canonical) :
    r.isEmpty = true ↔ ∀ p c q, q ∉ g.step p c := by
  rw [h.edges.isEmpty_iff hm, h.domains]
  constructor
  · intro hnone p c q hq
    refine hnone [p, c, q] (forall₂_triple.2 ⟨p, c, q, rfl, h.carried p c q hq⟩) ?_
    exact edges_iff.2 hq
  · rintro hnone ts - ⟨p, c, q, -, hq⟩
    exact hnone p c q hq

/-- Every state has been found to fit the sources, and every state the destinations if there are
triples at all. -/
theorem Carries.covers (h : r.Carries m d e n g) (hm : m.Canonical)
    (hrounds : ∀ p < n, p < 2 ^ d.len ∧ ((∃ c q, q ∈ g.step p c) → ∀ q < n, q < 2 ^ e.len)) :
    r.Covers d e n := by
  have hle : ∀ {k : Nat}, (∀ p < n, p < 2 ^ k) → n ≤ 2 ^ k := by
    intro k hall
    by_contra hlt
    exact Nat.lt_irrefl _ (hall (2 ^ k) (by omega))
  refine ⟨hle fun p hp => (hrounds p hp).1, fun hsome => ?_⟩
  have hnonempty : ¬ ∀ p c q, q ∉ g.step p c := by
    rw [← h.isEmpty_iff hm, hsome]
    exact Bool.false_ne_true
  push Not at hnonempty
  obtain ⟨p, c, q, hq⟩ := hnonempty
  exact hle ((hrounds p (h.bounded.source p c q hq)).2 ⟨c, q, hq⟩)

/-- The letters from `p` to `q`, as the tuples of a relation that is restricted to both. -/
theorem Carries.letter_iff {c : Nat} (h : r.Carries m d e n g) :
    (∃ ts, List.Forall₂ (fun v d => v < 2 ^ d.len) ts r.domains ∧ ts[1]? = some c ∧
      (Edges g ts ∧ ∀ v, ts[0]? = some v → v = p) ∧ ∀ v, ts[2]? = some v → v = q) ↔
      q ∈ g.step p c := by
  constructor
  · rintro ⟨_, -, hc, ⟨⟨p', c', q', rfl, hstep⟩, hp⟩, hq⟩
    obtain rfl : c' = c := Option.some.inj hc
    obtain rfl : p' = p := hp p' rfl
    obtain rfl : q' = q := hq q' rfl
    exact hstep
  · intro hstep
    refine ⟨[p, c, q], ?_, rfl, ⟨edges_iff.2 hstep, fun v hv => ?_⟩, fun v hv => ?_⟩
    · rw [h.domains, forall₂_triple]
      exact ⟨p, c, q, rfl, h.carried p c q hstep⟩
    · exact (Option.some.inj hv).symm
    · exact (Option.some.inj hv).symm

theorem Carries.isEmpty_row_iff (h : r.Carries m d e n g) (hm : m.Canonical)
    (hdom : out.domains = r.domains)
    (hout : out.Shows m fun ts => Edges g ts ∧ ∀ v, ts[0]? = some v → v = p) :
    out.isEmpty = true ↔ ∀ c q, q ∉ g.step p c := by
  rw [hout.isEmpty_iff hm, hdom]
  constructor
  · intro hnone c q hstep
    refine hnone [p, c, q] ?_ ⟨edges_iff.2 hstep, fun v hv => (Option.some.inj hv).symm⟩
    rw [h.domains, forall₂_triple]
    exact ⟨p, c, q, rfl, h.carried p c q hstep⟩
  · rintro hnone ts - ⟨⟨p', c, q, rfl, hstep⟩, hp'⟩
    obtain rfl : p' = p := hp' p' rfl
    exact hnone c q hstep

end Relation

namespace Automaton

variable {a : MatrixNfa} {b : Automaton} {r out : Relation} {qs : List Nat}

theorem singleton_state_yields (hw : w.current.WellFormed) (hn : n < 2 ^ 32) (hp : p < n) :
    Yields w (ValueSet.singleton (sourceBlock (bitsNeeded n)) p) fun s m =>
      s.domain = sourceBlock (bitsNeeded n) ∧ s.Shows m (· = p) := by
  have hk : bitsNeeded n ≤ 32 := bitsNeeded_le_iff.2 (Nat.le_of_lt hn)
  exact ValueSet.singleton_yields hw (Nat.le_trans hk (by decide)) (SymbolicNfa.source_end hk)
    (Nat.lt_of_lt_of_le hp (le_two_pow_bitsNeeded n))

theorem moved_state_runs {s : ValueSet} (hw : w.current.WellFormed) (hn : n < 2 ^ 32)
    (hp : p < n) (hs : s.domain = sourceBlock (bitsNeeded n) ∧ s.Shows w.current (· = p))
    (hend : d.base + d.len ≤ 2 ^ 30) (hlen : d.len ≤ bitsNeeded n + 64)
    (hfails : ¬ p < 2 ^ d.len → failing) :
    Runs failing w (s.moved d) fun t m => p < 2 ^ d.len ∧ t.domain = d ∧ t.Shows m (· = p) := by
  have hk : bitsNeeded n ≤ 32 := bitsNeeded_le_iff.2 (Nat.le_of_lt hn)
  have hslen : s.domain.len = bitsNeeded n := by rw [hs.1]; rfl
  refine hs.2.moved_runs hw ?_ ?_ (by omega) (by omega) (by omega) hfails
  · rw [hslen]
    exact Nat.lt_of_lt_of_le hp (le_two_pow_bitsNeeded n)
  · rw [hs.1]
    exact SymbolicNfa.source_end hk

/-- One pair of states: the letters between them are added, or the destination does not fit. -/
theorem Revises.addPair_runs (hb : b.Revises a w.current g') (hw : w.current.WellFormed)
    (hfew : a.stateCount < 2 ^ 32) (hr : r.Carries w.current d e a.stateCount g)
    (hdom : out.domains = r.domains)
    (hout : out.Shows w.current fun ts => Edges g ts ∧ ∀ v, ts[0]? = some v → v = p)
    (hp : p < a.stateCount) (hq : q < a.stateCount) (hfails : ¬ q < 2 ^ e.len → failing) :
    Runs failing w (do
      let dest ← ValueSet.singleton (sourceBlock (bitsNeeded a.stateCount)) q
      let on ← Bdd.within r.manager do (← out.restrict 2 dest).symbolsOn 1
      if on.isEmpty then return b
      b.addEdge p on q) fun c m => q < 2 ^ e.len ∧
        c.Revises a m (augment g' fun p' c q' => p' = p ∧ q' = q ∧ q ∈ g.step p c) := by
  have hd2 : out.domains[2]? = some e := by rw [hdom, hr.domains]; rfl
  have hend : e.base + e.len ≤ 2 ^ 30 := hr.ends e (hdom ▸ List.mem_of_getElem? hd2)
  apply Runs.bind (Runs.weaken (singleton_state_yields hw hfew hq))
  intro dest w1 hl1 hdest
  have hmoved := moved_state_runs hl1.after hfew hq hdest hend hr.target hfails
  have hlabel : Runs failing w1 (Bdd.within r.manager do (← out.restrict 2 dest).symbolsOn 1)
      fun on m => q < 2 ^ e.len ∧ on.Shows m (q ∈ g.step p ·) := by
    refine Runs.within (hr.edges.later hl1).home ?_
    apply Runs.bind (Relation.restrict_runs (hout.later hl1) hd2 hmoved)
    rintro both w2 hl2 ⟨hfit, hbd, hboth⟩
    have hd1 : both.domains[1]? = some Layout.alphabet := by rw [hbd, hdom, hr.domains]; rfl
    apply Runs.weaken ((Relation.symbolsOn_yields hl2.after hboth hd1).imp ?_)
    rintro on w3 - hon
    rw [hbd, hdom] at hon
    exact ⟨hfit, hon.congr fun c _ => hr.letter_iff⟩
  apply Runs.bind hlabel
  rintro on w2 hl2 ⟨hfit, hon⟩
  have hb2 := hb.later (hl1.trans hl2)
  split_ifs with hempty
  · have hnone := (hon.isEmpty_iff hl2.after.canonical).1 hempty
    refine Runs.pure hl2.after ⟨hfit, hb2.augment_of_none ?_ ?_⟩
    · rintro p' q' c hc ⟨-, -, hstep⟩
      exact hnone c hc hstep
    · rintro p' c q' ⟨rfl, rfl, -⟩
      exact ⟨hp, hq⟩
  · exact Runs.weaken ((hb2.addEdge_yields hl2.after hp hq hon).imp fun c w3 _ hc => ⟨hfit, hc⟩)

/-- One state with all destinations. The destinations are looked at only if there are some. -/
theorem Revises.addRow_runs (hb : b.Revises a w.current g') (hw : w.current.WellFormed)
    (hfew : a.stateCount < 2 ^ 32) (hr : r.Carries w.current d e a.stateCount g)
    (hqs : ∀ q, q ∈ qs ↔ q < a.stateCount) (hp : p < a.stateCount)
    (hfails : ¬ r.Covers d e a.stateCount → failing) :
    Runs failing w (do
      let source ← ValueSet.singleton (sourceBlock (bitsNeeded a.stateCount)) p
      let out ← Bdd.within r.manager (r.restrict 0 source)
      if out.isEmpty then return b
      qs.foldlM (fun b q => do
        let dest ← ValueSet.singleton (sourceBlock (bitsNeeded a.stateCount)) q
        let on ← Bdd.within r.manager do (← out.restrict 2 dest).symbolsOn 1
        if on.isEmpty then return b
        b.addEdge p on q) b) fun c m =>
        (p < 2 ^ d.len ∧ ((∃ c q, q ∈ g.step p c) → ∀ q < a.stateCount, q < 2 ^ e.len)) ∧
          c.Revises a m (augment g' fun p' c q => p' = p ∧ q ∈ g.step p c) := by
  have hd0 : r.domains[0]? = some d := by rw [hr.domains]; rfl
  have hend : d.base + d.len ≤ 2 ^ 30 := hr.ends d (List.mem_of_getElem? hd0)
  apply Runs.bind (Runs.weaken (singleton_state_yields hw hfew hp))
  intro source w1 hl1 hs
  have hmoved := moved_state_runs hl1.after hfew hp hs hend hr.source fun hlt =>
    hfails fun hcovers => hlt (Nat.lt_of_lt_of_le hp hcovers.1)
  have hr1 := hr.later hl1
  apply Runs.bind (Runs.within hr1.edges.home (Relation.restrict_runs hr1.edges hd0 hmoved))
  rintro out w2 hl2 ⟨hfit, hdom, hout⟩
  have hr2 := hr1.later hl2
  have hb2 := hb.later (hl1.trans hl2)
  have hempty_iff := hr2.isEmpty_row_iff hl2.after.canonical hdom hout
  split_ifs with hempty
  · have hnone := hempty_iff.1 hempty
    refine Runs.pure hl2.after ⟨⟨hfit, fun ⟨c, q, hstep⟩ => absurd hstep (hnone c q)⟩,
      hb2.augment_of_none ?_ ?_⟩
    · rintro p' q c - ⟨-, hstep⟩
      exact hnone c q hstep
    · rintro p' c q ⟨-, hstep⟩
      exact absurd hstep (hnone c q)
  · have hsome : r.isEmpty = false := by
      rw [← Bool.not_eq_true, hr2.isEmpty_iff hl2.after.canonical]
      exact fun hnone => hempty (hempty_iff.2 fun c q => hnone p c q)
    apply (augments_runs (I := fun (c : Automaton) m g => c.Revises a m g)
      (C := fun q => q < 2 ^ e.len)
      (K := fun q p' c q' => p' = p ∧ q' = q ∧ q ∈ g.step p c) hl2.after hb2 ?_).imp
    · rintro c w3 - ⟨hfits, hc⟩
      have heq : (augment g' fun p' c q' => ∃ q ∈ qs, p' = p ∧ q' = q ∧ q ∈ g.step p c) =
          augment g' fun p' c q => p' = p ∧ q ∈ g.step p c := by
        congr 1
        funext p' c q'
        refine propext ⟨fun ⟨q, _, hp', hq', hstep⟩ => ⟨hp', hq' ▸ hstep⟩, fun ⟨hp', hstep⟩ => ?_⟩
        exact ⟨q', (hqs q').2 (hr.bounded.target p c q' hstep), hp', rfl, hstep⟩
      exact ⟨⟨hfit, fun _ q hq => hfits q ((hqs q).2 hq)⟩, heq ▸ hc⟩
    · intro q hq w' b' g'' hl hb'
      refine hb'.addPair_runs hl.after hfew (hr2.later hl) hdom (hout.later hl) hp ((hqs q).1 hq)
        fun hlt => hfails fun hcovers => ?_
      exact hlt (Nat.lt_of_lt_of_le ((hqs q).1 hq) (hcovers.2 hsome))

/-- The edges of a relation are added, or some state does not fit the domains of the relation. -/
theorem addTransitions_runs (ha : a.Displays w.current g') (hw : w.current.WellFormed)
    (hr : r.Carries w.current d e a.stateCount g) :
    Runs (¬ r.Covers d e a.stateCount) w (addTransitions (matrix a) r) fun b m =>
      r.Covers d e a.stateCount ∧ b.Revises a m (augment g' fun p c q => q ∈ g.step p c) := by
  have harity : r.arity = 3 := by simp [Relation.arity, hr.domains]
  unfold addTransitions
  dsimp only
  rw [if_neg (not_not_intro harity)]
  apply Runs.bind (Runs.weaken (ha.states_yields hw))
  rintro states w1 hl1 ⟨hsd, hs⟩
  have hk := ha.width_le
  have hn := le_two_pow_bitsNeeded a.stateCount
  have hlen : states.domain.len = bitsNeeded a.stateCount := by rw [hsd]; rfl
  have hbase : states.domain.base = 1 := by rw [hsd]; rfl
  unfold addEachEdge
  rw [hsd]
  apply Runs.bind (Runs.weaken (hs.elements_yields hl1.after (by omega) (by omega)))
  intro qs w2 hl2 hmem
  have hqs : ∀ q, q ∈ qs ↔ q < a.stateCount := by
    intro q
    rw [hmem, hlen]
    exact and_iff_right_of_imp fun hq => Nat.lt_of_lt_of_le hq hn
  have hl := hl1.trans hl2
  have hr2 := hr.later hl
  apply (augments_runs (I := fun (c : Automaton) m g => c.Revises a m g)
    (C := fun p => p < 2 ^ d.len ∧
      ((∃ c q, q ∈ g.step p c) → ∀ q < a.stateCount, q < 2 ^ e.len))
    (K := fun p p' c q => p' = p ∧ q ∈ g.step p c) hl2.after
    ⟨a, rfl, .refl a, ha.later hl⟩ fun p hp w' b g'' hl' hb =>
      hb.addRow_runs hl'.after ha.few (hr2.later hl') hqs ((hqs p).1 hp) id).imp
  rintro b w3 hl3 ⟨hrounds, hb⟩
  have heq : (augment g' fun p' c q => ∃ p ∈ qs, p' = p ∧ q ∈ g.step p c) =
      augment g' fun p c q => q ∈ g.step p c := by
    congr 1
    funext p c q
    refine propext ⟨?_, fun hstep => ?_⟩
    · rintro ⟨p', -, rfl, hstep⟩
      exact hstep
    · exact ⟨p, (hqs p).2 (hr.bounded.source p c q hstep), rfl, hstep⟩
  refine ⟨(hr2.later hl3).covers hl3.after.canonical fun p hp => hrounds p ((hqs p).2 hp), heq ▸ hb⟩

/-- The automaton has the states of another one, and the triples of a relation besides its edges. -/
structure Extends (c : Automaton) (m' : Manager) (a : Automaton) (r : Relation) (m : Manager) :
    Prop where
  count : c.size = a.size
  begins : ∀ dir p, c.Begins m' dir p ↔ a.Begins m dir p
  edges : ∀ p x q, c.HasEdge m' p x q ↔ a.HasEdge m p x q ∨ r.HasTriple m p x q

theorem extends_of_shows {a c : Automaton} {m' : Manager} (ha : Shows m a g') (hm : m.Canonical)
    (hg : Contained g' a.size) (hr : r.Carries m d e a.size g)
    (hc : Shows m' c (augment g' fun p c q => q ∈ g.step p c)) (hm' : m'.Canonical)
    (hcount : c.size = a.size) : Extends c m' a r m := by
  have hgc : Contained (augment g' fun p c q => q ∈ g.step p c) c.size :=
    hcount ▸ hr.contained_augment hg
  constructor
  · exact hcount
  · intro dir p
    rw [hc.begins_iff hm' hgc, ha.begins_iff hm hg]
    cases dir <;> rfl
  · intro p x q
    rw [hc.hasEdge_iff hm' hgc, ha.hasEdge_iff hm hg, hr.triple_iff]
    rfl

theorem addTransitions_extends {a : SymbolicNfa} (ha : a.Shows w.current g')
    (hw : w.current.WellFormed) (hr : r.Carries w.current d e a.stateCount g) :
    Yields w (addTransitions (symbolic a) r) fun b m => ∃ b', b = symbolic b' ∧
      b'.stateCount = a.stateCount ∧ b'.Shows m (augment g' fun p c q => q ∈ g.step p c) := by
  have hn := a.count_le_two_pow_width
  apply Runs.bind (SymbolicNfa.addTransitions_yields hw ha hr.domains hr.edges hr.source hr.target
    hr.ends
    (fun p c q hq =>
      ⟨(hr.carried p c q hq).1, Nat.lt_of_lt_of_le (hr.bounded.source p c q hq) hn⟩)
    fun p c q hq =>
      ⟨(hr.carried p c q hq).2.2, Nat.lt_of_lt_of_le (hr.bounded.target p c q hq) hn⟩)
  rintro b w1 hl1 ⟨hcount, -, -, hb⟩
  exact Runs.pure hl1.after ⟨b, rfl, hcount, hb⟩

/-- A symbolic automaton takes all triples between its states. A matrix does exactly if the domains
of the relation have room for all states; then the two have the same edges afterwards, and the same
answer for each pair of states. -/
theorem addTransitions_of_formed {b : SymbolicNfa} (hw : w.current.WellFormed)
    (ha : (matrix a).Formed w.current) (hsquare : a.Square) (hb : (symbolic b).Formed w.current)
    (hcount : b.stateCount = a.stateCount)
    (hedges : ∀ p x q, (matrix a).HasEdge w.current p x q ↔ (symbolic b).HasEdge w.current p x q)
    (hr : r.Between w.current d e a.stateCount) :
    (∃ b' w', addTransitions (symbolic b) r w = .ok b' w' ∧
      Extends b' w'.current (symbolic b) r w.current) ∧
    (r.Covers d e a.stateCount → ∃ a' w₁ b' w₂, addTransitions (matrix a) r w = .ok a' w₁ ∧
      addTransitions (symbolic b) r w₁ = .ok b' w₂ ∧
      Extends a' w₂.current (matrix a) r w.current ∧
      Extends b' w₂.current (symbolic b) r w.current ∧
      ∀ p < a.stateCount, ∀ q < a.stateCount, ∃ on w₃ w₄,
        a'.edge p q w₂ = .ok on w₃ ∧ b'.edge p q w₃ = .ok on w₄) ∧
    (¬ r.Covers d e a.stateCount → ∃ f w', addTransitions (matrix a) r w = .error f w') := by
  obtain ⟨g₁, h₁, hg₁⟩ := ha
  obtain ⟨g₂, h₂, hg₂⟩ := hb
  obtain ⟨g, hg⟩ := hr.exists_carries hw.canonical
  have hdisplays : a.Displays w.current g₁ := ⟨h₁, hsquare, hg₁⟩
  have hgb : r.Carries w.current d e b.stateCount g := hcount ▸ hg
  have hruns := addTransitions_runs hdisplays hw hg
  refine ⟨?_, fun hcovers => ?_, fun hcovers => ?_⟩
  · obtain ⟨_, w', hrun, hl, b', rfl, hcount', hb'⟩ := yields_iff.1
      (addTransitions_extends h₂ hw hgb)
    exact ⟨_, w', hrun, extends_of_shows (.symbolic h₂) hw.canonical hg₂ hgb (.symbolic hb')
      hl.after.canonical hcount'⟩
  · obtain ⟨_, w₁, hrun₁, hl₁, -, a', rfl, ha'⟩ := yields_iff.1
      (hruns.yields (not_not_intro hcovers))
    obtain ⟨_, w₂, hrun₂, hl₂, b', rfl, hcount', hb'⟩ := yields_iff.1
      (addTransitions_extends (h₂.later hl₁) hl₁.after (hgb.later hl₁))
    have hshows' : Shows w₂.current (matrix a') _ := .matrix (ha'.displays.toShows.later hl₂)
    refine ⟨_, w₁, _, w₂, hrun₁, hrun₂, extends_of_shows (.matrix h₁) hw.canonical hg₁ hg hshows'
      hl₂.after.canonical ha'.alike.count, extends_of_shows (.symbolic h₂) hw.canonical hg₂ hgb
      (.symbolic hb') hl₂.after.canonical hcount', fun p hp q hq => ?_⟩
    have hsame : ∀ c < letterCount, q ∈ g₁.step p c ↔ q ∈ g₂.step p c := by
      intro c hc
      obtain ⟨x, rfl⟩ := Letter.exists_code hc
      rw [← (Shows.matrix h₁).hasEdge_iff hw.canonical hg₁, hedges,
        (Shows.symbolic h₂).hasEdge_iff hw.canonical hg₂]
    have hpa : p < a'.stateCount := ha'.alike.count ▸ hp
    have hqa : q < a'.stateCount := ha'.alike.count ▸ hq
    have hpb : p < b'.stateCount := by rwa [hcount', hcount]
    have hqb : q < b'.stateCount := by rwa [hcount', hcount]
    have hgb' : Contained _ b'.stateCount := hcount' ▸ hgb.contained_augment hg₂
    exact hshows'.edge_agrees (.symbolic hb') hl₂.after ha'.displays.contained hgb' hpa hqa hpb hqb
      fun c hc => or_congr_left (hsame c hc)
  · unfold Runs at hruns
    cases hrun : addTransitions (matrix a) r w with
    | error f w' => exact ⟨f, w', rfl⟩
    | ok a' w' =>
      rw [hrun] at hruns
      exact absurd hruns.2.1 hcovers

theorem addTransitions_of_formed_firstEdge : ∃ m b w₁ c w₂ a w₃ a' w₄ b' w₅,
    Manager.new 0 1 1 = .ok m ∧ SymbolicNfa.ofCount 2 ⟨m, []⟩ = .ok b w₁ ∧
    b.addEdge 0 (.universal m.id) 1 w₁ = .ok c w₂ ∧
    MatrixNfa.ofAutomaton (symbolic b) w₂ = .ok a w₃ ∧
    addTransitions (matrix a) c.edges w₃ = .ok a' w₄ ∧
    addTransitions (symbolic b) c.edges w₄ = .ok b' w₅ ∧
    ∀ x, a'.HasEdge w₅.current 0 x 1 ∧ b'.HasEdge w₅.current 0 x 1 := by
  obtain ⟨m, hm⟩ : ∃ m, Manager.new 0 1 1 = .ok m := ⟨_, rfl⟩
  obtain ⟨b, w₁, hrun₁, hl₁, hbcount, -, hb⟩ := yields_iff.1
    (SymbolicNfa.ofCount_yields (w := ⟨m, []⟩) (wellFormed_new hm) (by decide : 2 < 2 ^ 32))
  have hedge : Yields w₁ (b.addEdge 0 (.universal m.id) 1) _ :=
    SymbolicNfa.addEdge_yields (L := fun _ => True) hl₁.after hb
      (SymbolicNfa.universal_denotes hl₁.after.canonical m.id) (by omega) (by omega)
  obtain ⟨c, w₂, hrun₂, hl₂, hccount, -, hc⟩ := yields_iff.1 hedge
  have hb₂ : Shows w₂.current (symbolic b) bare := .symbolic (hb.later hl₂)
  obtain ⟨a, w₃, hrun₃, hl₃, hacount, -, ha⟩ := yields_iff.1
    (MatrixNfa.ofAutomaton_yields hl₂.after hb₂ (bare_contained _))
  have hb₃ : b.Shows w₃.current bare := hb.later (hl₂.trans hl₃)
  have hc₃ := hc.later hl₃
  have htwo : a.stateCount = 2 := hacount.trans hbcount
  have hwidth : c.width = 1 := by rw [SymbolicNfa.width, hccount, hbcount]; rfl
  have hdom : c.edges.domains = [sourceBlock 1, Layout.alphabet, destBlock 1] := by
    rw [hc₃.edges.1, hwidth]
    rfl
  have htriple : ∀ {p x q}, c.edges.HasTriple w₃.current p x q ↔ p = 0 ∧ q = 1 := by
    intro p x q
    rw [hc₃.edges.2.hasTriple_iff hdom hl₃.after.canonical, edges_iff]
    constructor
    · rintro ⟨-, -, hnone | ⟨hp, -, hq⟩⟩
      · exact hnone.elim
      · exact ⟨hp, hq⟩
    · rintro ⟨rfl, rfl⟩
      exact ⟨by decide, by decide, .inr ⟨rfl, trivial, rfl⟩⟩
  have hbetween : c.edges.Between w₃.current (sourceBlock 1) (destBlock 1) a.stateCount := by
    refine ⟨hdom, ⟨_, hc₃.edges.2⟩, fun p x q hpq => ?_, ?_, ?_, ?_⟩
    · obtain ⟨rfl, rfl⟩ := htriple.1 hpq
      omega
    · rw [hdom]
      exact (edgeBlocks_ends (by decide)).mono (by decide)
    · exact Nat.le_trans (by decide : (sourceBlock 1).len ≤ 64) (Nat.le_add_left _ _)
    · exact Nat.le_trans (by decide : (destBlock 1).len ≤ 64) (Nat.le_add_left _ _)
  have hcovers : c.edges.Covers (sourceBlock 1) (destBlock 1) a.stateCount := by
    rw [htwo]
    exact ⟨by decide, fun _ => by decide⟩
  have hsame : ∀ p x q,
      (matrix a).HasEdge w₃.current p x q ↔ (symbolic b).HasEdge w₃.current p x q := by
    intro p x q
    rw [(Shows.matrix ha.toShows).hasEdge_iff hl₃.after.canonical ha.contained,
      (Shows.symbolic hb₃).hasEdge_iff hl₃.after.canonical (bare_contained _)]
  obtain ⟨-, hboth, -⟩ := addTransitions_of_formed hl₃.after ⟨_, ha.toShows, ha.contained⟩
    ha.square ⟨_, hb₃, bare_contained _⟩ (hbcount.trans htwo.symm) hsame hbetween
  obtain ⟨a', w₄, b', w₅, hrun₄, hrun₅, ha', hb', -⟩ := hboth hcovers
  exact ⟨m, b, w₁, c, w₂, a, w₃, a', w₄, b', w₅, hm, hrun₁, hrun₂, hrun₃, hrun₄, hrun₅, fun x =>
    ⟨(ha'.edges 0 x 1).2 (.inr (htriple.2 ⟨rfl, rfl⟩)),
      (hb'.edges 0 x 1).2 (.inr (htriple.2 ⟨rfl, rfl⟩))⟩⟩

def addFirstEdge (blank : BddM Automaton) : BddM Automaton := do
  let b ← SymbolicNfa.ofCount 2
  let b ← b.addEdge 0 (.universal b.manager) 1
  (← blank).addTransitions b.edges

def blankMatrix : BddM Automaton := do
  let (_, a) := (← MatrixNfa.empty).addState false false
  let (_, a) := a.addState false false
  let (_, a) := a.addState false false
  return matrix a

/-- The state 2 has no triples and does not fit their domains. The matrix fails because of it, and
the symbolic automaton of three states does not. -/
theorem addFirstEdge_eq : ∃ m w a w', Manager.new 0 1 1 = .ok m ∧
    addFirstEdge blankMatrix ⟨m, []⟩ = .error (.valuesDoNotFit [2] (destBlock 1)) w ∧
    addFirstEdge (symbolic <$> SymbolicNfa.ofCount 3) ⟨m, []⟩ = .ok a w' := by
  have hcheck : ∃ m, Manager.new 0 1 1 = .ok m ∧
      (∃ f w, addFirstEdge blankMatrix ⟨m, []⟩ = .error f w ∧
        f = .valuesDoNotFit [2] (destBlock 1)) ∧
      ∃ a w, addFirstEdge (symbolic <$> SymbolicNfa.ofCount 3) ⟨m, []⟩ = .ok a w ∧ True := by
    decide +kernel
  obtain ⟨m, hm, ⟨f, w, hmatrix, rfl⟩, a, w', hsymbolic, -⟩ := hcheck
  exact ⟨m, w, a, w', hm, hmatrix, hsymbolic⟩

end Automaton

end SymbolicAutomata
