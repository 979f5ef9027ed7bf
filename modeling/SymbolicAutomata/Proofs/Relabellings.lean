import SymbolicAutomata.Proofs.Belonging
import SymbolicAutomata.Proofs.Growth
/-!
# Automata over other symbols

Symbol bits are made irrelevant, or get new names. Either way the letters change and the states do
not, so the edges stay among the same states.
-/
namespace SymbolicAutomata

open Manager Bdd Layout

/-- The edges on the letters that a change of assignments leads to. -/
def relabelled (g : NFA Nat Nat) (T : Assignment → Assignment → Prop) : NFA Nat Nat where
  step p c := {q | ∃ t u, T t u ∧ alphabet.read t = c ∧ q ∈ g.step p (alphabet.read u)}
  start := g.start
  accept := g.accept

/-- A change of assignments that concerns letters alone: it keeps the variables below the alphabet,
and the letter that it leads to depends on the letter only. -/
structure Lettering (T : Assignment → Assignment → Prop) : Prop where
  below : ∀ t u, T t u → ∀ v < alphabetBase, t v = u v
  letter : ∀ t u t', T t u → alphabet.read t' = alphabet.read t →
    ∃ u', T t' u' ∧ alphabet.read u' = alphabet.read u

variable {w : Workspace} {g : NFA Nat Nat} {n k : Nat} {d bits : Domain}
  {T : Assignment → Assignment → Prop} {names r : Renaming} {s t u : Assignment}

theorem Contained.relabelled (hg : Contained g n) (T : Assignment → Assignment → Prop) :
    Contained (relabelled g T) n where
  start := hg.start
  source p c q := by
    rintro ⟨t, u, -, -, hq⟩
    exact hg.source p _ q hq
  target p c q := by
    rintro ⟨t, u, -, -, hq⟩
    exact hg.target p _ q hq
  accept := hg.accept

theorem Domain.eq_of_read_eq (h : d.read s = d.read t) {v : Nat} (h1 : d.base ≤ v)
    (h2 : v < d.base + d.len) : s v = t v := by
  have hbit := congrArg (Nat.testBit · (v - d.base)) h
  simp only [Domain.testBit_read, show v - d.base < d.len by omega, decide_true, Bool.true_and,
    Nat.add_sub_cancel' h1] at hbit
  exact hbit

/-- Reading the letters that a change leads to is reading the relabelled edges. -/
theorem Lettering.edges_iff (hT : Lettering T) (hk : k ≤ 32) :
    (∃ u, T t u ∧ Edges g (Domain.reads (edgeBlocks k) u)) ↔
      Edges (relabelled g T) (Domain.reads (edgeBlocks k) t) := by
  have hsource : ∀ {t u}, T t u → (sourceBlock k).read u = (sourceBlock k).read t := fun h =>
    Domain.read_congr fun v _ hv => (hT.below _ _ h v (by
      change v < 1 + k at hv
      change v < 97
      omega)).symm
  have hdest : ∀ {t u}, T t u → (destBlock k).read u = (destBlock k).read t := fun h =>
    Domain.read_congr fun v _ hv => (hT.below _ _ h v (by
      change v < 65 + k at hv
      change v < 97
      omega)).symm
  simp only [Domain.reads, edgeBlocks, List.map_cons, List.map_nil, SymbolicAutomata.edges_iff]
  constructor
  · rintro ⟨u, hu, hq⟩
    rw [hsource hu, hdest hu] at hq
    exact ⟨t, u, hu, rfl, hq⟩
  · rintro ⟨t', u, hu, hread, hq⟩
    obtain ⟨u', hu', hletter⟩ := hT.letter t' u t hu hread.symm
    refine ⟨u', hu', ?_⟩
    rwa [hsource hu', hdest hu', hletter]

/-- Bits of the alphabet may be anything. -/
theorem lettering_agreeOff (hbase : alphabetBase ≤ d.base) : Lettering (AgreeOff d) where
  below t u h v hv := h v (by omega)
  letter t u t' h hread := by
    classical
    refine ⟨fun v => if d.base ≤ v ∧ v < d.base + d.len then u v else t' v,
      fun v hv => (if_neg hv).symm, Domain.read_congr fun v h1 h2 => ?_⟩
    split_ifs with hv
    · rfl
    · rw [Domain.eq_of_read_eq hread h1 h2, h v hv]

/-- The renaming is one of variables of the alphabet. -/
structure Renaming.OfLetters (r : Renaming) : Prop where
  below : ∀ v < alphabetBase, r.apply v = v
  within : ∀ v, alphabetBase ≤ v → v < alphabetBase + alphabet.len →
    alphabetBase ≤ r.apply v ∧ r.apply v < alphabetBase + alphabet.len

theorem lettering_pull (hr : r.OfLetters) : Lettering fun t u => u = r.pull t where
  below t u h v hv := by rw [h, Renaming.pull, hr.below v hv]
  letter t u t' h hread := by
    refine ⟨r.pull t', rfl, ?_⟩
    subst h
    refine Domain.read_congr fun v h1 h2 => ?_
    obtain ⟨h3, h4⟩ := hr.within v h1 h2
    exact Domain.eq_of_read_eq hread h3 h4

theorem Renaming.ofLetters_foldl_insert {es : List (Nat × Nat)} (hr : r.OfLetters)
    (hes : ∀ e ∈ es, alphabetBase ≤ e.1 ∧ alphabetBase ≤ e.2 ∧
      e.2 < alphabetBase + alphabet.len) : (es.foldl insert r).OfLetters := by
  induction es generalizing r with
  | nil => exact hr
  | cons e es ih =>
    refine ih ⟨fun v hv => ?_, fun v h1 h2 => ?_⟩ fun e' he' => hes e' (by simp [he'])
    · obtain ⟨hfrom, -⟩ := hes e (by simp)
      rw [apply_insert, if_neg (by omega)]
      exact hr.below v hv
    · obtain ⟨-, hto⟩ := hes e (by simp)
      rw [apply_insert]
      split_ifs
      · exact hto
      · exact hr.within v h1 h2

theorem Layout.symbols_within (h : Layout.symbols bits = .ok d) :
    alphabetBase ≤ d.base ∧ d.base + d.len ≤ alphabetBase + alphabet.len ∧ d.len = bits.len := by
  have hbase := bits.base_ne_zero
  obtain ⟨n, hstop, h⟩ := exists_of_bind_eq_ok h
  obtain ⟨-, rfl⟩ := Domain.stop_eq_ok_iff.1 hstop
  split_ifs at h with hle
  have hne : alphabetBase + bits.base - 1 ≠ 0 := by
    have : alphabetBase = 97 := rfl
    omega
  simp only [Domain.new, hne, ne_eq, not_false_eq_true, ↓reduceDIte, Except.ok.injEq] at h
  subst h
  change alphabetBase ≤ alphabetBase + bits.base - 1 ∧
    alphabetBase + bits.base - 1 + bits.len ≤ alphabetBase + maxSymbolBits ∧ _
  exact ⟨by omega, by omega, rfl⟩

namespace SymbolSet

theorem bitVar_within {bit v : Nat} (h : bitVar bit = .ok v) :
    alphabetBase ≤ v ∧ v < alphabetBase + alphabet.len := by
  obtain ⟨d, hbit, h⟩ := exists_of_bind_eq_ok h
  obtain ⟨e, hd, h⟩ := exists_of_bind_eq_ok h
  obtain rfl : e.base = v := Except.ok.inj h
  have hlen : d.len = 1 := by
    unfold Domain.new at hbit
    split_ifs at hbit
    cases hbit
    rfl
  obtain ⟨h1, h2, h3⟩ := symbols_within hd
  omega

theorem bitRenaming_ofLetters (h : bitRenaming names = .ok r) : r.OfLetters := by
  obtain ⟨es, rfl, hes⟩ := exists_of_bitRenaming h
  apply Renaming.ofLetters_foldl_insert (r := .identity)
    ⟨fun v _ => rfl, fun v h1 h2 => ⟨h1, h2⟩⟩
  intro e he
  obtain ⟨⟨a, ha⟩, b, hb⟩ := hes e he
  exact ⟨(bitVar_within ha).1, bitVar_within hb⟩

end SymbolSet

namespace SymbolicNfa

variable {a : SymbolicNfa} {p : Prop}

/-- The edges get the letters that the symbol set made of them has. -/
theorem relabel_runs (change : SymbolSet → BddM SymbolSet) (hT : Lettering T)
    (h : a.Shows w.current g)
    (hchange : Runs p w (change ⟨a.manager, a.edges.fn⟩) fun on m =>
      m.Denotes on.fn fun t => ∃ u, T t u ∧ Edges g (Domain.reads a.edges.domains u)) :
    Runs p w (do
      let labels ← change ⟨a.manager, a.edges.fn⟩
      return { a with
        edges := ← Relation.ofFn a.edges.domains labels.fn, determinism := .unknown })
      fun b m => b.stateCount = a.stateCount ∧ b.determinism = .unknown ∧
        b.Shows m (relabelled g T) := by
  apply Runs.bind hchange
  intro labels w1 hl1 hlabels
  have h1 := h.later hl1
  rw [h.edges.1] at hlabels ⊢
  have hends := (edgeBlocks_ends h.width_le).mono
    (show edgeEnd ≤ 2 ^ 31 by have := edgeEnd_le; omega)
  apply Runs.bind (Runs.weaken (Relation.ofFn_yields hl1.after (edgeBlocks_apart h.width_le) hends
    (hlabels.congr fun t => hT.edges_iff h.width_le)))
  intro edges w2 hl2 hedges
  have h2 := h1.later hl2
  exact Runs.pure hl2.after ⟨rfl, rfl, ⟨⟨h2.home, h2.states, h2.starting, h2.accepting, hedges⟩,
    h2.few⟩⟩

theorem project_runs (hw : w.current.WellFormed) (h : a.Shows w.current g) :
    Runs (∀ d, Layout.symbols bits ≠ .ok d) w (a.project bits) fun b m =>
      b.stateCount = a.stateCount ∧ b.determinism = .unknown ∧
        ∃ d, Layout.symbols bits = .ok d ∧ b.Shows m (relabelled g (AgreeOff d)) := by
  cases hd : Layout.symbols bits with
  | error e =>
    apply Runs.bind (Q := fun _ _ => False) _ fun _ _ _ hfalse => hfalse.elim
    exact Runs.lift_error hw hd (by simp)
  | ok d =>
    obtain ⟨hbase, hend, -⟩ := symbols_within hd
    have hstop : d.stop = .ok (d.base + d.len) := Domain.stop_of_le (by
      have : alphabetBase + alphabet.len = 65633 := rfl
      omega)
    apply (relabel_runs (·.project bits) (lettering_agreeOff hbase) h ?_).imp
    · exact fun b w1 _ hb => ⟨hb.1, hb.2.1, d, rfl, hb.2.2⟩
    · apply Runs.lift_bind hd
      apply Runs.bind (Runs.weaken (exist_yields hstop hw h.edges.2.denotes))
      exact fun f w1 hl1 hf => Runs.pure hl1.after hf

theorem rename_runs (hw : w.current.WellFormed) (h : a.Shows w.current g) :
    Runs (∀ r, SymbolSet.bitRenaming names ≠ .ok r) w (a.rename names) fun b m =>
      b.stateCount = a.stateCount ∧ b.determinism = .unknown ∧
        ∃ r, SymbolSet.bitRenaming names = .ok r ∧
          b.Shows m (relabelled g fun t u => u = r.pull t) := by
  cases hr : SymbolSet.bitRenaming names with
  | error e =>
    apply Runs.bind (Q := fun _ _ => False) _ fun _ _ _ hfalse => hfalse.elim
    exact Runs.lift_error hw hr (by simp)
  | ok r =>
    apply (relabel_runs (·.rename names)
      (lettering_pull (SymbolSet.bitRenaming_ofLetters hr)) h ?_).imp
    · exact fun b w1 _ hb => ⟨hb.1, hb.2.1, r, rfl, hb.2.2⟩
    · apply Runs.lift_bind hr
      apply Runs.bind (Runs.weaken (rename_yields (SymbolSet.bitRenaming_pos hr) hw
        h.edges.2.denotes))
      exact fun f w1 hl1 hf => Runs.pure hl1.after (hf.congr fun t => by simp)

end SymbolicNfa

end SymbolicAutomata
