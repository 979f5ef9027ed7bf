import SymbolicAutomata.Proofs.Decisions
import SymbolicAutomata.Proofs.RationalOperations
/-!
# Languages of star and concatenation

A letter leads from a set of states of the star to where it led before and, if one of the states
accepts, to where it leads from the starting states. The first letter of a word in a product or a
star of languages can be taken off in the same way, so the two agree by induction on the word.
-/
namespace SymbolicAutomata

open Manager Bdd Layout Computability

section Words

variable {α : Type} {l m : Language α} {c : α} {cs : List α}

theorem nil_mem_mul : [] ∈ l * m ↔ [] ∈ l ∧ [] ∈ m := by
  simp [Language.mem_mul]

theorem cons_mem_mul : c :: cs ∈ l * m ↔
    (∃ u v, cs = u ++ v ∧ c :: u ∈ l ∧ v ∈ m) ∨ [] ∈ l ∧ c :: cs ∈ m := by
  rw [Language.mem_mul]
  constructor
  · rintro ⟨u, hu, v, hv, heq⟩
    cases u with
    | nil => exact .inr ⟨hu, heq ▸ hv⟩
    | cons d u =>
      obtain ⟨rfl, rfl⟩ := List.cons.inj heq
      exact .inl ⟨u, v, rfl, hu, hv⟩
  · rintro (⟨u, v, rfl, hu, hv⟩ | ⟨hu, hv⟩)
    · exact ⟨c :: u, hu, v, hv, rfl⟩
    · exact ⟨[], hu, c :: cs, hv, rfl⟩

theorem cons_mem_kstar : c :: cs ∈ l∗ ↔ ∃ u v, cs = u ++ v ∧ c :: u ∈ l ∧ v ∈ l∗ := by
  constructor
  · intro h
    obtain ⟨us, heq, hus⟩ := Language.mem_kstar_iff_exists_nonempty.1 h
    cases us with
    | nil => simp at heq
    | cons u us =>
      obtain ⟨hu, hne⟩ := hus u (by simp)
      obtain ⟨d, u, rfl⟩ := List.exists_cons_of_ne_nil hne
      simp only [List.flatten_cons, List.cons_append, List.cons.injEq] at heq
      obtain ⟨rfl, rfl⟩ := heq
      exact ⟨u, us.flatten, rfl, hu, Language.join_mem_kstar fun v hv => (hus v (by simp [hv])).1⟩
  · rintro ⟨u, v, rfl, hu, us, rfl, hus⟩
    exact ⟨(c :: u) :: us, rfl, by simpa using ⟨hu, hus⟩⟩

end Words

variable {g g₁ g₂ : NFA Nat Nat} {S : Set Nat} {n k b p q c : Nat} {cs : List Nat}

/-- A word in the product of what two sets of states accept, by its first letter. -/
theorem cons_mem_acceptsFrom_mul {m : Language Nat} :
    c :: cs ∈ g.acceptsFrom S * m ↔
      cs ∈ g.acceptsFrom (g.stepSet S c) * m ∨ (∃ p ∈ S, p ∈ g.accept) ∧ c :: cs ∈ m := by
  rw [cons_mem_mul, NFA.nil_mem_acceptsFrom]
  simp only [NFA.cons_mem_acceptsFrom, Language.mem_mul]
  constructor
  · rintro (⟨u, v, rfl, hu, hv⟩ | h)
    · exact .inl ⟨u, hu, v, hv, rfl⟩
    · exact .inr h
  · rintro (⟨u, hu, v, hv, rfl⟩ | h)
    · exact .inl ⟨u, v, rfl, hu, hv⟩
    · exact .inr h

theorem cons_mem_accepts_kstar :
    c :: cs ∈ g.accepts∗ ↔ cs ∈ g.acceptsFrom (g.stepSet g.start c) * g.accepts∗ := by
  rw [cons_mem_kstar, NFA.accepts_eq_acceptsFrom_start]
  simp only [NFA.cons_mem_acceptsFrom, Language.mem_mul]
  constructor
  · rintro ⟨u, v, rfl, hu, hv⟩
    exact ⟨u, hu, v, hv, rfl⟩
  · rintro ⟨u, hu, v, hv, rfl⟩
    exact ⟨u, v, rfl, hu, hv⟩

/-- What is accepted from two sets together, where the second one counts under a condition. -/
theorem mem_acceptsFrom_or {P : Prop} {T : Set Nat} :
    cs ∈ g.acceptsFrom {q | q ∈ S ∨ P ∧ q ∈ T} ↔
      cs ∈ g.acceptsFrom S ∨ P ∧ cs ∈ g.acceptsFrom T := by
  by_cases hP : P
  · simp only [hP, true_and]
    exact NFA.acceptsFrom_union (M := g) (S := S) (T := T) ▸ Iff.rfl
  · simp [hP]

/-! ### Star -/

theorem stepSet_enlarge_start (hg : Contained g n) :
    (enlarge g n (n + 1) true true).stepSet (enlarge g n (n + 1) true true).start c =
      g.stepSet g.start c := by
  ext q
  simp only [NFA.mem_stepSet]
  constructor
  · rintro ⟨p, hp | ⟨-, hle, -⟩, hq⟩
    · exact ⟨p, hp, hq⟩
    · have := hg.source p c q hq
      omega
  · rintro ⟨p, hp, hq⟩
    exact ⟨p, .inl hp, hq⟩

theorem mem_starred_step (hg : Contained g n) :
    q ∈ (starred g n).step p c ↔
      q ∈ g.step p c ∨ (p ∈ g.accept ∨ p = n) ∧ q ∈ g.stepSet g.start c := by
  have hacc : p ∈ (enlarge g n (n + 1) true true).accept ↔ p ∈ g.accept ∨ p = n := by
    change p ∈ g.accept ∨ true = true ∧ n ≤ p ∧ p < n + 1 ↔ _
    simp only [true_and]
    exact or_congr_right (by omega)
  change q ∈ g.step p c ∨ p ∈ (enlarge g n (n + 1) true true).accept ∧ q ∈ _ ↔ _
  rw [hacc, stepSet_enlarge_start hg]

theorem starred_stepSet (hg : Contained g n) (hS : ∀ p ∈ S, p < n) :
    (starred g n).stepSet S c =
      {q | q ∈ g.stepSet S c ∨ (∃ p ∈ S, p ∈ g.accept) ∧ q ∈ g.stepSet g.start c} := by
  ext q
  simp only [NFA.mem_stepSet (M := starred g n), mem_starred_step hg]
  constructor
  · rintro ⟨p, hp, hq | ⟨hacc | rfl, hq⟩⟩
    · exact .inl (NFA.mem_stepSet.2 ⟨p, hp, hq⟩)
    · exact .inr ⟨⟨p, hp, hacc⟩, hq⟩
    · exact absurd (hS p hp) (Nat.lt_irrefl p)
  · rintro (hq | ⟨⟨p, hp, hacc⟩, hq⟩)
    · obtain ⟨p, hp, hq⟩ := NFA.mem_stepSet.1 hq
      exact ⟨p, hp, .inl hq⟩
    · exact ⟨p, hp, .inr ⟨.inl hacc, hq⟩⟩

theorem mem_starred_accept (hp : p < n) : p ∈ (starred g n).accept ↔ p ∈ g.accept := by
  change p ∈ g.accept ∨ true = true ∧ n ≤ p ∧ p < n + 1 ↔ _
  exact or_iff_left (by omega)

theorem Contained.stepSet_lt (hg : Contained g n) (S : Set Nat) (c : Nat) :
    ∀ p ∈ g.stepSet S c, p < n := by
  intro p hp
  obtain ⟨r, -, hr⟩ := NFA.mem_stepSet.1 hp
  exact hg.target r c p hr

/-- From states of the automaton, a word to an accepting state is followed by words of the
language. -/
theorem acceptsFrom_starred (hg : Contained g n) (hS : ∀ p ∈ S, p < n) :
    cs ∈ (starred g n).acceptsFrom S ↔ cs ∈ g.acceptsFrom S * g.accepts∗ := by
  induction cs generalizing S with
  | nil =>
    rw [nil_mem_mul, NFA.nil_mem_acceptsFrom, NFA.nil_mem_acceptsFrom]
    have hacc : ∀ p ∈ S, p ∈ (starred g n).accept ↔ p ∈ g.accept := fun p hp =>
      mem_starred_accept (hS p hp)
    simp only [Language.nil_mem_kstar, and_true]
    exact exists_congr fun p => and_congr_right (hacc p)
  | cons c cs ih =>
    rw [NFA.cons_mem_acceptsFrom, starred_stepSet hg hS, mem_acceptsFrom_or,
      ih (hg.stepSet_lt S c), ih (hg.stepSet_lt g.start c), cons_mem_acceptsFrom_mul,
      cons_mem_accepts_kstar]

theorem accepts_starred (hg : Contained g n) : (starred g n).accepts = g.accepts∗ := by
  ext cs
  change cs ∈ (starred g n).acceptsFrom {n} ↔ _
  cases cs with
  | nil =>
    have hacc : n ∈ (starred g n).accept := .inr ⟨rfl, Nat.le_refl n, Nat.lt_succ_self n⟩
    simpa [Language.nil_mem_kstar] using hacc
  | cons c cs =>
    have hstep : (starred g n).stepSet {n} c = g.stepSet g.start c := by
      ext q
      rw [NFA.stepSet_singleton, mem_starred_step hg]
      constructor
      · rintro (hq | ⟨-, hq⟩)
        · exact absurd (hg.source n c q hq) (Nat.lt_irrefl n)
        · exact hq
      · exact fun hq => .inr ⟨.inr rfl, hq⟩
    rw [NFA.cons_mem_acceptsFrom, hstep, acceptsFrom_starred hg (hg.stepSet_lt g.start c),
      cons_mem_accepts_kstar]

/-! ### Concatenation -/

/-- The numbers whose bits from `k` on are those of `b` and whose other bits are in the set. -/
def tints (k b : Nat) (S : Set Nat) : Set Nat := {p | p / 2 ^ k = b ∧ p % 2 ^ k ∈ S}

theorem exists_tinted (b : Nat) (hp : p < 2 ^ k) : ∃ v, v / 2 ^ k = b ∧ v % 2 ^ k = p := by
  refine ⟨b * 2 ^ k + p, ?_, ?_⟩
  · rw [Nat.add_comm, Nat.add_mul_div_right _ _ (Nat.two_pow_pos k), Nat.div_eq_of_lt hp,
      Nat.zero_add]
  · rw [Nat.add_comm, Nat.add_mul_mod_self_right, Nat.mod_eq_of_lt hp]

theorem exists_tints {P : Nat → Prop} (hP : ∀ p, P p → p < 2 ^ k) :
    (∃ v ∈ tints k b S, P (v % 2 ^ k)) ↔ ∃ p ∈ S, P p := by
  constructor
  · rintro ⟨v, hv, hp⟩
    exact ⟨v % 2 ^ k, hv.2, hp⟩
  · rintro ⟨p, hp, hPp⟩
    obtain ⟨v, hdiv, rfl⟩ := exists_tinted b (hP p hPp)
    exact ⟨v, ⟨hdiv, hp⟩, hPp⟩

theorem tinted_stepSet (hg : Bounded g (2 ^ k)) :
    (tinted g k b).stepSet (tints k b S) c = tints k b (g.stepSet S c) := by
  ext q
  change _ ↔ q / 2 ^ k = b ∧ q % 2 ^ k ∈ g.stepSet S c
  rw [NFA.mem_stepSet, NFA.mem_stepSet, ← exists_tints (b := b) fun p hp => hg.source p c _ hp]
  constructor
  · rintro ⟨p, hp, -, hq, hstep⟩
    exact ⟨hq, p, hp, hstep⟩
  · rintro ⟨hq, p, hp, hstep⟩
    exact ⟨p, hp, hp.1, hq, hstep⟩

/-- From the upper half a word goes as in the second automaton. -/
theorem chained_stepSet_high (hg₂ : Bounded g₂ (2 ^ k)) :
    (chained g₁ g₂ k).stepSet (tints k 1 S) c = tints k 1 (g₂.stepSet S c) := by
  rw [← tinted_stepSet hg₂]
  ext q
  simp only [NFA.mem_stepSet]
  constructor
  · rintro ⟨p, hp, (⟨hlow, -⟩ | hq) | ⟨⟨hlow, -⟩, -⟩⟩
    · exact absurd (hp.1.symm.trans hlow) (by decide)
    · exact ⟨p, hp, hq⟩
    · exact absurd (hp.1.symm.trans hlow) (by decide)
  · rintro ⟨p, hp, hq⟩
    exact ⟨p, hp, .inl (.inr hq)⟩

/-- From the lower half a word goes as in the first automaton, and over the bridge from its
accepting states. -/
theorem chained_stepSet_low (hg₁ : Contained g₁ (2 ^ k)) (hg₂ : Bounded g₂ (2 ^ k)) :
    (chained g₁ g₂ k).stepSet (tints k 0 S) c = {q | q ∈ tints k 0 (g₁.stepSet S c) ∨
      (∃ p ∈ S, p ∈ g₁.accept) ∧ q ∈ tints k 1 (g₂.stepSet g₂.start c)} := by
  rw [← tinted_stepSet hg₁.toBounded, ← tinted_stepSet hg₂,
    ← exists_tints (b := 0) hg₁.accept]
  ext q
  simp only [NFA.mem_stepSet (M := chained g₁ g₂ k)]
  constructor
  · rintro ⟨p, hp, (hq | ⟨hhigh, -⟩) | ⟨hacc, hq⟩⟩
    · exact .inl (NFA.mem_stepSet.2 ⟨p, hp, hq⟩)
    · exact absurd (hp.1.symm.trans hhigh) (by decide)
    · exact .inr ⟨⟨p, hp, hacc.2⟩, hq⟩
  · rintro (hq | ⟨⟨p, hp, hacc⟩, hq⟩)
    · obtain ⟨p, hp, hq⟩ := NFA.mem_stepSet.1 hq
      exact ⟨p, hp, .inl (.inl hq)⟩
    · exact ⟨p, hp, .inr ⟨⟨hp.1, hacc⟩, hq⟩⟩

theorem acceptsFrom_chained_high (hg₂ : Contained g₂ (2 ^ k)) :
    cs ∈ (chained g₁ g₂ k).acceptsFrom (tints k 1 S) ↔ cs ∈ g₂.acceptsFrom S := by
  induction cs generalizing S with
  | nil =>
    rw [NFA.nil_mem_acceptsFrom, NFA.nil_mem_acceptsFrom,
      ← exists_tints (b := 1) hg₂.accept]
    constructor
    · rintro ⟨p, hp, ⟨-, hacc⟩ | ⟨-, hlow, -⟩⟩
      · exact ⟨p, hp, hacc⟩
      · exact absurd (hp.1.symm.trans hlow) (by decide)
    · rintro ⟨p, hp, hacc⟩
      exact ⟨p, hp, .inl ⟨hp.1, hacc⟩⟩
  | cons c cs ih =>
    rw [NFA.cons_mem_acceptsFrom, NFA.cons_mem_acceptsFrom, chained_stepSet_high hg₂.toBounded, ih]

theorem acceptsFrom_chained_low (hg₁ : Contained g₁ (2 ^ k)) (hg₂ : Contained g₂ (2 ^ k)) :
    cs ∈ (chained g₁ g₂ k).acceptsFrom (tints k 0 S) ↔ cs ∈ g₁.acceptsFrom S * g₂.accepts := by
  induction cs generalizing S with
  | nil =>
    rw [nil_mem_mul, NFA.accepts_eq_acceptsFrom_start, NFA.nil_mem_acceptsFrom,
      NFA.nil_mem_acceptsFrom, NFA.nil_mem_acceptsFrom, ← exists_tints (b := 0) hg₁.accept]
    constructor
    · rintro ⟨p, hp, ⟨hhigh, -⟩ | ⟨hempty, -, hacc⟩⟩
      · exact absurd (hp.1.symm.trans hhigh) (by decide)
      · exact ⟨⟨p, hp, hacc⟩, hempty⟩
    · rintro ⟨⟨p, hp, hacc⟩, hempty⟩
      exact ⟨p, hp, .inr ⟨hempty, hp.1, hacc⟩⟩
  | cons c cs ih =>
    rw [NFA.cons_mem_acceptsFrom, chained_stepSet_low hg₁ hg₂.toBounded, mem_acceptsFrom_or, ih,
      acceptsFrom_chained_high hg₂, cons_mem_acceptsFrom_mul, NFA.accepts_eq_acceptsFrom_start,
      NFA.cons_mem_acceptsFrom]

theorem accepts_chained (hg₁ : Contained g₁ (2 ^ k)) (hg₂ : Contained g₂ (2 ^ k)) :
    (chained g₁ g₂ k).accepts = g₁.accepts * g₂.accepts := by
  ext cs
  exact acceptsFrom_chained_low hg₁ hg₂

/-! ### Words of letters -/

theorem Word.codes_mem_mul {l m : Language Nat} {u : Word} :
    u.codes ∈ l * m ↔ ∃ v v' : Word, u = v ++ v' ∧ v.codes ∈ l ∧ v'.codes ∈ m := by
  rw [Language.mem_mul]
  constructor
  · rintro ⟨x, hx, y, hy, heq⟩
    obtain ⟨v, v', rfl, rfl, rfl⟩ := List.map_eq_append_iff.1 heq.symm
    exact ⟨v, v', rfl, hx, hy⟩
  · rintro ⟨v, v', rfl, hv, hv'⟩
    exact ⟨v.codes, hv, v'.codes, hv', List.map_append.symm⟩

theorem Word.codes_mem_kstar {l : Language Nat} {u : Word} :
    u.codes ∈ l∗ ↔ ∃ us : List Word, u = us.flatten ∧ ∀ v ∈ us, v.codes ∈ l := by
  constructor
  · rintro ⟨xs, heq, hxs⟩
    induction xs generalizing u with
    | nil => exact ⟨[], List.map_eq_nil_iff.1 heq, by simp⟩
    | cons x xs ih =>
      obtain ⟨v, v', rfl, rfl, hrest⟩ := List.map_eq_append_iff.1 heq
      obtain ⟨us, rfl, hus⟩ := ih hrest fun y hy => hxs y (by simp [hy])
      exact ⟨v :: us, rfl, List.forall_mem_cons.2 ⟨hxs _ (List.mem_cons_self ..), hus⟩⟩
  · rintro ⟨us, rfl, hus⟩
    exact ⟨us.map Word.codes, List.map_flatten, by simpa using hus⟩

namespace SymbolicNfa

variable {w : Workspace} {a b : SymbolicNfa}

theorem star_yields (hw : w.current.WellFormed) (h : a.Shows w.current g)
    (hg : Contained g a.stateCount) (hn : a.stateCount + 1 < 2 ^ 32) :
    Yields w a.star fun b m => b.determinism = .unknown ∧ ∃ g', b.Shows m g' ∧
      Contained g' b.stateCount ∧ ∀ cs, Lettered cs → (cs ∈ g'.accepts ↔ cs ∈ g.accepts∗) := by
  apply (star_shows hw h hg hn).imp
  intro b w' _ hb
  obtain ⟨hflag, vs, -, hvs, hcount, hb⟩ := hb
  refine ⟨hflag, _, hb, hcount ▸ renumber_contained _ vs, fun cs hcs => ?_⟩
  rw [accepts_renumber (fun v => (hvs v).2) hcs, accepts_starred hg]

theorem concat_yields (hw : w.current.WellFormed) (ha : a.Shows w.current g₁)
    (hb : b.Shows w.current g₂) (hg₁ : Contained g₁ a.stateCount)
    (hg₂ : Contained g₂ b.stateCount) (hbits : max a.width b.width + 1 ≤ 32)
    (hcount : 2 ^ max a.width b.width + b.stateCount < 2 ^ 32) :
    Yields w (a.concat b) fun c m => c.determinism = .unknown ∧ ∃ g', c.Shows m g' ∧
      Contained g' c.stateCount ∧
      ∀ cs, Lettered cs → (cs ∈ g'.accepts ↔ cs ∈ g₁.accepts * g₂.accepts) := by
  by_cases hnone : a.stateCount = 0 ∨ b.stateCount = 0
  · rw [concat, if_pos hnone]
    apply (ofCount_yields hw (Nat.two_pow_pos 32)).imp
    intro c w' _ hc
    obtain ⟨-, hflag, hc⟩ := hc
    refine ⟨hflag, bare, hc, bare_contained _, fun cs _ => ?_⟩
    rw [Language.mem_mul]
    constructor
    · rintro ⟨q, hq, -⟩
      exact hq.elim
    · rintro ⟨x, ⟨p, hp, -⟩, y, ⟨q, hq, -⟩, -⟩
      have := hg₁.accept p hp
      have := hg₂.accept q hq
      omega
  · obtain ⟨hapos, hbpos⟩ := not_or.1 hnone
    have hga : a.stateCount ≤ 2 ^ max a.width b.width := a.count_le_two_pow_width.trans
      (Nat.pow_le_pow_right (by decide) (Nat.le_max_left _ _))
    have hgb : b.stateCount ≤ 2 ^ max a.width b.width := b.count_le_two_pow_width.trans
      (Nat.pow_le_pow_right (by decide) (Nat.le_max_right _ _))
    apply (concat_shows hw ha hb hg₁ hg₂ (Nat.pos_of_ne_zero hapos) (Nat.pos_of_ne_zero hbpos) rfl
      hbits hcount).imp
    intro c w' _ hc
    obtain ⟨hflag, vs, -, hvs, hlen, hc⟩ := hc
    refine ⟨hflag, _, hc, hlen ▸ renumber_contained _ vs, fun cs hcs => ?_⟩
    rw [accepts_renumber (fun v => (hvs v).2) hcs, accepts_chained (hg₁.mono hga) (hg₂.mono hgb)]

/-- The star accepts the words that are put together from accepted words. -/
theorem star_accepts (hw : w.current.WellFormed) (ha : a.WellFormed w.current)
    (hn : a.stateCount + 1 < 2 ^ 32) :
    ∃ b w', a.star w = .ok b w' ∧ w.Leads w' ∧ b.WellFormed w'.current ∧
      ∀ u, b.Accepts w'.current u ↔
        ∃ us : List Word, u = us.flatten ∧ ∀ v ∈ us, a.Accepts w.current v := by
  obtain ⟨g, h, hg⟩ := ha.shown
  obtain ⟨b, w', hrun, hl, hflag, g', hb, hg', hlang⟩ := yields_iff.1 (star_yields hw h hg hn)
  refine ⟨b, w', hrun, hl, ⟨⟨g', hb, hg'⟩, honest_of_unknown hflag⟩, fun u => ?_⟩
  rw [hb.accepts_iff hl.after.canonical hg'.toBounded, hlang u.codes u.lettered_codes,
    Word.codes_mem_kstar]
  simp only [h.accepts_iff hw.canonical hg.toBounded]

/-- Every word is put together from its letters. -/
theorem star_accepts_ofSymbols : ∃ m a w b w', Manager.new 0 1 1 = .ok m ∧
    ofSymbols (.universal 0) ⟨m, []⟩ = .ok a w ∧ a.star w = .ok b w' ∧
    ∀ u, b.Accepts w'.current u := by
  obtain ⟨m, hm⟩ : ∃ m, Manager.new 0 1 1 = .ok m := ⟨_, rfl⟩
  obtain ⟨a, w, ha, hl, hcount, hshows, hcontained, hwell⟩ := ofSymbols_wellFormed hm
  obtain ⟨b, w', hrun, -, -, haccepts⟩ :=
    star_accepts hl.after hwell (by rw [hcount]; decide)
  refine ⟨m, a, w, b, w', hm, ha, hrun, fun u => (haccepts u).2 ⟨u.map fun x => [x], ?_, ?_⟩⟩
  · induction u with
    | nil => rfl
    | cons x u ih => simpa using ih
  · intro v hv
    obtain ⟨x, -, rfl⟩ := List.mem_map.1 hv
    exact (hshows.accepts_iff hl.after.canonical hcontained.toBounded).2
      (oneLetter_accepts trivial)

/-- The concatenation accepts a word of the first language followed by one of the second. -/
theorem concat_accepts (hw : w.current.WellFormed) (ha : a.WellFormed w.current)
    (hb : b.WellFormed w.current) (hbits : max a.width b.width + 1 ≤ 32)
    (hcount : 2 ^ max a.width b.width + b.stateCount < 2 ^ 32) :
    ∃ c w', a.concat b w = .ok c w' ∧ w.Leads w' ∧ c.WellFormed w'.current ∧
      ∀ u, c.Accepts w'.current u ↔
        ∃ v v', u = v ++ v' ∧ a.Accepts w.current v ∧ b.Accepts w.current v' := by
  obtain ⟨g₁, h₁, hg₁⟩ := ha.shown
  obtain ⟨g₂, h₂, hg₂⟩ := hb.shown
  obtain ⟨c, w', hrun, hl, hflag, g', hc, hg', hlang⟩ :=
    yields_iff.1 (concat_yields hw h₁ h₂ hg₁ hg₂ hbits hcount)
  refine ⟨c, w', hrun, hl, ⟨⟨g', hc, hg'⟩, honest_of_unknown hflag⟩, fun u => ?_⟩
  rw [hc.accepts_iff hl.after.canonical hg'.toBounded, hlang u.codes u.lettered_codes,
    Word.codes_mem_mul]
  simp only [h₁.accepts_iff hw.canonical hg₁.toBounded, h₂.accepts_iff hw.canonical hg₂.toBounded]

/-- The words of two letters. -/
theorem concat_accepts_ofSymbols : ∃ m a w c w', Manager.new 0 1 1 = .ok m ∧
    ofSymbols (.universal 0) ⟨m, []⟩ = .ok a w ∧ a.concat a w = .ok c w' ∧
    (∀ x y, c.Accepts w'.current [x, y]) ∧ ¬ c.Accepts w'.current [] := by
  obtain ⟨m, hm⟩ : ∃ m, Manager.new 0 1 1 = .ok m := ⟨_, rfl⟩
  obtain ⟨a, w, ha, hl, hcount, hshows, hcontained, hwell⟩ := ofSymbols_wellFormed hm
  have hwidth : a.width = 1 := by rw [width, hcount]; rfl
  have hiff (u : Word) := hshows.accepts_iff (u := u) hl.after.canonical hcontained.toBounded
  obtain ⟨c, w', hrun, -, -, haccepts⟩ := concat_accepts hl.after hwell hwell
    (by rw [hwidth]; decide) (by rw [hwidth, hcount]; decide)
  refine ⟨m, a, w, c, w', hm, ha, hrun, fun x y => ?_, fun hnil => ?_⟩
  · exact (haccepts _).2 ⟨[x], [y], rfl, (hiff _).2 (oneLetter_accepts trivial),
      (hiff _).2 (oneLetter_accepts trivial)⟩
  · obtain ⟨v, v', heq, hv, -⟩ := (haccepts _).1 hnil
    obtain ⟨rfl, -⟩ := List.append_eq_nil_iff.1 heq.symm
    exact not_oneLetter_accepts_nil ((hiff []).1 hv)

end SymbolicNfa

end SymbolicAutomata
