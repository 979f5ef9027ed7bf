import SymbolicAutomata.ValueSet
import SymbolicAutomata.Proofs.Numbers
import Mathlib.Data.Finset.Powerset
import Mathlib.Data.Finset.Card
import Mathlib.Order.Interval.Finset.Nat
/-!
# Counting and listing the numbers of a set

The count of a node is half the counts of its children, each of which leaves the node's variable
free. A listing follows the variables of the domain from the lowest bit up.
-/
namespace SymbolicAutomata

namespace Manager

variable {m : Manager} {f : Ref} {V : Finset Nat} {n : Node}

/-- The value of `f` depends on the given variables only. -/
def DependsOn (m : Manager) (f : Ref) (V : Finset Nat) : Prop :=
  ∀ s t : Assignment, (∀ v ∈ V, s v = t v) → m.eval f s = m.eval f t

def truth (T : Finset Nat) : Assignment := fun v => decide (v ∈ T)

def models (m : Manager) (V : Finset Nat) (f : Ref) : Finset (Finset Nat) :=
  V.powerset.filter fun T => m.eval f (truth T) = true

theorem card_models_neg (h : m.Canonical) (hf : m.Has f) :
    (m.models V (-f)).card = 2 ^ V.card - (m.models V f).card := by
  have hsplit := Finset.card_filter_add_card_filter_not (s := V.powerset)
    fun T => m.eval f (truth T) = true
  have hneg : m.models V (-f) = V.powerset.filter fun T => ¬ m.eval f (truth T) = true := by
    apply Finset.filter_congr
    intro T _
    rw [h.eval_neg hf]
    simp
  rw [Finset.card_powerset] at hsplit
  rw [hneg, models]
  omega

theorem has_regular : m.Has f.regular ↔ m.Has f := by
  rw [← has_negIf (b := f.negated), regular_negIf]

/-- The models of a function are those of its regular form or all the others. -/
theorem card_models_regular (h : m.Canonical) (hf : m.Has f) :
    (m.models V f).card = if f.negated then 2 ^ V.card - (m.models V f.regular).card
      else (m.models V f.regular).card := by
  have hneg := card_models_neg (V := V) h (has_regular.2 hf)
  conv_lhs => rw [← regular_negIf f]
  cases f.negated with
  | false => rfl
  | true => exact hneg

theorem card_filter_powerset_insert {x : Nat} {W : Finset Nat} (hx : x ∉ W)
    (p : Finset Nat → Prop) [DecidablePred p] :
    ((insert x W).powerset.filter p).card = (W.powerset.filter p).card +
      (W.powerset.filter fun T => p (insert x T)).card := by
  have hnot : ∀ T ∈ W.powerset, x ∉ T := fun T hT hxT => hx (Finset.mem_powerset.1 hT hxT)
  rw [Finset.powerset_insert, Finset.filter_union, Finset.card_union_of_disjoint]
  · congr 1
    rw [Finset.filter_image, Finset.card_image_of_injOn]
    intro T hT U hU heq
    have hT := hnot T (Finset.mem_of_mem_filter T hT)
    have hU := hnot U (Finset.mem_of_mem_filter U hU)
    rw [← Finset.erase_insert hT, ← Finset.erase_insert hU]
    exact congrArg (Finset.erase · x) heq
  · rw [Finset.disjoint_left]
    intro T hT hT'
    obtain ⟨U, hU, rfl⟩ := Finset.mem_image.1 (Finset.mem_of_mem_filter T hT')
    exact hnot _ (Finset.mem_of_mem_filter _ hT) (Finset.mem_insert_self x U)

/-- A function that does not depend on a variable has its models in pairs. -/
theorem card_models_insert_free (h : m.Canonical) (hf : m.Has f) {x : Nat} {W : Finset Nat}
    (hx : x ∉ W) (ha : m.Above x f) :
    (m.models (insert x W) f).card = 2 * (m.models W f).card := by
  rw [models, card_filter_powerset_insert hx, Nat.two_mul]
  congr 2
  apply Finset.filter_congr
  intro T hT
  rw [h.eval_congr hf ha]
  intro v hv
  have hne : v ≠ x := by omega
  simp [truth, hne]

theorem DependsOn.var_mem (hd : m.DependsOn f V) (h : m.Canonical) (hn : m.Stores f.index n) :
    n.var ∈ V := by
  by_contra hV
  have ho := h.orderly _ n hn
  refine ho.differ (h.eq_of_eval_eq ho.low ho.high fun s => ?_)
  have hsame := hd (Function.update s n.var false) (Function.update s n.var true) fun v hv => by
    have hne : v ≠ n.var := fun he => hV (he ▸ hv)
    rw [Function.update_of_ne hne, Function.update_of_ne hne]
  rw [h.eval_low hn, h.eval_high hn, hsame]

theorem DependsOn.side (hd : m.DependsOn f V) (h : m.Canonical) (hn : m.Stores f.index n)
    (b : Bool) : m.DependsOn (n.side b) V := by
  intro s t hst
  have hupdate : m.eval f (Function.update s n.var b) = m.eval f (Function.update t n.var b) := by
    apply hd
    intro v hv
    simp only [Function.update_apply]
    split_ifs
    · rfl
    · exact hst v hv
  cases b
  · simp only [Node.side, Bool.false_eq_true, ↓reduceIte, h.eval_low hn, hupdate]
  · simp only [Node.side, ↓reduceIte, h.eval_high hn, hupdate]

theorem DependsOn.regular (hd : m.DependsOn f V) (h : m.Canonical) (hf : m.Has f) :
    m.DependsOn f.regular V := by
  intro s t hst
  have hreg := has_regular.2 hf
  have hs := hd s t hst
  rw [← regular_negIf f, h.eval_negIf hreg, h.eval_negIf hreg] at hs
  simpa using hs

/-- The models of a node come in equal parts from those of its children. -/
theorem card_models_node (h : m.Canonical) (hn : m.Stores f.index n) (hreg : f.negated = false)
    (hV : n.var ∈ V) :
    2 * (m.models V f).card = (m.models V n.low).card + (m.models V n.high).card := by
  have ho := h.orderly _ n hn
  have hx := Finset.notMem_erase n.var V
  have hlow := card_models_insert_free h ho.low hx ho.low_above
  have hhigh := card_models_insert_free h ho.high hx ho.high_above
  have hnode : (m.models (insert n.var (V.erase n.var)) f).card =
      (m.models (V.erase n.var) n.low).card + (m.models (V.erase n.var) n.high).card := by
    rw [models, card_filter_powerset_insert hx]
    congr 2
    · apply Finset.filter_congr
      intro T hT
      have hfalse : truth T n.var = false := by
        simpa [truth] using fun hxT => hx (Finset.mem_powerset.1 hT hxT)
      rw [h.eval_node hn, hfalse, hreg]
      simp
    · apply Finset.filter_congr
      intro T hT
      have htrue : truth (insert n.var T) n.var = true := by simp [truth]
      rw [h.eval_node hn, htrue, hreg]
      simp only [Bool.false_bne, ↓reduceIte]
      rw [h.eval_congr ho.high ho.high_above]
      intro v hv
      have hne : v ≠ n.var := by omega
      simp [truth, hne]
  rw [Finset.insert_erase hV] at hlow hhigh hnode
  omega

def Counted (m : Manager) (V : Finset Nat) (memo : Std.TreeMap Ref Nat) : Prop :=
  ∀ f n, memo[f]? = some n → n = (m.models V f).card

theorem Counted.insert {memo : Std.TreeMap Ref Nat} (h : m.Counted V memo) (f : Ref) :
    m.Counted V (memo.insert f (m.models V f).card) := by
  intro g k hk
  rw [Std.TreeMap.getElem?_insert] at hk
  split_ifs at hk with heq
  · obtain rfl := Std.LawfulEqOrd.eq_of_compare heq
    exact (Option.some.inj hk).symm
  · exact h g k hk

theorem models_zero (h : m.Canonical) : m.models V .zero = ∅ := by simp [models, h.eval_zero]

theorem card_models_one (h : m.Canonical) : (m.models V .one).card = 2 ^ V.card := by
  simp [models, h.eval_one]

theorem countFrom_spec (h : m.Canonical) {fuel : Nat} {memo : Std.TreeMap Ref Nat}
    (hf : m.Has f) (hd : m.DependsOn f V) (hfuel : f.index < fuel) (hmemo : m.Counted V memo) :
    ∃ memo', m.countFrom (2 ^ V.card) fuel f memo = .ok ((m.models V f).card, memo') ∧
      m.Counted V memo' := by
  induction fuel generalizing f memo with
  | zero => omega
  | succ fuel ih =>
    unfold countFrom
    by_cases hzero : f = .zero
    · subst hzero
      exact ⟨memo, by simp [models_zero h, pure, Except.pure], hmemo⟩
    by_cases hone : f = .one
    · subst hone
      exact ⟨memo, by simp [card_models_one h, hzero, pure, Except.pure], hmemo⟩
    simp only [hzero, hone, ↓reduceIte]
    cases hfind : memo[f]? with
    | some k =>
      obtain rfl := hmemo f k hfind
      exact ⟨memo, rfl, hmemo⟩
    | none =>
      obtain ⟨n, hn⟩ := (h.cases hf).resolve_left fun h1 => by
        rcases eq_one_or_zero h1 with rfl | rfl
        · exact hone rfl
        · exact hzero rfl
      have hindex : f.regular.index = f.index := Ref.of_index _ _
      have hreg : f.regular.negated = false := Ref.of_negated _ _
      have hn' : m.Stores f.regular.index n := by rwa [hindex]
      have ho := h.orderly _ n hn
      have hd' := hd.regular h hf
      obtain ⟨memo1, h1, hm1⟩ := ih ho.low (hd'.side h hn' false)
        (by have := ho.low_lt; omega) hmemo
      obtain ⟨memo2, h2, hm2⟩ := ih ho.high (hd'.side h hn' true)
        (by have := ho.high_lt; omega) hm1
      have hhalf := card_models_node h hn' hreg (hd'.var_mem h hn')
      have hcount : (if f.negated then 2 ^ V.card -
          ((m.models V n.low).card + (m.models V n.high).card) / 2
          else ((m.models V n.low).card + (m.models V n.high).card) / 2) =
            (m.models V f).card := by
        have heq : ((m.models V n.low).card + (m.models V n.high).card) / 2 =
            (m.models V f.regular).card := by omega
        rw [heq, card_models_regular h hf]
      have hlow : m.low f.regular = .ok n.low := by rw [hn'.low, hreg]; rfl
      have hhigh : m.high f.regular = .ok n.high := by rw [hn'.high, hreg]; rfl
      refine ⟨memo2.insert f (m.models V f).card, ?_, hm2.insert f⟩
      rw [hlow, hhigh]
      change (m.countFrom _ fuel n.low memo >>= fun p => m.countFrom _ fuel n.high p.2 >>= _) = _
      rw [h1]
      change (m.countFrom _ fuel n.high memo1 >>= _) = _
      rw [h2]
      change Except.ok _ = Except.ok _
      simp only [hcount]

/-- The count is the number of models over the counted variables. -/
theorem count_eq (h : m.Canonical) (hf : m.Has f) (hd : m.DependsOn f V) :
    m.count f V.card = .ok (m.models V f).card := by
  have hnone : m.Counted V ∅ := fun g k hk => by simp at hk
  obtain ⟨memo, hc, -⟩ := countFrom_spec h hf hd hf.lt_depthBound hnone
  rw [count]
  change (m.countFrom (2 ^ V.card) _ f ∅ >>= _) = _
  rw [hc]
  rfl

end Manager

namespace Domain

variable {d : Domain} {m : Manager} {f : Ref} {P : Nat → Prop}

def span (d : Domain) : Finset Nat := Finset.Ico d.base (d.base + d.len)

theorem dependsOn (hf : m.Denotes f fun s => P (d.read s)) : m.DependsOn f d.span := by
  intro s t hst
  have hread : d.read s = d.read t :=
    read_congr fun v h1 h2 => hst v (Finset.mem_Ico.2 ⟨h1, h2⟩)
  rw [Bool.eq_iff_iff, hf.holds, hf.holds, hread]

/-- Sets of true variables are numbers. -/
theorem card_models [DecidablePred P] (hf : m.Denotes f fun s => P (d.read s)) :
    (m.models d.span f).card = ((Finset.range (2 ^ d.len)).filter P).card := by
  let bits (v : Nat) : Finset Nat := d.span.filter fun x => v.testBit (x - d.base)
  have htruth : ∀ v, v < 2 ^ d.len → d.read (Manager.truth (bits v)) = v := by
    intro v hv
    rw [read_eq_iff hv]
    intro i hi
    simp [bits, Manager.truth, span, hi]
  refine Finset.card_bij' (fun T _ => d.read (Manager.truth T)) (fun v _ => bits v) ?_ ?_ ?_ ?_
  · intro T hT
    obtain ⟨-, hT⟩ := Finset.mem_filter.1 hT
    exact Finset.mem_filter.2 ⟨Finset.mem_range.2 (d.read_lt _), (hf.holds _).1 hT⟩
  · intro v hv
    obtain ⟨hlt, hP⟩ := Finset.mem_filter.1 hv
    refine Finset.mem_filter.2 ⟨Finset.mem_powerset.2 (Finset.filter_subset _ _), ?_⟩
    rw [hf.holds, htruth v (Finset.mem_range.1 hlt)]
    exact hP
  · intro T hT
    have hsub := Finset.mem_powerset.1 (Finset.mem_of_mem_filter T hT)
    ext x
    simp only [bits, Finset.mem_filter]
    constructor
    · rintro ⟨hx, hbit⟩
      obtain ⟨h1, h2⟩ := Finset.mem_Ico.1 hx
      rw [testBit_read, Bool.and_eq_true] at hbit
      have hback : d.base + (x - d.base) = x := by omega
      simpa [Manager.truth, hback] using hbit.2
    · intro hx
      obtain ⟨h1, h2⟩ := Finset.mem_Ico.1 (hsub hx)
      refine ⟨hsub hx, ?_⟩
      have hback : d.base + (x - d.base) = x := by omega
      have hi : x - d.base < d.len := by omega
      rw [testBit_read, hback]
      simp [Manager.truth, hx, hi]
  · intro v hv
    exact htruth v (Finset.mem_range.1 (Finset.mem_of_mem_filter v hv))

end Domain

namespace ValueSet

open Manager

variable {m : Manager} {d : Domain} {f : Ref}

/-- The number in `rest` variables from `v` on, lowest bit first. -/
def readFrom (v rest : Nat) (s : Assignment) : Nat := Nat.ofBits fun i : Fin rest => s (v + i)

theorem readFrom_succ (v rest : Nat) (s : Assignment) :
    readFrom v (rest + 1) s = 2 * readFrom (v + 1) rest s + (s v).toNat := by
  unfold readFrom
  rw [Nat.ofBits_succ]
  congr 3
  funext i
  simp only [Function.comp, Fin.val_succ]
  congr 1
  omega

theorem readFrom_congr {v rest : Nat} {s t : Assignment} (h : ∀ w, v ≤ w → s w = t w) :
    readFrom v rest s = readFrom v rest t := by
  unfold readFrom
  congr 1
  funext i
  exact h _ (Nat.le_add_right _ _)

theorem or_two_pow {found bit : Nat} (h : found < 2 ^ bit) :
    found ||| Nat.pow 2 bit = found + 2 ^ bit := by
  have hadd := Nat.two_pow_add_eq_or_of_lt h 1
  rw [Nat.mul_one] at hadd
  rw [Nat.or_comm, Nat.add_comm]
  exact hadd.symm

/-- The bit of a variable comes before those of the later ones. -/
theorem found_step {found bit v rest : Nat} (hfound : found < 2 ^ bit) (s : Assignment) :
    found + 2 ^ bit * readFrom v (rest + 1) s =
      (if s v then found ||| Nat.pow 2 bit else found) +
        2 ^ (bit + 1) * readFrom (v + 1) rest s := by
  have hpow : 2 ^ (bit + 1) = 2 * 2 ^ bit := by rw [Nat.pow_succ, Nat.mul_comm]
  rw [readFrom_succ, or_two_pow hfound, hpow, Nat.mul_add, Nat.mul_comm 2 (2 ^ bit), Nat.mul_assoc]
  cases s v <;> simp
  omega

theorem exists_of_cofactor {v : Nat} (h : m.Canonical) (hf : m.Has f) (hv : 0 < v)
    (ha : m.rootVar f = 0 ∨ v ≤ m.rootVar f) {b : Bool} {s : Assignment}
    (hs : m.eval (m.cofactor v b f) s = true) :
    ∃ t, m.eval f t = true ∧ t v = b ∧ ∀ w, v < w → t w = s w := by
  have hlater : ∀ w, v < w → Function.update s v b w = s w := fun w hw =>
    Function.update_of_ne (by omega) _ _
  refine ⟨Function.update s v b, ?_, Function.update_self _ _ _, hlater⟩
  rw [h.eval_cofactor hf hv, Function.update_self, ← hs]
  exact h.eval_congr (h.has_cofactor hf hv b) (h.above_cofactor hf hv b ha) hlater

/-- The listing follows the bits from the given one on. Without further bits, what is not constant
zero can be satisfied. -/
theorem collect_spec (h : m.Canonical) (hend : d.base + d.len ≤ 2 ^ 32) (hlen : d.len ≤ 64)
    {rest bit found : Nat} (hsum : bit + rest = d.len) (hfound : found < 2 ^ bit)
    (hf : m.Has f) (ha : m.rootVar f = 0 ∨ d.base + bit ≤ m.rootVar f) :
    ∃ xs, collect m d rest bit f found = .ok xs ∧
      ∀ v, v ∈ xs ↔ ∃ s, m.eval f s = true ∧
        v = found + 2 ^ bit * readFrom (d.base + bit) rest s := by
  have hbase := d.base_ne_zero
  induction rest generalizing bit f found with
  | zero =>
    refine ⟨_, rfl, fun v => ?_⟩
    by_cases hzero : f = .zero
    · simp [hzero, h.eval_zero]
    · have hsat := mt ((denotes_eval hf).eq_zero_iff h).2 hzero
      obtain ⟨s, hs⟩ := not_forall_not.1 hsat
      simp only [hzero, ↓reduceIte, List.mem_singleton, readFrom, Nat.ofBits_zero, Nat.mul_zero,
        Nat.add_zero]
      exact ⟨fun hv => ⟨s, hs, hv⟩, fun ⟨_, _, hv⟩ => hv⟩
  | succ rest ih =>
    unfold collect
    by_cases hzero : f = .zero
    · exact ⟨[], by simp [hzero, pure, Except.pure], by simp [hzero, h.eval_zero]⟩
    have hpos : 0 < d.base + bit := by omega
    have hbit : d.bit bit = .ok (d.base + bit) := Domain.bit_eq hend (by omega)
    have hcof := h.cofactors_eq hf hpos ha
    have hstep : ∀ b, m.rootVar (m.cofactor (d.base + bit) b f) = 0 ∨
        d.base + (bit + 1) ≤ m.rootVar (m.cofactor (d.base + bit) b f) := fun b => by
      have := (h.above_iff (h.has_cofactor hf hpos b)).1 (h.above_cofactor hf hpos b ha)
      omega
    have hnext : bit + 1 + rest = d.len := by omega
    have hpow : 2 ^ (bit + 1) = 2 * 2 ^ bit := by rw [Nat.pow_succ, Nat.mul_comm]
    have hwithout : found < 2 ^ (bit + 1) := by omega
    have hwith : found ||| Nat.pow 2 bit < 2 ^ (bit + 1) := by
      rw [or_two_pow hfound]
      omega
    obtain ⟨xs, hxs, hmemx⟩ := ih hnext hwithout (h.has_cofactor hf hpos false) (hstep false)
    obtain ⟨ys, hys, hmemy⟩ := ih hnext hwith (h.has_cofactor hf hpos true) (hstep true)
    have hset : ∀ (s : Assignment) (b : Bool), m.eval (m.cofactor (d.base + bit) b f) s = true →
        ∃ t, m.eval f t = true ∧ (if b then found ||| Nat.pow 2 bit else found) +
          2 ^ (bit + 1) * readFrom (d.base + bit + 1) rest s =
            found + 2 ^ bit * readFrom (d.base + bit) (rest + 1) t := by
      intro s b hs
      obtain ⟨t, ht, rfl, hlater⟩ := exists_of_cofactor h hf hpos ha hs
      refine ⟨t, ht, ?_⟩
      rw [found_step hfound, readFrom_congr hlater]
    refine ⟨xs ++ ys, ?_, fun v => ?_⟩
    · have hsmall : ¬ 64 ≤ bit := by omega
      simp only [hzero, ↓reduceIte, hbit, hcof, hxs, hys, hsmall, bind, Except.bind, pure,
        Except.pure]
    rw [List.mem_append, hmemx, hmemy]
    constructor
    · rintro (⟨s, hs, rfl⟩ | ⟨s, hs, rfl⟩)
      · exact hset s false hs
      · exact hset s true hs
    · rintro ⟨s, hs, rfl⟩
      rw [h.eval_cofactor hf hpos] at hs
      rw [found_step hfound]
      cases hb : s (d.base + bit) with
      | false => exact .inl ⟨s, hb ▸ hs, rfl⟩
      | true => exact .inr ⟨s, hb ▸ hs, rfl⟩

variable {P : Nat → Prop} {s : ValueSet}

/-- The size of a set is the number of its values. -/
theorem size_eq [DecidablePred P] (h : m.Canonical)
    (hs : m.Denotes s.fn fun t => P (s.domain.read t)) :
    s.size m = .ok (min ((Finset.range (2 ^ s.domain.len)).filter P).card (2 ^ 64 - 1)) := by
  have hcount := count_eq h hs.has (Domain.dependsOn hs)
  have hcard : s.domain.span.card = s.domain.len := by simp [Domain.span]
  rw [hcard, Domain.card_models hs] at hcount
  simp only [size, countWord, hcount, bind, Except.bind, pure, Except.pure]
  rfl

/-- The listing of a set is ascending and holds the values of the set. -/
theorem toList_spec (h : m.Canonical) (hend : s.domain.base + s.domain.len ≤ 2 ^ 32)
    (hlen : s.domain.len ≤ 64) (hs : m.Denotes s.fn fun t => P (s.domain.read t)) :
    ∃ vs, s.toList m = .ok vs ∧ vs.Pairwise (· < ·) ∧
      ∀ v, v ∈ vs ↔ v < 2 ^ s.domain.len ∧ P v := by
  have habove : m.rootVar s.fn = 0 ∨ s.domain.base + 0 ≤ m.rootVar s.fn := by
    rcases h.cases hs.has with h1 | ⟨n, hn⟩
    · exact .inl (h.rootVar_terminal h1)
    · have := Finset.mem_Ico.1 ((Domain.dependsOn hs).var_mem h hn)
      rw [rootVar_stores hn]
      exact .inr this.1
  obtain ⟨xs, hxs, hmem⟩ := collect_spec h hend hlen
    (Nat.zero_add s.domain.len) (Nat.two_pow_pos 0) hs.has habove
  refine ⟨(Std.TreeSet.ofList xs).toList, ?_, ?_, fun v => ?_⟩
  · simp only [toList, hxs, bind, Except.bind, pure, Except.pure]
  · exact ascending_toList _
  · rw [Std.TreeSet.mem_toList, Std.TreeSet.mem_ofList, List.contains_iff_mem, hmem]
    simp only [Nat.add_zero, Nat.pow_zero, Nat.one_mul, Nat.zero_add, hs.holds]
    constructor
    · rintro ⟨t, ht, rfl⟩
      exact ⟨s.domain.read_lt t, ht⟩
    · rintro ⟨hlt, hv⟩
      have hw := Domain.read_write hlt fun _ => false
      exact ⟨s.domain.write v fun _ => false, by rwa [hw], hw.symm⟩

end ValueSet

end SymbolicAutomata
