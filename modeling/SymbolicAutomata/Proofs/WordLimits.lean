import SymbolicAutomata.Proofs.Belonging
/-!
# Numbers at the limits of words

A range is compared bit by bit and is right for all bounds, up to a domain of 64 bits. A single
number goes through literals, whose sign carries the bit, and is right as long as the variables are
below `2 ^ 31`. From there on the literals have the wrong sign and name other variables, and wider
domains run out of bits.
-/
namespace SymbolicAutomata

namespace Bdd

open Manager

variable {w : Workspace} {d : Domain} {v : Nat}

/-- The computation returns the only reference to the function that holds exactly under the
assignments in `F`. -/
def Makes (w : Workspace) (x : BddM Ref) (F : Assignment → Prop) : Prop :=
  ∃ r w₁, x w = .ok r w₁ ∧ w.Leads w₁ ∧ w₁.current.Has r ∧
    (∀ s : Assignment, ∃ b, w₁.current.evaluate r (fun v => .ok (s v)) = .ok b ∧
      (b = true ↔ F s)) ∧
    ∀ g, w₁.current.Has g → (∀ s : Assignment, w₁.current.evaluate g (fun v => .ok (s v)) =
      w₁.current.evaluate r fun v => .ok (s v)) → g = r

theorem Makes.of_yields {x : BddM Ref} {F : Assignment → Prop}
    (hx : Yields w x fun r m => m.Denotes r F) : Makes w x F := by
  obtain ⟨r, w₁, hrun, hl, hr⟩ := yields_iff.1 hx
  have hm := hl.after.canonical
  refine ⟨r, w₁, hrun, hl, hr.has, hr.evaluate hm, fun g hg hsame => ?_⟩
  refine hm.eq_of_eval_eq hg hr.has fun s => ?_
  have hs := hsame s
  rwa [hm.evaluate_eq hg, hm.evaluate_eq hr.has, Except.ok.injEq] at hs

theorem exists_new : ∃ m, Manager.new 0 1 1 = .ok m := ⟨_, rfl⟩

/-- For domains of up to 64 bits and all bounds, a range is made, and it holds exactly where the
variables of the domain carry the bits, lowest first, of a number within the bounds. -/
theorem range_of_wellFormed {lo hi : Nat} (hw : w.current.WellFormed) (hlen : d.len ≤ 64)
    (hend : d.base + d.len ≤ 2 ^ 32) (hlo : lo < 2 ^ 64) (hhi : hi < 2 ^ 64) :
    Makes w (range d lo hi) fun s =>
      ∃ v < 2 ^ d.len, (∀ i < d.len, s (d.base + i) = v.testBit i) ∧ lo ≤ v ∧ v ≤ hi := by
  refine .of_yields ((range_yields hw hlen hend hlo hhi).imp fun r w₁ _ hr => hr.congr fun s => ?_)
  constructor
  · intro hread
    exact ⟨d.read s, d.read_lt s, (Domain.read_eq_iff (d.read_lt s)).1 rfl, hread⟩
  · rintro ⟨v, hv, hbits, hbounds⟩
    rwa [(Domain.read_eq_iff hv).2 hbits]

/-- The upper half of the 64-bit words starts where the highest bit is set. -/
theorem range_of_wellFormed_upper : ∃ m, Manager.new 0 1 1 = .ok m ∧
    Makes ⟨m, []⟩ (range ⟨5, 64, by decide⟩ (2 ^ 63) (2 ^ 64 - 1)) fun s =>
      ∃ v < 2 ^ 64, (∀ i < 64, s (5 + i) = v.testBit i) ∧ 2 ^ 63 ≤ v ∧ v ≤ 2 ^ 64 - 1 := by
  obtain ⟨m, hm⟩ := exists_new
  exact ⟨m, hm, range_of_wellFormed (wellFormed_new hm) (by decide) (by decide) (by decide)
    (by decide)⟩

section Literals

/-- Above `2 ^ 31` a literal has the opposite sign and another variable. -/
theorem signLiteral_mirrored (b : Bool) (hv : 2 ^ 31 < v) (hend : v < 2 ^ 32) :
    (if b then .ok (signedWord v) else negateWord (signedWord v) : Except Failure Int) =
      .ok (signedLiteral (!b) (2 ^ 32 - v)) := by
  have hword : signedWord v = (v : Int) - 2 ^ 32 := if_neg (Nat.not_lt_of_lt hv)
  have hcast : ((2 ^ 32 - v : Nat) : Int) = 2 ^ 32 - v := by omega
  cases b with
  | true =>
    change Except.ok (signedWord v) = .ok (-((2 ^ 32 - v : Nat) : Int))
    rw [hword, hcast, Int.neg_sub]
  | false =>
    have hne : (v : Int) - 2 ^ 32 ≠ leastWord := by
      unfold leastWord
      omega
    change negateWord (signedWord v) = .ok ((2 ^ 32 - v : Nat) : Int)
    rw [hword, negateWord, if_neg hne, hcast, Int.neg_sub]

theorem eq_overflow_of_negateWord {l : Int} {e : Failure} (h : negateWord l = .error e) :
    e = .overflow := by
  unfold negateWord at h
  split_ifs at h
  exact (Except.error.inj h).symm

theorem eq_overflow_of_wordBit {i : Nat} {e : Failure} (h : wordBit v i = .error e) :
    e = .overflow := by
  unfold wordBit at h
  split_ifs at h
  exact (Except.error.inj h).symm

theorem eq_overflow_of_valueLiterals {xs : List Nat} {e : Failure}
    (h : valueLiterals v xs = .error e) : e = .overflow := by
  obtain ⟨⟨x, i⟩, -, hfails⟩ := exists_of_mapM_error h
  change (wordBit v i >>= fun b => if b then pure (signedWord x) else
    negateWord (signedWord x)) = _ at hfails
  cases hbit : wordBit v i with
  | error e' =>
    rw [hbit] at hfails
    cases hfails
    exact eq_overflow_of_wordBit hbit
  | ok b =>
    rw [hbit] at hfails
    cases b with
    | true => cases hfails
    | false => exact eq_overflow_of_negateWord hfails

/-- The literal of variable `2 ^ 31`, if there is one, is the least word. -/
theorem leastWord_mem_of_value {ls : List Int} (hbase : d.base ≤ 2 ^ 31)
    (hend : 2 ^ 31 < d.base + d.len)
    (h : valueLiterals v (List.range' d.base d.len) = .ok ls) : leastWord ∈ ls := by
  obtain ⟨l, hl, hof⟩ := exists_right_of_forall₂ (literals_of_value h) (Nat.pow 2 31)
    (List.mem_range'_1.2 ⟨hbase, hend⟩)
  exact hof.eq_least ▸ hl

end Literals

section Values

/-- The guard of `value` lets every number pass that the domain has room for, and all numbers on
domains of 64 bits or more. -/
theorem guard_of_fits (hv : d.len < 64 → v < 2 ^ d.len) : ¬ (d.len < 64 ∧ v >>> d.len ≠ 0) := by
  rintro ⟨hlen, hshift⟩
  have := shiftRight_ne_zero_iff.1 hshift
  have := hv hlen
  omega

theorem value_yields_mirrored (hw : w.current.WellFormed) (hlen : d.len ≤ 64)
    (hbase : 2 ^ 31 < d.base) (hend : d.base + d.len < 2 ^ 32) (hv : d.len < 64 → v < 2 ^ d.len) :
    Yields w (value d v) fun r m =>
      m.Denotes r fun s => ∀ i < d.len, s (2 ^ 32 - (d.base + i)) = !v.testBit i := by
  have hliterals := valueLiterals_of (v := v) hlen fun b x hx => by
    have := List.mem_range'_1.1 hx
    exact signLiteral_mirrored b (by omega) (by omega)
  have hleast : leastWord ∉ (List.range d.len).map fun i =>
      signedLiteral (!v.testBit i) (2 ^ 32 - (d.base + i)) := by
    intro hmem
    obtain ⟨i, -, heq⟩ := List.mem_map.1 hmem
    have habs := natAbs_signedLiteral (!v.testBit i) (2 ^ 32 - (d.base + i))
    rw [heq] at habs
    simp only [leastWord] at habs
    omega
  unfold value
  rw [if_neg (guard_of_fits hv)]
  refine .lift_bind (Domain.vars_eq (Domain.stop_of_le hend)) (.lift_bind hliterals ?_)
  refine ((cube_yieldsIff hw hend (literals_of_value hliterals)).yields hleast).imp
    fun r w₁ _ hr => hr.congr fun s => ?_
  rw [List.forall_mem_map]
  simp only [List.mem_range]
  exact forall₂_congr fun i hi => holds_signedLiteral (by omega)

/-- A number cannot be written on more than 64 variables, nor on the last variable, nor on variable
`2 ^ 31`. -/
theorem value_overflows (hv : d.len < 64 → v < 2 ^ d.len)
    (h : 64 < d.len ∨ 2 ^ 32 ≤ d.base + d.len ∨ d.base ≤ 2 ^ 31 ∧ 2 ^ 31 < d.base + d.len) :
    value d v w = .error .overflow w := by
  unfold value
  rw [if_neg (guard_of_fits hv)]
  by_cases hend : d.base + d.len < 2 ^ 32
  · rw [Domain.vars_eq (Domain.stop_of_le hend)]
    cases hls : valueLiterals v (List.range' d.base d.len) with
    | error e =>
      obtain rfl := eq_overflow_of_valueLiterals hls
      change (liftM (valueLiterals v (List.range' d.base d.len)) >>= cube : BddM Ref) w = _
      rw [hls]
      rfl
    | ok ls =>
      have hlong : ¬ 64 < d.len := fun hlong => absurd (literal_of_value hls hlong).1 (by omega)
      have hleast : leastWord ∈ ls := by
        rcases h with h | h | ⟨h₁, h₂⟩
        · exact absurd h hlong
        · omega
        · exact leastWord_mem_of_value h₁ h₂ hls
      change (liftM (valueLiterals v (List.range' d.base d.len)) >>= cube : BddM Ref) w = _
      rw [hls]
      change cube ls w = _
      unfold cube
      rw [if_pos (by simpa using hleast)]
      rfl
  · have hstop : d.stop = .error .overflow := if_neg hend
    rw [Domain.vars, hstop]
    rfl

/-- A number that passes the guard is written right on up to 64 variables below `2 ^ 31`. On up to
64 variables above `2 ^ 31` its complement is written, and on other variables: those that mirror
them at `2 ^ 32`. In all other cases an overflow ends the computation. -/
theorem value_of_wellFormed (hw : w.current.WellFormed) (hword : v < 2 ^ 64)
    (hv : d.len < 64 → v < 2 ^ d.len) :
    (d.len ≤ 64 → d.base + d.len ≤ 2 ^ 31 →
      Makes w (value d v) fun s => ∀ i < d.len, s (d.base + i) = v.testBit i) ∧
    (d.len ≤ 64 → 2 ^ 31 < d.base → d.base + d.len < 2 ^ 32 →
      Makes w (value d v) fun s => ∀ i < d.len, s (2 ^ 32 - (d.base + i)) = !v.testBit i) ∧
    (64 < d.len ∨ 2 ^ 32 ≤ d.base + d.len ∨ d.base ≤ 2 ^ 31 ∧ 2 ^ 31 < d.base + d.len →
      value d v w = .error .overflow w) := by
  refine ⟨fun hlen hend => .of_yields ?_, fun hlen hbase hend => .of_yields ?_, value_overflows hv⟩
  · have hfits : v < 2 ^ d.len := by
      rcases Nat.lt_or_eq_of_le hlen with hlt | heq
      · exact hv hlt
      · rwa [heq]
    refine (value_yields hw hlen hend hfits).imp fun r w₁ _ hr => hr.congr fun s => ?_
    exact Domain.read_eq_iff hfits
  · exact value_yields_mirrored hw hlen hbase hend hv

/-- The number 5 on three variables, below `2 ^ 31` and above it, and the number 1 on 65. -/
theorem value_of_wellFormed_five : ∃ m, Manager.new 0 1 1 = .ok m ∧
    (Makes ⟨m, []⟩ (value ⟨1, 3, by decide⟩ 5) fun s => ∀ i < 3, s (1 + i) = Nat.testBit 5 i) ∧
    (Makes ⟨m, []⟩ (value ⟨2 ^ 31 + 1, 3, by decide⟩ 5) fun s =>
      ∀ i < 3, s (2 ^ 32 - (2 ^ 31 + 1 + i)) = !Nat.testBit 5 i) ∧
    value ⟨1, 65, by decide⟩ 1 ⟨m, []⟩ = .error .overflow ⟨m, []⟩ := by
  obtain ⟨m, hm⟩ := exists_new
  have hw : (⟨m, []⟩ : Workspace).current.WellFormed := wellFormed_new hm
  exact ⟨m, hm, (value_of_wellFormed hw (by decide) (by decide)).1 (by decide) (by decide),
    (value_of_wellFormed hw (by decide) (by decide)).2.1 (by decide) (by decide) (by decide),
    (value_of_wellFormed hw (by decide) (by decide)).2.2 (.inl (by decide))⟩

/-- The number 1 is not written on 65 variables, and the number 0 is not written on the first
variable above `2 ^ 31`, though both pass the guard. -/
theorem not_makes_value : ∃ m, Manager.new 0 1 1 = .ok m ∧
    (¬ Makes ⟨m, []⟩ (value ⟨1, 65, by decide⟩ 1) fun s =>
      ∀ i < 65, s (1 + i) = Nat.testBit 1 i) ∧
    ¬ Makes ⟨m, []⟩ (value ⟨2 ^ 31 + 1, 1, by decide⟩ 0) fun s =>
      ∀ i < 1, s (2 ^ 31 + 1 + i) = Nat.testBit 0 i := by
  obtain ⟨m, hm⟩ := exists_new
  refine ⟨m, hm, ?_, ?_⟩
  · rintro ⟨r, w₁, hrun, -⟩
    rw [value_overflows (by decide) (.inl (by decide))] at hrun
    cases hrun
  · rintro ⟨r, w₁, hrun, -, -, hvalues, -⟩
    obtain ⟨hl, hr⟩ := Runs.of_ok (value_yields_mirrored (wellFormed_new hm) (by decide)
      (by decide) (by decide) (by decide)) hrun
    obtain ⟨b, hb, hzero⟩ := hvalues fun _ => false
    obtain ⟨c, hc, hmirrored⟩ := hr.evaluate hl.after.canonical fun _ => false
    obtain rfl : b = c := Except.ok.inj (hb.symm.trans hc)
    have htrue := hmirrored.1 (hzero.2 (by simp)) 0 (by decide)
    simp at htrue

end Values

end Bdd

end SymbolicAutomata
