import SymbolicAutomata.Failure
/-!
# Variables of a domain

Variable numbers are 32-bit words. A domain may be written down whose end is no such number, and
the operations that need its end then fail.
-/
namespace SymbolicAutomata

/-- Results are numbers below `2 ^ bits` or an overflow. -/
def fits (bits n : Nat) : Except Failure Nat :=
  if n < Nat.pow 2 bits then .ok n else .error .overflow

/-- Differences are natural numbers or an overflow. -/
def subtract (a b : Nat) : Except Failure Nat :=
  if b ≤ a then .ok (a - b) else .error .overflow

def bitsNeeded (n : Nat) : Nat := if n ≤ 1 then 0 else Nat.log2 (n - 1) + 1

theorem fits_eq_ok_iff {bits n r : Nat} : fits bits n = .ok r ↔ n < Nat.pow 2 bits ∧ n = r := by
  unfold fits
  split
  · rename_i h
    exact ⟨fun e => ⟨h, Except.ok.inj e⟩, fun e => e.2 ▸ rfl⟩
  · rename_i h
    exact ⟨(nomatch ·), fun e => absurd e.1 h⟩

theorem subtract_eq_ok_iff {a b r : Nat} : subtract a b = .ok r ↔ b ≤ a ∧ a - b = r := by
  unfold subtract
  split <;> simp <;> omega

/-- The values below `n` fit into `k` bits exactly if `n` is at most `2 ^ k`. -/
theorem bitsNeeded_le_iff {n k : Nat} : bitsNeeded n ≤ k ↔ n ≤ Nat.pow 2 k := by
  have hk : 0 < Nat.pow 2 k := Nat.two_pow_pos k
  unfold bitsNeeded
  split
  · omega
  · have h : n - 1 ≠ 0 := by omega
    rw [Nat.add_one_le_iff, Nat.log2_lt h]
    change n - 1 < Nat.pow 2 k ↔ n ≤ Nat.pow 2 k
    omega

namespace Domain

def new (base len : Nat) : Except Failure Domain :=
  if h : base ≠ 0 then .ok ⟨base, len, h⟩ else .error .domainAtZero

def stop (d : Domain) : Except Failure Nat := fits 32 (d.base + d.len)

def contains (d : Domain) (v : Nat) : Except Failure Bool :=
  if d.base ≤ v then do return v < (← d.stop) else .ok false

def bit (d : Domain) (i : Nat) : Except Failure Nat :=
  if i < d.len then fits 32 (d.base + i) else .error (.bitOutsideDomain i d)

def vars (d : Domain) : Except Failure (List Nat) := do
  let _ ← d.stop
  return List.range' d.base d.len

def at? (d : Domain) (base : Nat) : Except Failure Domain := new base d.len

def low (d : Domain) (n : Nat) : Except Failure Domain :=
  if n ≤ d.len then .ok (d.withLen n) else .error .tooManyBits

def high (d : Domain) (n : Nat) : Except Failure Domain :=
  if n ≤ d.len then do new (← subtract (← d.stop) n) n else .error .tooManyBits

def overlaps (d e : Domain) : Except Failure Bool :=
  if d.isEmpty || e.isEmpty then .ok false
  else do
    if d.base < (← e.stop) then return e.base < (← d.stop) else return false

theorem stop_eq_ok_iff {d : Domain} {n : Nat} :
    d.stop = .ok n ↔ d.base + d.len < Nat.pow 2 32 ∧ d.base + d.len = n :=
  fits_eq_ok_iff

end Domain

end SymbolicAutomata
