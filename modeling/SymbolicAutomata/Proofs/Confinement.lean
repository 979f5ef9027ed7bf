import SymbolicAutomata.Proofs.Relations
import SymbolicAutomata.Proofs.Supports
/-!
# Functions of the numbers on some domains

The support tells whether a function uses variables outside given domains. A function that does not
is a predicate of the numbers that its domains carry, and such a predicate uses no other variables.
-/
namespace SymbolicAutomata

namespace Domain

variable {ds : List Domain} {d : Domain} {s t : Assignment} {v : Nat}

theorem eq_of_reads_eq (h : reads ds s = reads ds t) (hd : d ∈ ds) (h1 : d.base ≤ v)
    (h2 : v < d.base + d.len) : s v = t v := by
  have hread : d.read s = d.read t := List.map_inj_left.1 h d hd
  have hbit : (d.read s).testBit (v - d.base) = (d.read t).testBit (v - d.base) := by rw [hread]
  have hlt : v - d.base < d.len := by omega
  have hback : d.base + (v - d.base) = v := by omega
  simpa only [testBit_read, hlt, decide_true, Bool.true_and, hback] using hbit

theorem reads_congr (h : ∀ d ∈ ds, ∀ v, d.base ≤ v → v < d.base + d.len → s v = t v) :
    reads ds s = reads ds t :=
  List.map_congr_left fun d hd => read_congr (h d hd)

end Domain

namespace Manager

variable {m : Manager} {f : Ref} {ds : List Domain} {R : List Nat → Prop} {s t : Assignment}

/-- The function uses only variables of the domains. -/
structure Confined (m : Manager) (f : Ref) (ds : List Domain) : Prop where
  has : m.Has f
  within : ∃ vs, m.support f = .ok vs ∧ ∀ v ∈ vs, ∃ d ∈ ds, d.base ≤ v ∧ v < d.base + d.len

theorem Confined.eval_eq (hf : m.Confined f ds) (h : m.Canonical)
    (hst : Domain.reads ds s = Domain.reads ds t) : m.eval f s = m.eval f t := by
  obtain ⟨vs, hvs, hin⟩ := hf.within
  obtain ⟨_, hvs', -, hmem⟩ := support_spec h hf.has
  obtain rfl := Except.ok.inj (hvs.symm.trans hvs')
  refine eval_congr_of_decides h hf.has fun v hv => ?_
  obtain ⟨d, hd, h1, h2⟩ := hin v ((hmem v).2 hv)
  exact Domain.eq_of_reads_eq hst hd h1 h2

/-- What a confined function says of the numbers on its domains. -/
def Admits (m : Manager) (f : Ref) (ds : List Domain) (ts : List Nat) : Prop :=
  ∃ s, Domain.reads ds s = ts ∧ m.Evaluates s f true

theorem Confined.denotes (hf : m.Confined f ds) (h : m.Canonical) :
    m.Denotes f fun t => m.Admits f ds (Domain.reads ds t) := by
  refine ⟨hf.has, fun t => ⟨fun ht => ⟨t, rfl, (h.eval_eq_iff hf.has).1 ht⟩, ?_⟩⟩
  rintro ⟨s, hst, hs⟩
  rw [← hf.eval_eq h hst]
  exact (h.eval_eq_iff hf.has).2 hs

theorem Denotes.confined (hf : m.Denotes f fun t => R (Domain.reads ds t)) (h : m.Canonical) :
    m.Confined f ds := by
  obtain ⟨vs, hvs, -, hmem⟩ := support_spec h hf.has
  refine ⟨hf.has, vs, hvs, fun v hv => ?_⟩
  by_contra hout
  obtain ⟨s, t, hst, hne⟩ := ((hmem v).1 hv).sensitive h
  have hreads : Domain.reads ds s = Domain.reads ds t := Domain.reads_congr fun d hd u h1 h2 =>
    hst u fun heq => hout ⟨d, hd, heq ▸ h1, heq ▸ h2⟩
  exact hne (Bool.eq_iff_iff.2 (by rw [hf.holds, hf.holds, hreads]))

/-- The tuples that a predicate of the numbers on disjoint domains admits are those with numbers
that the domains can carry. -/
theorem Denotes.admits_iff {ts : List Nat} (hf : m.Denotes f fun t => R (Domain.reads ds t))
    (h : m.Canonical) (hds : ds.Pairwise Domain.Apart) :
    m.Admits f ds ts ↔ List.Forall₂ (fun v d => v < 2 ^ d.len) ts ds ∧ R ts := by
  constructor
  · rintro ⟨s, rfl, hs⟩
    exact ⟨Domain.forall₂_reads, (hf.holds s).1 ((h.eval_eq_iff hf.has).2 hs)⟩
  · rintro ⟨hts, hR⟩
    obtain ⟨s, rfl⟩ := Domain.exists_reads hds hts
    exact ⟨s, rfl, (h.eval_eq_iff hf.has).1 ((hf.holds s).2 hR)⟩

end Manager

end SymbolicAutomata
