import SymbolicAutomata.SymbolSet
import SymbolicAutomata.ValueSet
/-!
# Relations between numbers

A relation has a domain for each position. Positions share no variables, so restriction, projection
and composition are operations on one function. Sets that are put at a position are moved onto its
domain within their own manager.
-/
namespace SymbolicAutomata

structure Relation where
  manager : Nat
  domains : List Domain
  fn : Ref
  deriving DecidableEq, Repr

def overlapping? : List Domain → Except Failure (Option (Domain × Domain))
  | [] => .ok none
  | d :: ds => do
    match ← ds.findM? d.overlaps with
    | some e => return some (d, e)
    | none => overlapping? ds

def topOf (ds : List Domain) : Except Failure Nat :=
  ds.foldlM (fun top d => do return max top (← d.stop)) 1

namespace Relation

/-- The tuples over pairwise disjoint domains that a function admits. -/
def ofFn (domains : List Domain) (f : Ref) : BddM Relation := do
  if let some (d, e) ← overlapping? domains then throw (.positionsOverlap d e)
  return ⟨← Bdd.managerId, domains, f⟩

def empty (domains : List Domain) : BddM Relation := ofFn domains .zero

/-- Relates every element of the `i`-th set to `i`. The elements keep the base of the first set and
take the width of the widest. -/
def enumeration (sets : List ValueSet) (index : Domain) : BddM Relation := do
  match sets with
  | [] => throw .noSets
  | s :: _ =>
    let width := sets.foldl (fun w t => max w t.domain.len) s.domain.len
    let d := s.domain.withLen width
    let f ← Bdd.disjMap (fun (t, i) => do
      let t ← t.moved d
      Bdd.conj t.fn (← Bdd.value index i)) sets.zipIdx
    ofFn [d, index] f

def domain (r : Relation) (pos : Nat) : Except Failure Domain :=
  match r.domains[pos]? with
  | some d => .ok d
  | none => .error .outOfBounds

def arity (r : Relation) : Nat := r.domains.length

def isEmpty (r : Relation) : Bool := r.fn = .zero

def withFn (r : Relation) (f : Ref) : Relation := { r with fn := f }

def replaceDomain (r : Relation) (pos : Nat) (d : Domain) (f : Ref) : Relation :=
  { r with domains := r.domains.set pos d, fn := f }

def describe (r : Relation) : String :=
  "Relation \x7b domains: " ++ listText (r.domains.map Domain.describe) ++ ", node: Ref(" ++
    toString r.fn.raw ++ ") \x7d"

def checkCompatible (r s : Relation) : Except Failure Unit := do
  if r.manager ≠ s.manager then throw .relationManagers
  if r.domains ≠ s.domains then throw (.relationDomains r.domains s.domains)

def union (r s : Relation) : BddM Relation := do
  r.checkCompatible s
  return r.withFn (← Bdd.disj r.fn s.fn)

def inter (r s : Relation) : BddM Relation := do
  r.checkCompatible s
  return r.withFn (← Bdd.conj r.fn s.fn)

def sdiff (r s : Relation) : BddM Relation := do
  r.checkCompatible s
  return r.withFn (← Bdd.diff r.fn s.fn)

def same (r s : Relation) : Bool := r.domains = s.domains ∧ r.fn = s.fn

def restrict (r : Relation) (pos : Nat) (s : ValueSet) : BddM Relation := do
  let s ← s.moved (← r.domain pos)
  return r.withFn (← Bdd.conj r.fn s.fn)

def checkSymbols (r : Relation) (pos : Nat) : Except Failure Unit := do
  let d ← r.domain pos
  if d ≠ Layout.alphabet then throw (.noSymbolsAt pos d Layout.alphabet)

def restrictSymbols (r : Relation) (pos : Nat) (s : SymbolSet) : BddM Relation := do
  r.checkSymbols pos
  return r.withFn (← Bdd.conj r.fn s.fn)

def project (r : Relation) (pos : Nat) : BddM Relation := do
  return r.withFn (← Bdd.exist r.fn (← r.domain pos))

def projectOthers (r : Relation) (pos : Nat) : BddM Ref :=
  r.domains.zipIdx.foldlM (fun f (d, i) => if i = pos then pure f else Bdd.exist f d) r.fn

def projectOn (r : Relation) (pos : Nat) : BddM ValueSet := do
  let d ← r.domain pos
  return ⟨r.manager, d, ← r.projectOthers pos⟩

def symbolsOn (r : Relation) (pos : Nat) : BddM SymbolSet := do
  r.checkSymbols pos
  return ⟨r.manager, ← r.projectOthers pos⟩

def checkFree (r : Relation) (pos : Nat) (target : Domain) : Except Failure Unit :=
  r.domains.zipIdx.forM fun (d, i) => do
    if i ≠ pos then
      if ← d.overlaps target then throw (.domainTaken target i d)

/-- One position moved to another domain, as sets are. -/
def withDomain (r : Relation) (pos : Nat) (target : Domain) : BddM Relation := do
  let source ← r.domain pos
  if source = target then return r
  r.checkFree pos target
  let moved ← ValueSet.withDomain ⟨r.manager, source, r.fn⟩ target
  return r.replaceDomain pos target moved.fn

def moveAll (r : Relation) (moves : List (Nat × Domain)) : BddM Relation :=
  moves.foldlM (fun r (pos, d) => r.withDomain pos d) r

/-- Move the given positions to consecutive free blocks from `base` on. -/
def stage (r : Relation) (moves : List (Nat × Domain)) (base : Nat) : BddM Relation := do
  let (r, _) ← moves.foldlM (fun (r, base) (pos, d) => do
    let r ← withDomain r pos (← Domain.new base d.len)
    return (r, ← fits 32 (base + d.len))) (r, base)
  return r

/-- All positions moved at once. Those that change go through free blocks above all others. -/
def withDomains (r : Relation) (targets : List Domain) : BddM Relation := do
  if targets.length ≠ r.arity then throw (.arity targets.length r.arity)
  let top ← topOf (r.domains ++ targets)
  let moves := (r.domains.zip targets).zipIdx.filterMap fun ((d, e), pos) =>
    if d = e then none else some (pos, e)
  (← r.stage moves top).moveAll moves

/-- One position over a wider domain of the same base, with every added bit equal to `bit`. -/
def extend (r : Relation) (pos : Nat) (target : Domain) (bit : Bool) : BddM Relation := do
  let source ← r.domain pos
  if source.base ≠ target.base then throw (.extensionBase source target)
  r.checkFree pos target
  let added ← target.high (← subtract target.len source.len)
  let high ← Bdd.fill added bit
  return r.replaceDomain pos target (← Bdd.conj r.fn high)

/-- Every element `x` at a position replaced by all `y` that a binary relation relates `x` to. The
position keeps its base and takes the width of the second domain of `map`. -/
def compose (r : Relation) (pos : Nat) (map : Relation) : BddM Relation := do
  if map.arity ≠ 2 then throw (.binaryRelation map.arity)
  let source ← r.domain pos
  let x ← map.domain 0
  let y ← map.domain 1
  if x.len ≠ source.len then throw (.composeFrom source x)
  let target := source.withLen y.len
  r.checkFree pos target
  let scratch ← Domain.new (← topOf (r.domains ++ map.domains)) y.len
  let names ← x.renamingTo source
  let moved ← Bdd.rename map.fn (names.extend (← y.renamingTo scratch))
  let joined ← Bdd.joinExist r.fn moved source
  return r.replaceDomain pos target (← Bdd.rename joined (← scratch.renamingTo target))

def transpose (r : Relation) (i j : Nat) : BddM Relation := do
  let a ← r.domain i
  let b ← r.domain j
  if a.len ≠ b.len then throw (.transposeWidths a b)
  let names ← a.renamingTo b
  return r.withFn (← Bdd.rename r.fn (names.extend (← b.renamingTo a)))

end Relation

namespace ValueSet

/-- The increasing one-to-one map of the values to `0, 1, …`. Its second domain follows the
first. -/
def compress (s : ValueSet) : BddM Relation := do
  let values ← Bdd.ask s.toList
  let index ← Domain.new (← s.domain.stop) (bitsNeeded values.length)
  let f ← Bdd.disjMap (fun (v, i) => do
    let x ← Bdd.value s.domain v
    Bdd.conj x (← Bdd.value index i)) values.zipIdx
  Relation.ofFn [s.domain, index] f

def image (s : ValueSet) (map : Relation) : BddM ValueSet := do
  let r ← Relation.ofFn [s.domain] s.fn
  (← r.compose 0 map).projectOn 0

end ValueSet

end SymbolicAutomata
