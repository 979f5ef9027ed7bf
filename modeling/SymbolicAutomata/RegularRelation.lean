import SymbolicAutomata.Decision
/-!
# Regular relations

A regular relation relates words of equal length. Each track is a block of symbol bits, and one
automaton reads all tracks at once, letter by letter. A regular set has one track.
-/
namespace SymbolicAutomata

structure RegularRelation where
  tracks : List Domain
  automaton : SymbolicNfa
  deriving DecidableEq, Repr

structure RegularSet where
  track : Domain
  automaton : SymbolicNfa
  deriving DecidableEq, Repr

namespace RegularSet

def toRelation (s : RegularSet) : RegularRelation := ⟨[s.track], s.automaton⟩

end RegularSet

namespace RegularRelation

def new (tracks : List Domain) (a : SymbolicNfa) : Except Failure RegularRelation := do
  match ← overlapping? tracks with
  | some (d, e) => throw (.tracksOverlap d e)
  | none => return ⟨tracks, a⟩

def empty (tracks : List Domain) : BddM RegularRelation := do new tracks (← SymbolicNfa.empty)

def universal (tracks : List Domain) : BddM RegularRelation := do
  new tracks (← SymbolicNfa.universal)

def arity (r : RegularRelation) : Nat := r.tracks.length

def track (r : RegularRelation) (pos : Nat) : Except Failure Domain :=
  match r.tracks[pos]? with
  | some d => .ok d
  | none => .error .outOfBounds

def isEmpty (r : RegularRelation) : BddM Bool := r.automaton.acceptsNone

def moves : List (Domain × Domain) → Except Failure Renaming :=
  List.foldlM (fun names (d, e) => do
    if d.len ≠ e.len then throw (.trackWidths d e)
    return names.extend (← d.renamingTo e)) .identity

def withTracks (r : RegularRelation) (targets : List Domain) : BddM RegularRelation := do
  if targets.length ≠ r.arity then throw (.arity targets.length r.arity)
  let names ← moves (r.tracks.zip targets)
  let a ← if names.isIdentity then pure r.automaton else r.automaton.rename names
  new targets a

def aligned (r s : RegularRelation) : BddM SymbolicNfa := do
  if r.automaton.manager ≠ s.automaton.manager then throw .relationManagers
  return (← s.withTracks r.tracks).automaton

def union (r s : RegularRelation) : BddM RegularRelation := do
  new r.tracks (← r.automaton.union (← r.aligned s))

def inter (r s : RegularRelation) : BddM RegularRelation := do
  new r.tracks (← r.automaton.inter (← r.aligned s))

def sdiff (r s : RegularRelation) : BddM RegularRelation := do
  new r.tracks (← r.automaton.sdiff (← r.aligned s))

def restrict (r : RegularRelation) (pos : Nat) (s : RegularSet) : BddM RegularRelation := do
  let track ← r.track pos
  let moved ← Bdd.within s.automaton.manager (s.toRelation.withTracks [track])
  new r.tracks (← r.automaton.inter moved.automaton)

def project (r : RegularRelation) (pos : Nat) : BddM RegularRelation := do
  let dropped ← r.track pos
  new (r.tracks.eraseIdx pos) (← r.automaton.project dropped)

def sameSymbols (source target : Domain) : BddM SymbolSet := do
  let bits := (← source.vars).zip (← target.vars)
  bits.foldlM (fun acc (i, j) => do
    let x ← SymbolSet.ofBit i
    let y ← SymbolSet.ofBit j
    let both ← x.inter y
    let neither ← x.compl.inter y.compl
    acc.inter (← both.union neither)) (.universal (← Bdd.managerId))

/-- The pairs of a word of `s`, on the track `target`, with itself on the track `source`. -/
def copy (source target : Domain) (s : RegularSet) : BddM RegularRelation := do
  if source.len ≠ target.len then throw (.copyWidths source target)
  let same ← sameSymbols source target
  let (q, a) ← (← SymbolicNfa.empty).addState true true
  let identity ← new [source, target] (← a.addEdge q same q)
  identity.restrict 1 s

/-- Every word `x` at a position replaced by all `y` that a binary relation relates `x` to. The two
relations meet on a track above those of either. -/
def compose (r : RegularRelation) (pos : Nat) (map : RegularRelation) : BddM RegularRelation := do
  if map.arity ≠ 2 then throw (.binaryRelation map.arity)
  let track ← r.track pos
  let source ← map.track 0
  let target ← map.track 1
  if source.len ≠ track.len then throw (.composeTrackFrom track source)
  if target.len ≠ track.len then throw (.composeTrackInto track target)
  let middle ← Domain.new (← topOf (r.tracks ++ map.tracks)) track.len
  let left ← r.withTracks (r.tracks.set pos middle)
  let right ← Bdd.within map.automaton.manager (map.withTracks [middle, track])
  let joined ← left.automaton.inter right.automaton
  new r.tracks (← joined.project middle)

def image (r : RegularRelation) (s : RegularSet) : BddM RegularSet :=
  match r.tracks with
  | [_, target] => do return ⟨target, (← (← r.restrict 0 s).project 0).automaton⟩
  | _ => throw (.imageArity r.arity)

def preimage (r : RegularRelation) (s : RegularSet) : BddM RegularSet :=
  match r.tracks with
  | [source, _] => do return ⟨source, (← (← r.restrict 1 s).project 1).automaton⟩
  | _ => throw (.preimageArity r.arity)

def subset (r s : RegularRelation) : BddM Bool := do r.automaton.includedIn (← r.aligned s)

def same (r s : RegularRelation) : BddM Bool := do
  if r.arity ≠ s.arity then return false
  r.automaton.equivalent (← r.aligned s)

def describe (r : RegularRelation) (m : Manager) : Except Failure String := do
  return "RegularRelation \x7b domains: " ++ listText (r.tracks.map Domain.describe) ++
    ", automaton: " ++ (← r.automaton.describe m) ++ " \x7d"

end RegularRelation

namespace RegularSet

def empty (track : Domain) : BddM RegularSet := do return ⟨track, ← SymbolicNfa.empty⟩

def universal (track : Domain) : BddM RegularSet := do return ⟨track, ← SymbolicNfa.universal⟩

def isEmpty (s : RegularSet) : BddM Bool := s.automaton.acceptsNone

def withTrack (s : RegularSet) (target : Domain) : BddM RegularSet := do
  return ⟨target, (← s.toRelation.withTracks [target]).automaton⟩

def union (s t : RegularSet) : BddM RegularSet := do
  return ⟨s.track, (← s.toRelation.union t.toRelation).automaton⟩

def inter (s t : RegularSet) : BddM RegularSet := do
  return ⟨s.track, (← s.toRelation.inter t.toRelation).automaton⟩

def sdiff (s t : RegularSet) : BddM RegularSet := do
  return ⟨s.track, (← s.toRelation.sdiff t.toRelation).automaton⟩

def subset (s t : RegularSet) : BddM Bool := s.toRelation.subset t.toRelation

def same (s t : RegularSet) : BddM Bool := s.toRelation.same t.toRelation

def describe (s : RegularSet) (m : Manager) : Except Failure String := do
  return "RegularSet \x7b domain: " ++ s.track.describe ++
    ", automaton: " ++ (← s.automaton.describe m) ++ " \x7d"

end RegularSet

end SymbolicAutomata
