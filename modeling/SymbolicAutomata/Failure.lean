import SymbolicAutomata.Domain
import SymbolicAutomata.Ref
/-!
# Why an operation fails

One constructor for each cause, with the values its message shows. Two causes carry no message:
arithmetic that leaves its word, and a position outside a list.
-/
namespace SymbolicAutomata

inductive Failure
  | overflow
  | outOfBounds
  /-- Stored nodes refer to each other in a circle, so a descent does not end. -/
  | cyclicNodes
  /-- A search went through more states than state numbers exist. -/
  | tooManyStates
  /-- A domain would start at variable 0. -/
  | domainAtZero
  /-- A node, a cofactor or a literal of variable 0. -/
  | zeroVariable
  /-- A condition whose node decides no variable. -/
  | undecidedCondition
  /-- Cofactors by a variable below the one decided at the root. -/
  | cofactorBelowRoot (asked decided : Nat)
  /-- Cell 0 of a table holds no value. -/
  | cellZero
  | storageBits
  | cacheBits
  | bitOutsideDomain (bit : Nat) (domain : Domain)
  | tooManyBits
  | stateBits (needed : Nat)
  | symbolBits (bits : Domain)
  | symbolBitZero
  | valueTooLarge (value : Nat) (domain : Domain)
  | setManagers
  | valuesDoNotFit (values : List Nat) (target : Domain)
  | narrowerDomain (source target : Domain)
  | positionsOverlap (first second : Domain)
  | noSets
  | relationManagers
  | relationDomains (left right : List Domain)
  | noSymbolsAt (position : Nat) (found alphabet : Domain)
  | arity (left right : Nat)
  | extensionBase (source target : Domain)
  | binaryRelation (arity : Nat)
  | composeFrom (source image : Domain)
  | transposeWidths (first second : Domain)
  | domainTaken (target : Domain) (position : Nat) (taken : Domain)
  | ternaryRelation (arity : Nat)
  | reversedAddState
  | reversedAddEdge
  | reversedAddTransitions
  | reversedTransitions
  | sparseStates (state expected : Nat)
  | sparseStateSet (states : List Nat)
  | edgeOutside (source target states : Nat)
  | stateOutside (state states : Nat)
  | concatenationBits (bits : Nat)
  | concatenationStates (states : Nat)
  | automatonManagers
  | productBits (bits : Nat)
  | productStates (states : Nat)
  | emptyChallenge (spoiler duplicator : Nat)
  | notMainNode (node : String)
  | notChallengeNode (node : String)
  | tracksOverlap (first second : Domain)
  | copyWidths (source target : Domain)
  | trackWidths (source target : Domain)
  | composeTrackFrom (track image : Domain)
  | composeTrackInto (track image : Domain)
  | imageArity (arity : Nat)
  | preimageArity (arity : Nat)
  deriving DecidableEq, Repr

def bracedText (values : List Nat) : String :=
  "\x7b" ++ ", ".intercalate (values.map toString) ++ "\x7d"

def listText (items : List String) : String :=
  "[" ++ ", ".intercalate items ++ "]"

namespace Failure

/-- The message of a comparison that should have held between two shown values. -/
def compared (relation explanation left right : String) : String :=
  "assertion `left " ++ relation ++ " right` failed" ++ explanation ++
    "\n  left: " ++ left ++ "\n right: " ++ right

def unequal (explanation left right : String) : String :=
  compared "==" (": " ++ explanation) left right

def unequalLengths (explanation : String) (left right : Nat) : String :=
  unequal explanation (toString left) (toString right)

def message : Failure → Option String
  | .overflow => none
  | .outOfBounds => none
  | .cyclicNodes => some "The stored nodes form a cycle"
  | .tooManyStates => some "More states than state numbers"
  | .domainAtZero => some "Variable index should not be zero"
  | .zeroVariable => some (compared "!=" ": Variable index should not be zero" "0" "0")
  | .undecidedCondition => some (compared "!=" "" "0" "0")
  | .cofactorBelowRoot asked decided =>
      some (compared "==" "" (toString asked) (toString decided))
  | .cellZero => some (compared "!=" ": Index is 0" "0" "0")
  | .storageBits => some "Storage bits should be in the range 0..=31"
  | .cacheBits => some "Bits should be in the range 0..=31"
  | .bitOutsideDomain bit domain =>
      some s!"Bit {bit} is out of domain {domain.text}"
  | .tooManyBits => some "assertion failed: n <= self.len"
  | .stateBits needed => some s!"State indices need {needed} bits, at most 32 are supported"
  | .symbolBits bits => some s!"Symbol bits {bits.text} exceed the alphabet block"
  | .symbolBitZero => some (compared "!=" ": Symbol bits are 1-indexed" "0" "0")
  | .valueTooLarge value domain => some s!"Value {value} does not fit into domain {domain.text}"
  | .setManagers => some "Sets must be built in the same BDD manager"
  | .valuesDoNotFit values target =>
      some s!"Set {bracedText values} has values that do not fit into {target.text}"
  | .narrowerDomain source target =>
      some s!"Cannot extend {source.text} to the narrower {target.text}"
  | .positionsOverlap first second =>
      some s!"Relation positions {first.text} and {second.text} overlap"
  | .noSets => some "Cannot enumerate an empty list of sets"
  | .relationManagers => some "Relations must be built in the same BDD manager"
  | .relationDomains left right =>
      some (unequal "Relations must have the same domains"
        (listText (left.map Domain.describe)) (listText (right.map Domain.describe)))
  | .noSymbolsAt position found alphabet =>
      some (unequal s!"Position {position} does not hold symbols" found.describe alphabet.describe)
  | .arity left right => some (unequalLengths "Arity mismatch" left right)
  | .extensionBase source target =>
      some (unequalLengths s!"Extension must keep the base of {source.text}"
        source.base target.base)
  | .binaryRelation n =>
      some (unequalLengths "Composition needs a binary relation" n 2)
  | .composeFrom source image =>
      some (unequalLengths s!"Cannot compose {source.text} with a map from {image.text}"
        image.len source.len)
  | .transposeWidths first second =>
      some (unequalLengths s!"Cannot transpose {first.text} and {second.text}"
        first.len second.len)
  | .domainTaken target position taken =>
      some s!"Domain {target.text} overlaps position {position} ({taken.text})"
  | .ternaryRelation n =>
      some (unequalLengths "Transitions must form a ternary relation" n 3)
  | .reversedAddState => some "Cannot add a state through a reversed view"
  | .reversedAddEdge => some "Cannot add an edge through a reversed view"
  | .reversedAddTransitions => some "Cannot add transitions through a reversed view"
  | .reversedTransitions => some "A reversed view cannot materialize its transition relation"
  | .sparseStates state expected =>
      some (unequalLengths "States of the source automaton are not dense" state expected)
  | .sparseStateSet states =>
      some s!"States of the source automaton are not dense: {bracedText states}"
  | .edgeOutside source target states =>
      some s!"Edge {source} -> {target} leaves 0..{states}"
  | .stateOutside state states => some s!"State {state} is out of range 0..{states}"
  | .concatenationBits bits => some s!"Concatenation needs {bits} state bits"
  | .concatenationStates states => some s!"Concatenation needs {states} states"
  | .automatonManagers => some "Automata must be built in the same BDD manager"
  | .productBits bits => some s!"Product needs {bits} state bits"
  | .productStates states => some s!"Product needs {states} states"
  | .emptyChallenge spoiler duplicator =>
      some s!"Challenge node ({spoiler}, {duplicator}) needs a non-empty label"
  | .notMainNode node => some s!"Node {node} is not a main node"
  | .notChallengeNode node => some s!"Node {node} is not a challenge node"
  | .tracksOverlap first second => some s!"Tracks {first.text} and {second.text} overlap"
  | .copyWidths source target =>
      some (unequalLengths s!"Cannot copy {source.text} into {target.text}"
        source.len target.len)
  | .trackWidths source target =>
      some (unequalLengths s!"Cannot move track {source.text} to {target.text}"
        source.len target.len)
  | .composeTrackFrom track image =>
      some (unequalLengths s!"Cannot compose {track.text} with a map from {image.text}"
        image.len track.len)
  | .composeTrackInto track image =>
      some (unequalLengths s!"Cannot compose {track.text} with a map into {image.text}"
        image.len track.len)
  | .imageArity n => some (unequalLengths "Image needs a binary relation" n 2)
  | .preimageArity n => some (unequalLengths "Preimage needs a binary relation" n 2)

end Failure

end SymbolicAutomata
