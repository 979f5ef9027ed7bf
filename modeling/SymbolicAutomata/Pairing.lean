import SymbolicAutomata.Ref
/-!
# Pairing numbers into slots

Tables choose a slot by pairing the components of a key into one 64-bit word. The arithmetic wraps:
keys are always compared in full, so a collision costs time and nothing else.
-/
namespace SymbolicAutomata

/-- Szudzik's pairing: `b² + a` if `a < b`, and `a² + a + b` otherwise. -/
def szudzik (a b : UInt64) : UInt64 :=
  if a < b then b * b + a else a * a + a + b

def pair2 (a b : UInt64) : UInt64 := szudzik a b

def pair3 (a b c : UInt64) : UInt64 := pair2 (pair2 a b) c

class Slotted (α : Type) where
  slot : α → UInt64

export Slotted (slot)

namespace Ref

def word (f : Ref) : UInt64 := UInt64.ofNat f.raw

end Ref

instance : Slotted (UInt64 × UInt64) := ⟨fun k => pair2 k.1 k.2⟩

instance : Slotted (UInt64 × UInt64 × UInt64) := ⟨fun k => pair3 k.1 k.2.1 k.2.2⟩

instance : Slotted Ref := ⟨Ref.word⟩

instance : Slotted (Ref × Ref) := ⟨fun k => pair2 k.1.word k.2.word⟩

instance : Slotted (Ref × Ref × Ref) := ⟨fun k => pair3 k.1.word k.2.1.word k.2.2.word⟩

end SymbolicAutomata
