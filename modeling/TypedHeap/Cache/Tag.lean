import TypedHeap.TypeHash

/-! # Cache tags

A tag remembers in which place of a layout table a type was found. It knows the type by a 16-bit
fingerprint only, so it is a hint that must be checked against the table.
-/

namespace TypedHeap.Cache

inductive Tag where
  | unknown
  | known (fingerprint slot : Nat)
  deriving DecidableEq, Inhabited

namespace Tag

/-- A tag has 16 bits for a place, the lowest of which means none. -/
def slotLimit : Nat := 0xFFFF

def fingerprint (hash : TypeHash) : Nat := (TypeHash.mix hash.word >>> 48).toNat

def of? (expected : TypeHash) (slot : Nat) : Option Tag :=
  if slot + 1 ≤ slotLimit then some (.known (fingerprint expected) slot) else none

def slotFor? (tag : Tag) (expected : TypeHash) : Option Nat :=
  match tag with
  | .unknown => none
  | .known print slot => if print = fingerprint expected then some slot else none

def word : Tag → Nat
  | .unknown => 0
  | .known print slot => print * 65536 + (slot + 1)

def debugText (tag : Tag) : String := "Tag(" ++ toString tag.word ++ ")"

end Tag

end TypedHeap.Cache
