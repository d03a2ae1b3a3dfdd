import TypedHeap.Reciprocal

/-! # Size classes

Slots come in sizes that step by 16 bytes up to 128 and by quarter powers of two from there:
16, 32, …, 128, 160, 192, 224, 256, 320, …. Every size is a multiple of 16.
-/

namespace TypedHeap

structure SizeClass where
  index : Nat
  size : Nat
  deriving DecidableEq

namespace SizeClass

def smallest : Nat := 16

/-- No class is larger than this, whatever the region size. -/
def largest : Nat := 64 * 2 ^ 20

def reciprocal (c : SizeClass) : Reciprocal := .ofDivisor c.size

end SizeClass

structure SizeClasses where
  sizes : List Nat
  deriving DecidableEq

namespace SizeClasses

def quarters (p : Nat) : List Nat := [p + p / 4, p + p / 2, p + 3 * p / 4, 2 * p]

/-- The sizes above `p` that are at most `most`, by doubling `p` at most `rounds` times. -/
def above (most : Nat) : Nat → Nat → List Nat
  | 0, _ => []
  | rounds + 1, p =>
      if p < most then (quarters p).filter (· ≤ most) ++ above most rounds (2 * p) else []

def upTo (most : Nat) : SizeClasses :=
  ⟨((List.range 8).map (fun i => (i + 1) * SizeClass.smallest)).filter (· ≤ most) ++
    above most 64 128⟩

/-- The classes for regions of `regionSize` bytes: a region holds at least 16 slots of its class. -/
def forRegion (regionSize : Nat) : SizeClasses := upTo (min SizeClass.largest (regionSize >>> 4))

def length (t : SizeClasses) : Nat := t.sizes.length

def get? (t : SizeClasses) (index : Nat) : Option SizeClass :=
  t.sizes[index]?.map (SizeClass.mk index)

def select? (t : SizeClasses) (size : Nat) : Option SizeClass :=
  t.get? (t.sizes.findIdx (size ≤ ·))

def largestSize (t : SizeClasses) : Nat := t.sizes.getLastD 0

def toList (t : SizeClasses) : List SizeClass :=
  t.sizes.zipIdx.map fun p => ⟨p.2, p.1⟩

end SizeClasses

end TypedHeap
