import TypedHeap.Layout.Table
import TypedHeap.Reciprocal
import TypedHeap.Shape

/-! # Type records

What is known of one type: its identity, its shape, where its elements repeat and which objects
lie at which offsets of one element.
-/

namespace TypedHeap

structure TypeRecord where
  hash : TypeHash
  shape : Shape
  /-- The type that a failed check is tried against again. -/
  coercion : Option TypeHash
  table : Layout.Table
  /-- Where the repeating elements start: zero, or the offset of a flexible array. -/
  elementStart : Nat
  /-- The size of a repeating element: that of the type, or of an element of the flexible array. -/
  elementSize : Nat

namespace TypeRecord

def name (r : TypeRecord) : String := r.shape.name

def size (r : TypeRecord) : Nat := r.shape.size

/-- The record of a type; `flexible` is the offset and element size of a flexible array. -/
def ofParts (hash : TypeHash) (shape : Shape) (flexible : Option (Nat × Nat))
    (table : Layout.Table) (coercion : Option TypeHash) : TypeRecord :=
  let element := flexible.getD (0, shape.size)
  ⟨hash, shape, coercion, table, element.1, element.2⟩

def selfEntries (hash : TypeHash) (coercion : Option TypeHash) : List Layout.Entry :=
  (hash :: coercion.toList).map .self

def primitive (hash : TypeHash) (shape : Shape) (coercion : Option TypeHash) : TypeRecord :=
  ofParts hash shape none
    ((Layout.Table.build? hash (selfEntries hash coercion)).getD
      ⟨hash, Array.replicate 4 .empty⟩)
    coercion

def freeName : String := "<free memory>"

/-- The type of free memory, in which nothing lies. -/
def freeMemory : TypeRecord :=
  ofParts .free (.primitive freeName 1) none (.none .free) none

/-- The offset within one element that `offset` into an allocation comes down to. -/
def fold (r : TypeRecord) (offset : Nat) : Checked Nat := do
  if offset < r.size ∨ r.elementSize = 0 then .ok offset
  else
    let behind ← Word.sub? offset r.elementStart
    let rest ← (Reciprocal.ofDivisor r.elementSize).rem behind r.elementSize
    Word.add? r.elementStart rest

def lookup (r : TypeRecord) (expected : TypeHash) (offset : Nat) : Layout.Lookup :=
  r.table.lookup expected offset

end TypeRecord

end TypedHeap
