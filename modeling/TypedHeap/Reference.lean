/-! # References

A header refers to the type of its object and to its tags by the addresses of their records. The
records lie outside the heap, those of one kind side by side, and zero refers to none of them.
Copying a reference, or the low bytes in which two of them differ, makes a header refer to
another record.
-/

namespace TypedHeap.Reference

def firstRecord : Nat := 0x55D27A3C4010

def recordSpacing : Nat := 0x1E0

def firstChain : Nat := 0x55D29B18C5C0

def chainSpacing : Nat := 0x40

def record (index : Nat) : Nat := firstRecord + recordSpacing * index

/-- The reference to the record of free memory, which comes before those of all other types. -/
def freeMemory : Nat := record 0

def chain (index : Nat) : Nat := firstChain + chainSpacing * index

def recordIndex? (reference : Nat) : Option Nat :=
  let distance := reference - firstRecord
  if firstRecord ≤ reference ∧ distance % recordSpacing = 0 then some (distance / recordSpacing)
  else none

theorem recordIndex?_record (index : Nat) : recordIndex? (record index) = some index := by
  simp [recordIndex?, record, recordSpacing]

theorem recordIndex?_zero : recordIndex? 0 = none := rfl

theorem chain_ne_zero (index : Nat) : chain index ≠ 0 := by
  simp [chain, firstChain]

end TypedHeap.Reference
