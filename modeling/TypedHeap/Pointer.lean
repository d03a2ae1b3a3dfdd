import TypedHeap.Heap.Header

/-! # Pointers with an epoch

A pointer may know under which epoch it was taken, and then it is stale under any other.
-/

namespace TypedHeap

structure Pointer where
  address : Nat
  /-- The epoch of the allocation it was taken from, if that is known. -/
  epoch : Option Epoch
  deriving DecidableEq

namespace Pointer

def untracked (address : Nat) : Pointer := ⟨address, none⟩

def isStale (p : Pointer) (current : Epoch) : Bool := p.epoch.any (· != current)

theorem isStale_of_epoch (address : Nat) (e current : Epoch) :
    (Pointer.mk address (some e)).isStale current = (e != current) := rfl

end Pointer

end TypedHeap
