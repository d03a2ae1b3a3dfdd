import TypedHeap.Guard.Allocation
import TypedHeap.Guard.Bytes
import TypedHeap.Guard.Free

/-! # Reallocation

An object that stays in its class keeps its slot under a new epoch. Otherwise a new object of the
same type gets the bytes that both sizes have, and the old one is freed.
-/

namespace TypedHeap.Guard

def refuse (g : Guard) (address : Nat) (reason : String) : Except AllocError Bounds × Guard :=
  (.error (.invalidPointer address), g.report (.badFree address reason))

def reallocateLarge (g : Guard) (address size : Nat) (block : Option Nat) :
    Except AllocError Bounds × Guard :=
  match g.large.reallocate block address size with
  | .notOurs => g.refuse address "realloc of memory this heap does not own"
  | .failed => (.error (.outOfMemory size), g)
  | .moved target oldSize large =>
      (.ok ⟨target, target + size⟩,
        { g with large }.copyBytes target address (min oldSize (LargeHeap.blockSize size)))

def resizeSlot (g : Guard) (slot : Slot) (header : Header) (size : Nat) :
    Except AllocError Bounds × Guard :=
  let g := g.setHeader slot.base (header.resize size)
  match header.nextEpoch with
  | .error f => (.error (.fault f), g.halt (.panicked f))
  | .ok epoch => (.ok (slot.object size), g.trace (.resized slot.user size epoch))

def relocate (g : Guard) (address oldSize : Nat) (owner : TypeRecord) (size : Nat) (grant : Grant) :
    Except AllocError Bounds × Guard :=
  match g.allocate size owner.hash grant with
  | (.error e, g) => (.error e, g)
  | (.ok fresh, g) => (.ok fresh, (g.copyBytes fresh.lower address (min oldSize size)).free address)

def owned? (g : Guard) (slot : Slot) : Option (Header × TypeRecord) :=
  (g.heap.live? slot).bind fun header =>
    (g.registry.referred? header.owner).map fun owner => (header, owner)

/-- Give the object at `address` another size. The null address stands for a new object of single
bytes. -/
def reallocate (g : Guard) (address size : Nat) (grant : Grant) :
    Except AllocError Bounds × Guard :=
  if address = 0 then g.allocate size .int8 grant
  else
    match g.heap.resolve? address with
    | none => g.reallocateLarge address size grant.block
    | some slot =>
        match g.owned? slot with
        | none => g.refuse address "realloc of memory that is not allocated"
        | some (header, owner) =>
            if address ≠ slot.user then
              g.refuse address "realloc of a pointer into the middle of an allocation"
            else if (g.heap.classFor? size).map (·.index) = some slot.region then
              g.resizeSlot slot header size
            else g.relocate address header.size owner size grant

end TypedHeap.Guard
