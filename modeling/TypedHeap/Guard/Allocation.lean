import TypedHeap.Guard.Bytes

/-! # Allocation

An object gets a slot of the smallest class that holds it and a header, or a block of the large
heap if there is no such class. Memory of an earlier object is not cleared unless asked for.
-/

namespace TypedHeap

def Registry.objectType? (r : Registry) (type : TypeHash) : Option TypeRecord :=
  (r.find? type).filter (·.hash ≠ .free)

/-- What is answered from outside when a request for an object asks for memory. -/
structure Grant where
  /-- The reason why no memory can be opened, if there is one. -/
  refusal : Option String
  /-- The address of a block of the outer allocator, if it has one. -/
  block : Option Nat

namespace Guard

def takeSlot (g : Guard) (c : SizeClass) (refusal : Option String) : Except AllocError Nat × Guard :=
  match g.heap.take c.index refusal with
  | (.slot base, heap) => (.ok base, { g with heap })
  | (.exhausted, heap) =>
      (.error (.regionExhausted c.size), { g with heap }.write (.exhausted c.size))
  | (.refused upto reason, heap) =>
      (.error (.outOfMemory c.size), { g with heap }.write (.unopened c.index upto reason))

def allocateSlot (g : Guard) (c : SizeClass) (owner : TypeRecord) (size : Nat) (zeroed : Bool)
    (refusal : Option String) : Except AllocError Bounds × Guard :=
  match g.takeSlot c refusal with
  | (.error e, g) => (.error e, g)
  | (.ok base, g) =>
      match g.header? c.index base with
      | none => (.error (.outOfMemory size), g)
      | some header =>
          let user := base + headerSize
          let g := g.clear user size zeroed
          -- The object is cleared before the header makes it one.
          match header.nextEpoch with
          | .error f => (.error (.fault f), g.halt (.panicked f))
          | .ok epoch =>
              let g := g.putHeader base (header.claim (g.registry.reference owner.hash) size epoch)
              (.ok ⟨user, user + size⟩, g.trace (.allocated size owner.name user epoch))

def allocateLarge (g : Guard) (size : Nat) (zeroed : Bool) (block : Option Nat) :
    Except AllocError Bounds × Guard :=
  match g.large.allocate? block size with
  | none => (.error (.outOfMemory size), g)
  | some (address, large) =>
      (.ok ⟨address, address + size⟩, { g with large }.clear address (LargeHeap.blockSize size) zeroed)

def allocateObject (g : Guard) (size : Nat) (type : TypeHash) (zeroed : Bool) (grant : Grant) :
    Except AllocError Bounds × Guard :=
  match g.registry.objectType? type with
  | none => (.error (.unknownType type), g)
  | some owner =>
      let g := g.bump .allocations
      match g.heap.classFor? size with
      | none => g.allocateLarge size zeroed grant.block
      | some c => g.allocateSlot c owner size zeroed grant.refusal

def allocate (g : Guard) (size : Nat) (type : TypeHash) (grant : Grant) :
    Except AllocError Bounds × Guard :=
  g.allocateObject size type false grant

def allocateZeroed (g : Guard) (count size : Nat) (type : TypeHash) (grant : Grant) :
    Except AllocError Bounds × Guard :=
  if Word.limit ≤ count * size then (.error .overflow, g)
  else g.allocateObject (count * size) type true grant

end Guard

end TypedHeap
