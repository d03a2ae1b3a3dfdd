import TypedHeap.Guard.Bytes

/-! # Freeing

Only the start of an object in use can be freed. Everything else is reported and changes nothing
but counters. A freed slot keeps its epoch, belongs to free memory and waits in its region.
-/

namespace TypedHeap

/-- What a free of an address in the heap comes down to. -/
inductive Release where
  | refused (v : Violation)
  /-- The slot is free, has this header and no tags. -/
  | released (header : Header)

/-- What a free of `address`, which lies in `slot`, comes down to if one thread alone uses the heap,
or if others may. -/
def Heap.releaseOf (h : Heap) (alone : Bool) (slot : Slot) (address : Nat) : Release :=
  match h.claimed? slot with
  | none => .refused (.badFree address "never allocated")
  | some header =>
      if !header.isSane then .refused (.sanity address slot.base)
      else if address ≠ slot.user then .refused (.badFree address "not the start of an allocation")
      else
        match header.releaseBy alone with
        | .ok header => .released header.retire
        | .error (some .freed) => .refused (.doubleFree address)
        | .error _ => .refused (.badFree address "never allocated")

namespace Guard

/-- Put a slot back into its region. Large ones give their memory back and read as zeros. -/
def putSlot (g : Guard) (region base : Nat) : Guard :=
  let g := match g.heap.reclaimed? region base with
    | some (start, length) =>
        let pages := pagesWithin start length
        g.setBytes pages.1 pages.2 0
    | none => g
  { g with heap := g.heap.putBack region base }

def freeLarge (g : Guard) (address : Nat) : Guard :=
  match g.large.free address with
  | (.freed, large) => { g with large }
  | (.alreadyFreed, _) => g.report (.doubleFree address)
  | (.notOurs, _) => g.report (.badFree address "not a heap allocation")

/-- End the allocation that starts at `address`. The null address is passed over. -/
def free (g : Guard) (address : Nat) : Guard :=
  if address = 0 then g
  else
    let g := g.bump .frees
    match g.heap.resolve? address with
    | none => g.freeLarge address
    | some slot =>
        match g.heap.releaseOf g.config.singleThreaded slot address with
        | .refused v => g.report v
        | .released header =>
            ((g.renew slot.base header).putSlot slot.region slot.base).trace
              (.freed address header.epoch)

end Guard

end TypedHeap
