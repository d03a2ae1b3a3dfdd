import TypedHeap.Guard.Basic
import TypedHeap.Shape.Path

/-! # Checks

A type check goes from the address to its slot, from there to the header and to the tag for the
address, and to the layout table of the slot's type if the tag does not help. What it finds is a
verdict, which depends on the state only; settling it counts, remembers and reports. A check that
finds a violation answers bounds of no width, so that the access after it fails as well.
-/

namespace TypedHeap

structure Verdict where
  /-- What is counted, besides the check itself. -/
  counters : List Counter
  /-- The base of a slot, a granule and the tag to keep for it. -/
  tag : Option (Nat × Nat × Cache.Tag)
  violation : Option Violation
  bounds : Checked Bounds

namespace Verdict

def pass (counters : List Counter) (bounds : Bounds) : Verdict := ⟨counters, none, none, .ok bounds⟩

def fail (counters : List Counter) (address : Nat) (v : Violation) : Verdict :=
  ⟨counters, none, some v, .ok (.emptyAt address)⟩

def fault (f : ArithmeticFault) : Verdict := ⟨[], none, none, .error f⟩

end Verdict

/-- The entry that the tag for an offset leads to, if it is the one for the type and offset. -/
def TypeRecord.recall? (owner : TypeRecord) (cache : Cache.Chain) (expected : TypeHash)
    (offset : Nat) : Option Layout.Entry :=
  match (cache.load (Cache.granuleOf offset)).slotFor? expected with
  | none => none
  | some place => (owner.table.entry? place).filter (·.isFor expected offset)

def Slot.tagFor (slot : Slot) (expected : TypeHash) (offset place : Nat) :
    Option (Nat × Nat × Cache.Tag) :=
  (Cache.Tag.of? expected place).map fun tag => (slot.base, Cache.granuleOf offset, tag)

namespace Verdict

/-- Whether an object of type `expected` lies at an address behind the header of a slot with an
object of `size` bytes and the type `owner`, of which `cache` has the tags. The address lies at
`offset` of one element. -/
def ofOffset (registry : Registry) (slot : Slot) (size : Nat) (cache : Cache.Chain)
    (owner : TypeRecord) (address : Nat) (expected : TypeHash) (offset : Nat) : Verdict :=
  let boundsOf (e : Layout.Entry) : Bounds :=
    (Bounds.around address e.reach).intersect (slot.object size)
  let mismatch : Violation :=
    .type address (registry.nameOf expected) (owner.shape.describe (address - slot.user))
  match owner.recall? cache expected offset with
  | some e => pass [.fastTypeChecks] (boundsOf e)
  | none =>
      let counters : List Counter := [.slowTypeChecks, .registryLookups]
      match owner.lookup expected offset with
      | .hit place e =>
          { pass counters (boundsOf e) with tag := slot.tagFor expected offset place }
      | missed =>
          let counters := counters ++ if missed = .probeLimit then [.probeLimitMisses] else []
          match (registry.find? expected).bind (·.coercion) with
          | none => fail counters address mismatch
          | some coerced =>
              let counters := counters ++ [.registryLookups]
              match owner.lookup coerced offset with
              | .hit _ e => pass counters (boundsOf e)
              | _ => fail counters address mismatch

def ofType (registry : Registry) (slot : Slot) (size : Nat) (cache : Cache.Chain)
    (owner : TypeRecord) (address : Nat) (expected : TypeHash) : Verdict :=
  match owner.fold (address - slot.user) with
  | .error f => fault f
  | .ok offset => ofOffset registry slot size cache owner address expected offset

def ofLive (registry : Registry) (slot : Slot) (header : Header) (cache : Cache.Chain)
    (p : Pointer) (expected : TypeHash) : Verdict :=
  let whole := slot.object header.size
  if slot.inHeader p.address then fail [] p.address (.bounds p.address 0 1 whole)
  else if expected = .int8 then pass [.charTypeChecks] whole
  else
    match registry.referred? header.owner with
    | none => fail [] p.address (.sanity p.address slot.base)
    | some owner =>
        if owner.hash = .free then
          fail [] p.address (.useAfterFree p.address slot.user p.epoch header.epoch)
        else ofType registry slot header.size cache owner p.address expected

end Verdict

namespace Guard

def judge (g : Guard) (p : Pointer) (expected : TypeHash) : Verdict :=
  let fail := Verdict.fail [] p.address
  match g.heap.resolve? p.address with
  | none => .pass [.nonFatTypeChecks] (.wideAround p.address)
  | some slot =>
      match g.heap.claimed? slot with
      | none => fail (.type p.address (g.registry.nameOf expected) TypeRecord.freeName)
      | some header =>
          let stale : Violation := .useAfterFree p.address slot.user p.epoch header.epoch
          if !header.isSane then fail (.sanity p.address slot.base)
          else if header.phase = some .freed then fail stale
          else if !header.isAllocated then fail (.sanity p.address slot.base)
          else if p.isStale header.epoch then fail stale
          else .ofLive g.registry slot header (g.heap.chainOf header) p expected

def remember (g : Guard) (base granule : Nat) (tag : Cache.Tag) : Guard :=
  { g with heap := g.heap.keepTag base granule tag }

def settle (g : Guard) (v : Verdict) : Guard :=
  let g := v.counters.foldl bump g
  let g := match v.tag with
    | none => g
    | some (base, granule, tag) => g.remember base granule tag
  match v.violation with
  | none => g
  | some violation => g.report violation

/-- Check that an object of type `expected` lies at `p`, and answer how far an access may go. -/
def checkPointer (g : Guard) (p : Pointer) (expected : TypeHash) : Checked Bounds × Guard :=
  let g := (g.bump .typeChecks).trace (.checked p.address (g.registry.nameOf expected))
  let v := g.judge p expected
  (v.bounds, g.settle v)

def checkType (g : Guard) (address : Nat) (expected : TypeHash) : Checked Bounds × Guard :=
  g.checkPointer (.untracked address) expected

/-- Check that `[address + lb, address + ub)` lies within `allowed`. -/
def checkBounds (g : Guard) (allowed : Bounds) (address : Nat) (lb ub : Int) : Guard :=
  let g := (g.bump .boundsChecks).trace (.boundsChecked address lb ub allowed)
  if allowed.admits address lb ub then g else g.report (.bounds address lb ub allowed)

end Guard

end TypedHeap
