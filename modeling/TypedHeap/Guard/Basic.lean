import TypedHeap.Heap.Basic
import TypedHeap.LargeHeap
import TypedHeap.Memory
import TypedHeap.Pointer
import TypedHeap.Registry
import TypedHeap.Report.Journal

/-! # Guards

A guard is one instance of the safety layer: the heap and its memory, the registered types, and
what was counted and written so far. Several can stand side by side.
-/

namespace TypedHeap

structure Guard where
  config : Config
  registry : Registry
  heap : Heap
  large : LargeHeap
  memory : Memory
  tally : Tally
  /-- The lines written, the last one first. -/
  journal : List Line
  halted : Bool

namespace Guard

def create (config : Config) (registry : Registry) (raw : Nat) (skips : Nat → Nat) :
    Except HeapError Guard :=
  (Heap.create config raw skips).map fun heap =>
    { config, registry, heap
      large := .empty
      memory := .blank
      tally := .zero
      journal := []
      halted := false }

/-! ## Counting and writing -/

def counts (g : Guard) (c : Counter) : Bool := g.config.profile || c.alwaysOn

def bump (g : Guard) (c : Counter) : Guard :=
  if g.halted || !g.counts c then g
  else { g with tally := g.tally.countOnce g.config.singleThreaded c }

def write (g : Guard) (line : Line) : Guard :=
  if g.halted then g else { g with journal := line :: g.journal }

def trace (g : Guard) (line : Line) : Guard := if g.config.debug then g.write line else g

def halt (g : Guard) (line : Line) : Guard := { g.write line with halted := true }

def report (g : Guard) (v : Violation) : Guard :=
  let g := (g.bump v.fault.counter).write (.violation v)
  if g.config.fatal then g.halt .stopping else g

def flush (g : Guard) : List Line × Guard := (g.journal.reverse, { g with journal := [] })

/-! ## Parts of the state -/

def setHeader (g : Guard) (base : Nat) (header : Header) : Guard :=
  { g with heap := g.heap.setHeader base header }

def renew (g : Guard) (base : Nat) (header : Header) : Guard :=
  { g with heap := g.heap.renew base header }

def capture (g : Guard) (address : Nat) : Pointer :=
  ⟨address, ((g.heap.resolve? address).bind g.heap.live?).map (·.epoch)⟩

/-- The allocation in use around an address: everything for foreign memory, nothing if there is
none. -/
def boundsAt (g : Guard) (address : Nat) : Bounds :=
  match g.heap.resolve? address with
  | none => .wideAround address
  | some slot =>
      match g.heap.live? slot with
      | some header => slot.object header.size
      | none => .emptyAt address

end Guard

end TypedHeap
