import TypedHeap.Heap.Header
import TypedHeap.Queue
import TypedHeap.Reservation
import TypedHeap.SizeClass

/-! # Regions

A region is the window of addresses for one size class. Slots are carved from its start upwards;
memory is opened in chunks ahead of them and never closed again. Freed slots wait in a queue and
are taken first. Whether memory can be opened is the system's answer and therefore an argument.
-/

namespace TypedHeap

structure Region where
  index : Nat
  size : Nat
  start : Nat
  /-- The end of the last whole slot. -/
  finish : Nat
  windowEnd : Nat
  /-- The first slot that is ever handed out. -/
  first : Nat
  /-- The lowest address that can be read. -/
  openFrom : Nat
  /-- The end of the memory that can be read. -/
  openTo : Nat
  /-- The next slot that was never handed out. -/
  next : Nat
  free : Queue Nat

namespace Region

def chunkSize : Nat := 64 * 2 ^ 10

def skipLimit : Nat := 16

/-- The region for a class in a heap of windows of `2 ^ shift` bytes, without its first `skip`
slots. -/
def create (heapStart shift skip : Nat) (c : SizeClass) : Region :=
  let start := heapStart + c.index <<< shift
  let first := start + skip * c.size
  let openFrom := roundDown first pageSize
  { index := c.index
    size := c.size
    start
    finish := start + 2 ^ shift / c.size * c.size
    windowEnd := start + 2 ^ shift
    first
    openFrom
    openTo := openFrom
    next := first
    free := .empty }

def used (r : Region) : Nat := (r.next - r.first) / r.size

def freeCount (r : Region) : Nat := r.free.length

/-- Whether the header at any address lies in open memory. -/
def accessible (r : Region) (base : Nat) : Checked Bool :=
  if base < r.openFrom then .ok false
  else (Word.add? base headerSize).map fun finish => finish ≤ r.openTo

/-- The same for the base of a slot, behind which a header never exceeds the words. -/
def readable (r : Region) (base : Nat) : Bool :=
  r.openFrom ≤ base && base + headerSize ≤ r.openTo

/-- How far memory is opened when it must be open up to `upto`: by a whole chunk, if the window has
room for it. -/
def reach (r : Region) (upto : Nat) : Nat :=
  min (max (roundUp upto pageSize) (r.openTo + chunkSize)) r.windowEnd

def opening? (r : Region) (upto : Nat) : Option (Nat × Nat) :=
  if upto ≤ r.openTo then none else some (r.openTo, r.reach upto - r.openTo)

/-- Open memory up to `upto` at least, unless the system gives a reason against it. -/
def grow (r : Region) (refusal : Option String) (upto : Nat) : Except String Region :=
  match r.opening? upto, refusal with
  | none, _ => .ok r
  | some _, none => .ok { r with openTo := r.reach upto }
  | some _, some reason => .error reason

inductive Taken where
  | slot (base : Nat)
  | exhausted
  /-- Memory could not be opened up to `upto`. The slot that was carved is lost. -/
  | refused (upto : Nat) (reason : String)

/-- Take the slot that waited longest, or else carve a new one. -/
def take (r : Region) (refusal : Option String) : Taken × Region :=
  match r.free.pop? with
  | some (base, free) => (.slot base, { r with free })
  | none =>
      if r.finish < r.next + r.size then (.exhausted, r)
      else
        -- The slot counts as handed out, whether or not its memory can be opened.
        let carved := { r with next := r.next + r.size }
        match carved.grow refusal carved.next with
        | .ok grown => (.slot r.next, grown)
        | .error reason => (.refused (carved.reach carved.next) reason, carved)

def putBack (r : Region) (base : Nat) : Region := { r with free := r.free.push base }

def baseOf (r : Region) (address : Nat) : Nat :=
  r.start + (Reciprocal.ofDivisor r.size).div (address - r.start) * r.size

end Region

end TypedHeap
