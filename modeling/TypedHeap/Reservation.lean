import TypedHeap.Memory
import TypedHeap.Word

/-! # Reserved address space

A reservation is made larger than asked for, so that an aligned range of the wanted size lies in
it, and trimmed to that range.
-/

namespace TypedHeap

/-- The pages of the system are taken to be of 4096 bytes, which divide every region size. -/
def pageSize : Nat := 4096

structure Reservation where
  start : Nat
  size : Nat
  deriving DecidableEq

inductive ReservationError where
  | invalidInput
  | outOfMemory
  /-- There is no answer: the program stops. -/
  | fault (f : ArithmeticFault)
  deriving DecidableEq

def ReservationError.message : ReservationError → String
  | invalidInput => "InvalidInput"
  | outOfMemory => "OutOfMemory"
  | fault f => f.message

/-- The pages that the `length` bytes from `start` on touch, as the start of the first and the end of
the last one. -/
def pagesTouched (start length : Nat) : Nat × Nat :=
  (roundDown start pageSize, roundUp (start + length) pageSize)

namespace Reservation

/-- The whole pages for `size` bytes, and the span to ask for when they are to be aligned to
`alignment`. The request makes sense if the size is not zero, the alignment is a power of two and the
span is a word. -/
def plan (size alignment : Nat) : Except ReservationError (Nat × Nat) := do
  if size = 0 ∨ isPowerOfTwo alignment = false then .error .invalidInput
  let pages ← (roundUp? size pageSize).mapError .fault
  let span := pages + max alignment pageSize
  if span < Word.limit then .ok (pages, span) else .error .invalidInput

/-- A range in a mapped span, and how many bytes in front of it and behind it are given back. -/
structure Cut where
  range : Reservation
  head : Nat
  tail : Nat

def trim (raw span size alignment : Nat) : Checked Cut := do
  let start ← roundUp? raw (max alignment pageSize)
  let head ← Word.sub? start raw
  let rest ← Word.sub? span head
  let tail ← Word.sub? rest size
  .ok ⟨⟨start, size⟩, head, tail⟩

/-- Reserve `size` bytes at a multiple of `alignment`, where `place` says at which address a span
comes to lie, if there is room for it. -/
def reserve (place : Nat → Option Nat) (size alignment : Nat) :
    Except ReservationError Reservation := do
  let (pages, span) ← plan size alignment
  match place span with
  | none => .error .outOfMemory
  | some raw => do
      let cut ← (trim raw span pages alignment).mapError .fault
      .ok cut.range

def contains (r : Reservation) (address : Nat) : Bool :=
  r.start ≤ address && address - r.start < r.size

/-- The pages that a range touches can be opened: all of them are reserved. -/
def canOpen (r : Reservation) (start length : Nat) : Bool :=
  let pages := pagesTouched start length
  pages.2 ≤ pages.1 || r.start ≤ pages.1 && pages.2 ≤ r.start + r.size

end Reservation

def pagesWithin (start length : Nat) : Nat × Nat :=
  let lo := roundUp start pageSize
  (lo, roundDown (start + length) pageSize - lo)

/-- Give the whole pages inside a range back: they read as zeros. -/
def Memory.reclaim (m : Memory) (start length : Nat) : Memory :=
  let pages := pagesWithin start length
  m.set pages.1 pages.2 0

end TypedHeap
