import Std.Data.TreeMap
import TypedHeap.Word

/-! # The heap for large objects

Objects without a size class are blocks of an outer allocator. Which address a block gets is the
outer allocator's choice and therefore an argument; this module keeps account of the blocks in
use and of those freed last.
-/

namespace TypedHeap

structure LargeHeap where
  /-- The sizes of the blocks in use, by address. -/
  live : Std.TreeMap Nat Nat
  /-- The addresses freed last and not handed out again, the oldest first. -/
  recent : List Nat

inductive LargeFree where
  | freed
  | alreadyFreed
  | notOurs
  deriving DecidableEq

namespace LargeHeap

def recentLimit : Nat := 256

def empty : LargeHeap := ⟨{}, []⟩

/-- The size of the block for an object: at least one byte. -/
def blockSize (size : Nat) : Nat := max size 1

def record (h : LargeHeap) (address size : Nat) : LargeHeap :=
  ⟨h.live.insert address size, h.recent.filter (· ≠ address)⟩

/-- Allocate a block at the address offered, if one is. -/
def allocate? (h : LargeHeap) (offer : Option Nat) (size : Nat) : Option (Nat × LargeHeap) :=
  offer.map fun address => (address, h.record address (blockSize size))

inductive Resized where
  | notOurs
  | failed
  /-- The block of `oldSize` bytes is now at `address`. -/
  | moved (address oldSize : Nat) (heap : LargeHeap)

def reallocate (h : LargeHeap) (offer : Option Nat) (address newSize : Nat) : Resized :=
  match h.live[address]?, offer with
  | none, _ => .notOurs
  | some _, none => .failed
  | some oldSize, some target =>
      .moved target oldSize
        ({ h with live := h.live.erase address }.record target (blockSize newSize))

/-- Remember a freed address; the oldest one is forgotten if there are too many. -/
def remember (recent : List Nat) (address : Nat) : List Nat :=
  (if recent.length = recentLimit then recent.drop 1 else recent) ++ [address]

def free (h : LargeHeap) (address : Nat) : LargeFree × LargeHeap :=
  if h.live.contains address then
    (.freed, { h with live := h.live.erase address, recent := remember h.recent address })
  else if h.recent.contains address then (.alreadyFreed, h)
  else (.notOurs, h)

def sizeOf? (h : LargeHeap) (address : Nat) : Option Nat := h.live[address]?

def count (h : LargeHeap) : Nat := h.live.size

end LargeHeap

end TypedHeap
