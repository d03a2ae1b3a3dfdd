import TypedHeap.Bounds
import TypedHeap.TypeHash

/-! # Layout entries

An entry says that an object of some type lies at some offset of another, and how far around
that offset the field extends to which it belongs.
-/

namespace TypedHeap.Layout

structure Entry where
  name : Option String
  offset : Nat
  hash : TypeHash
  reach : Reach
  deriving DecidableEq, Inhabited

namespace Entry

def empty : Entry := ⟨none, 0, .nil, ⟨0, 0⟩⟩

def isEmpty (e : Entry) : Bool := e.hash = .nil

def isFor (e : Entry) (hash : TypeHash) (offset : Nat) : Bool := e.hash = hash && e.offset = offset

def self (hash : TypeHash) : Entry := ⟨none, 0, hash, .wide⟩

end Entry

end TypedHeap.Layout
