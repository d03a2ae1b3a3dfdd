import TypedHeap.Guard.Bytes

/-! # Filling and copying

The length is held against what is left of each allocation from the pointer to its end. More is
reported, and the operation stops at the end of the shorter one. Foreign memory is trusted.
-/

namespace TypedHeap.Guard

def allowance (g : Guard) (address length : Nat) : Nat × Guard :=
  if length = 0 ∨ (g.heap.resolve? address).isNone then (length, g)
  else
    let g := g.bump .boundsChecks
    let allowed := g.boundsAt address
    let room := allowed.remaining address
    if room < length then
      (room, g.report (.bounds address 0 (min length Word.lastSigned) allowed))
    else (length, g)

def fill (g : Guard) (target : Nat) (value : UInt8) (length : Nat) : Guard :=
  let (n, g) := g.allowance target length
  if g.halted then g else g.setBytes target n value

/-- Copy `length` bytes from `source` on to `target`; the ranges may overlap. -/
def copy (g : Guard) (target source length : Nat) : Guard :=
  let (n, g) := g.allowance source length
  let (m, g) := g.allowance target length
  if g.halted then g else g.copyBytes target source (min n m)

end TypedHeap.Guard
