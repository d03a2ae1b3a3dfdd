import TypedHeap.Hex
import TypedHeap.Word

/-! # Bounds

A `Reach` says how far an object extends around an address, in relative terms; `Bounds` are an
absolute range of addresses, lower end included and upper end not.
-/

namespace TypedHeap

structure Reach where
  lower : Int
  upper : Int
  deriving DecidableEq, Inhabited

namespace Reach

/-- Half the width of the reach about which nothing is known: 16 GiB. -/
def halfWidth : Int := 16 * 2 ^ 30

def wide : Reach := ⟨-halfWidth, halfWidth⟩

def isWide (r : Reach) : Bool := r = wide

end Reach

structure Bounds where
  lower : Nat
  upper : Nat
  deriving DecidableEq, Inhabited

namespace Bounds

/-- Bounds of no width: an access of at least one byte fails against them. -/
def emptyAt (address : Nat) : Bounds := ⟨address, address⟩

/-- `offset` from `address`, kept within the address space. -/
def clampedAt (address : Nat) (offset : Int) : Nat :=
  min (address + offset).toNat Word.last

def around (address : Nat) (reach : Reach) : Bounds :=
  ⟨clampedAt address reach.lower, clampedAt address reach.upper⟩

def wideAround (address : Nat) : Bounds := around address .wide

/-- The common part of two ranges; disjoint ranges give an empty one at an end of `c`. -/
def intersect (b c : Bounds) : Bounds :=
  let lower := max b.lower c.lower
  let upper := min b.upper c.upper
  if lower ≤ upper then ⟨lower, upper⟩ else emptyAt (min lower c.upper)

def length (b : Bounds) : Nat := b.upper - b.lower

def isEmpty (b : Bounds) : Bool := b.length = 0

def remaining (b : Bounds) (address : Nat) : Nat :=
  if b.lower ≤ address ∧ address ≤ b.upper then b.upper - address else 0

def admits (b : Bounds) (address : Nat) (lb ub : Int) : Bool :=
  (b.lower : Int) ≤ address + lb ∧ address + ub ≤ (b.upper : Int)

theorem intersect_within (b : Bounds) {c : Bounds} (h : c.lower ≤ c.upper) :
    (b.intersect c).lower ≤ (b.intersect c).upper ∧
      c.lower ≤ (b.intersect c).lower ∧ (b.intersect c).upper ≤ c.upper := by
  simp only [intersect, emptyAt]
  split <;> simp only <;> omega

theorem admits_emptyAt (a address : Nat) {lb ub : Int} (h : lb < ub) :
    (emptyAt a).admits address lb ub = false :=
  decide_eq_false fun ⟨below, above⟩ => by simp only [emptyAt] at below above; omega

def render (address : Nat → String) (b : Bounds) : String :=
  address b.lower ++ ".." ++ address b.upper

instance : ToString Bounds := ⟨render Hex.short⟩

end Bounds

end TypedHeap
