import TypedHeap.Guard.Check
import TypedHeap.Guard.Copy
import TypedHeap.Guard.Describe
import TypedHeap.Guard.Reallocation

/-! # Calls from compiled code

Callers without exceptions: an allocation answers an address, zero for the failures such callers
expect, and any other failure ends the instance, as a fault does. Epoch zero stands for an unknown
one.
-/

namespace TypedHeap.Interface

/-- Failures that are answered with the null address. -/
def isRecoverable : AllocError → Bool
  | .overflow | .outOfMemory _ | .invalidPointer _ => true
  | .regionExhausted _ | .unknownType _ | .fault _ => false

def handOut : Except AllocError Bounds × Guard → Nat × Guard
  | (.ok b, g) => (b.lower, g)
  | (.error e, g) => (0, if isRecoverable e then g else g.halt (.refused e))

def malloc (g : Guard) (size : Nat) (type : TypeHash) (grant : Grant) : Nat × Guard :=
  handOut (g.allocate size type grant)

def calloc (g : Guard) (count size : Nat) (type : TypeHash) (grant : Grant) : Nat × Guard :=
  handOut (g.allocateZeroed count size type grant)

def realloc (g : Guard) (address size : Nat) (grant : Grant) : Nat × Guard :=
  handOut (g.reallocate address size grant)

def new (g : Guard) (size : Nat) (type : TypeHash) (grant : Grant) : Nat × Guard :=
  let (address, g) := malloc g size type grant
  (address, if address = 0 then g.halt (.operatorFailed size) else g)

def epochAt (g : Guard) (address : Nat) : Nat := (g.capture address).epoch.getD 0

def answerCheck : Checked Bounds × Guard → Checked Bounds × Guard
  | (.ok b, g) => (.ok b, g)
  | (.error f, g) => (.error f, g.halt (.panicked f))

def check (g : Guard) (address : Nat) (expected : TypeHash) : Checked Bounds × Guard :=
  answerCheck (g.checkType address expected)

def checkEpoch (g : Guard) (address epoch : Nat) (expected : TypeHash) : Checked Bounds × Guard :=
  answerCheck (g.checkPointer ⟨address, if epoch = 0 then none else some epoch⟩ expected)

def memset (g : Guard) (target : Nat) (value : Int) (length : Nat) : Guard :=
  g.fill target (value % 256).toNat.toUInt8 length

def errorCounts (t : Tally) : List Nat :=
  [t.typeErrors, t.boundsErrors, t.useAfterFreeErrors, t.doubleFreeErrors, t.badFreeErrors,
    t.sanityErrors]

def dumpText (g : Guard) (at_ : Nat → String) (address : Nat) : String :=
  g.describe at_ address ++ "\n"

end TypedHeap.Interface
