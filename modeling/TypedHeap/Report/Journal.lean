import TypedHeap.Report.Violation
import TypedHeap.TypeHash.Text

/-! # The journal

The lines an instance writes while it works: errors always, traces on request.
-/

namespace TypedHeap

inductive AllocError where
  | regionExhausted (size : Nat)
  | unknownType (hash : TypeHash)
  | overflow
  | outOfMemory (size : Nat)
  | invalidPointer (address : Nat)
  /-- There is no answer: the program stops. -/
  | fault (f : ArithmeticFault)
  deriving DecidableEq

/-- The message, with addresses written by `at_`. -/
def AllocError.render (at_ : Nat → String) : AllocError → String
  | regionExhausted size => "region for size class " ++ toString size ++ " is exhausted"
  | unknownType hash => "no type is registered under " ++ toString hash
  | overflow => "allocation size overflows"
  | outOfMemory size => "out of memory allocating " ++ toString size ++ " bytes"
  | invalidPointer a => at_ a ++ " is not a live allocation"
  | fault f => f.message

inductive Line where
  | violation (v : Violation)
  /-- The end of an instance that stops at the first violation. -/
  | stopping
  /-- No slot of this class is left. -/
  | exhausted (size : Nat)
  /-- The memory of a region could not be opened up to an address. -/
  | unopened (region upto : Nat) (reason : String)
  /-- A caller that cannot handle the failure was refused. -/
  | refused (e : AllocError)
  | operatorFailed (size : Nat)
  | startFailed (reason : String)
  /-- The end of an instance that stops at a fault. -/
  | panicked (f : ArithmeticFault)
  | checked (address : Nat) (typeName : String)
  | boundsChecked (address : Nat) (lb ub : Int) (allowed : Bounds)
  | allocated (size : Nat) (typeName : String) (address : Nat) (epoch : Epoch)
  | resized (address size : Nat) (epoch : Epoch)
  | freed (address : Nat) (epoch : Epoch)
  deriving DecidableEq

namespace Line

def isTrace : Line → Bool
  | checked .. | boundsChecked .. | allocated .. | resized .. | freed .. => true
  | _ => false

def text (at_ : Nat → String) : Line → String
  | violation v => v.render at_
  | stopping => "aborting on first error"
  | exhausted size => "size class " ++ toString size ++ " has no slots left"
  | unopened region upto reason =>
      "could not open region " ++ toString region ++ " up to " ++ at_ upto ++ ": " ++ reason
  | refused e => e.render at_
  | operatorFailed size => "operator new(" ++ toString size ++ ") failed"
  | startFailed reason => "tyche failed to start: " ++ reason
  | panicked f => f.message
  | checked a typeName => "type_check " ++ at_ a ++ " as " ++ typeName
  | boundsChecked a lb ub allowed =>
      "bounds_check " ++ at_ a ++ " [" ++ toString lb ++ ", " ++ toString ub ++ ") in " ++
        allowed.render at_
  | allocated size typeName a epoch =>
      "allocate " ++ toString size ++ " bytes of \x60" ++ typeName ++ "\x60 at " ++ at_ a ++ " (" ++
        epochText epoch ++ ")"
  | resized a size epoch =>
      "reallocate " ++ at_ a ++ " in place to " ++ toString size ++ " bytes (" ++
        epochText epoch ++ ")"
  | freed a epoch => "free " ++ at_ a ++ " (" ++ epochText epoch ++ ")"

def render (at_ : Nat → String) (l : Line) : String :=
  (if l.isTrace then "trace: " else "error: ") ++ l.text at_

end Line

end TypedHeap
