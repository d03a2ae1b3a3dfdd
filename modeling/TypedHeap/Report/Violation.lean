import TypedHeap.Bounds.Json
import TypedHeap.Heap.Header
import TypedHeap.Report.Counter

/-! # Violations

What a check can find wrong. Texts take the way addresses are written as an argument.
-/

namespace TypedHeap

inductive Fault where
  | type
  | bounds
  | useAfterFree
  | doubleFree
  | badFree
  | sanity
  deriving DecidableEq

namespace Fault

def name : Fault → String
  | type => "Type"
  | bounds => "Bounds"
  | useAfterFree => "UseAfterFree"
  | doubleFree => "DoubleFree"
  | badFree => "BadFree"
  | sanity => "Sanity"

def counter : Fault → Counter
  | type => .typeErrors
  | bounds => .boundsErrors
  | useAfterFree => .useAfterFreeErrors
  | doubleFree => .doubleFreeErrors
  | badFree => .badFreeErrors
  | sanity => .sanityErrors

end Fault

inductive Violation where
  /-- `found` is the access path to what lies at the address. -/
  | type (address : Nat) (expected found : String)
  | bounds (address : Nat) (lb ub : Int) (allowed : Bounds)
  | useAfterFree (address object : Nat) (captured : Option Epoch) (current : Epoch)
  | doubleFree (address : Nat)
  | badFree (address : Nat) (reason : String)
  | sanity (address base : Nat)
  deriving DecidableEq

namespace Violation

def fault : Violation → Fault
  | type .. => .type
  | bounds .. => .bounds
  | useAfterFree .. => .useAfterFree
  | doubleFree .. => .doubleFree
  | badFree .. => .badFree
  | sanity .. => .sanity

private def capturedText : Option Epoch → String
  | none => "None"
  | some e => "Some(" ++ epochText e ++ ")"

def render (at_ : Nat → String) : Violation → String
  | type a expected found =>
      "type error at " ++ at_ a ++ ": expected \x60" ++ expected ++ "\x60, found \x60" ++ found ++ "\x60"
  | bounds a lb ub allowed =>
      "bounds error at " ++ at_ a ++ ": access [" ++ toString lb ++ ", " ++ toString ub ++
        ") outside " ++ allowed.render at_
  | useAfterFree a object captured current =>
      "use-after-free at " ++ at_ a ++ " (allocation " ++ at_ object ++ ", epoch " ++
        epochText current ++ ", pointer from " ++ capturedText captured ++ ")"
  | doubleFree a => "double free of " ++ at_ a
  | badFree a reason => "bad free of " ++ at_ a ++ ": " ++ reason
  | sanity a base => "corrupted allocation metadata at " ++ at_ base ++ " (accessing " ++ at_ a ++ ")"

instance : ToString Violation := ⟨render Hex.short⟩

open Json in
def toJson (v : Violation) : Value :=
  let members : List (String × Value) := match v with
    | type a expected found => [("ptr", .nat a), ("expected", .text expected), ("found", .text found)]
    | bounds a lb ub allowed =>
        [("ptr", .nat a), ("lb", .int lb), ("ub", .int ub), ("bounds", allowed.toJson)]
    | useAfterFree a object captured current =>
        [("ptr", .nat a), ("base", .nat object), ("captured", .ofOption .nat captured),
          ("current", .nat current)]
    | doubleFree a => [("ptr", .nat a)]
    | badFree a reason => [("ptr", .nat a), ("reason", .text reason)]
    | sanity a base => [("ptr", .nat a), ("base", .nat base)]
  .ofMembers [(v.fault.name, .ofMembers members)]

end Violation

end TypedHeap
