import TypedHeap.Word

/-! # JSON values

A value keeps what the readers of this library need to tell apart: whether a number was written
as a plain integer, and whether a string stands for any text at all (an escape may name half of
a surrogate pair).
-/

namespace TypedHeap.Json

inductive Value where
  | null
  | bool (b : Bool)
  /-- A number written without fraction and exponent, other than minus zero. -/
  | int (n : Int)
  /-- Any other number, as it was written. -/
  | real (text : String)
  | text (s : String)
  /-- A string with an unpaired surrogate. -/
  | garbled
  | list (items : List Value)
  /-- Members in the order written; `none` is a garbled name. -/
  | record (members : List (Option String × Value))
  deriving Inhabited

namespace Value

def ofMembers (members : List (String × Value)) : Value :=
  .record (members.map fun m => (some m.1, m.2))

def nat (n : Nat) : Value := .int n

def ofOption {α : Type} (f : α → Value) : Option α → Value
  | none => .null
  | some a => f a

/-- The member called `name`, the first if there are several. -/
def member? (name : String) : Value → Option Value
  | .record members => (members.find? (·.1 = some name)).map (·.2)
  | _ => none

def text? : Value → Option String
  | .text s => some s
  | _ => none

def bool? : Value → Option Bool
  | .bool b => some b
  | _ => none

def list? : Value → Option (List Value)
  | .list items => some items
  | _ => none

def int? : Value → Option Int
  | .int n => some n
  | _ => none

def intWithin? (least most : Int) : Value → Option Int
  | .int n => if least ≤ n ∧ n ≤ most then some n else none
  | _ => none

def unsigned? (bits : Nat) (v : Value) : Option Nat :=
  (v.intWithin? 0 (2 ^ bits - 1)).map Int.toNat

def signed? (bits : Nat) (v : Value) : Option Int :=
  v.intWithin? (-2 ^ (bits - 1)) (2 ^ (bits - 1) - 1)

end Value

end TypedHeap.Json
