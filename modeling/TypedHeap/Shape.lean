/-! # Shapes

A shape describes a type for a reader: its name, its size and its named members, each with a
shape of its own. A member without an upper end is a flexible array.
-/

namespace TypedHeap

mutual

inductive Shape where
  | mk (name : String) (size : Nat) (isUnion flexible : Bool) (members : List Member)

inductive Member where
  | mk (name : String) (type : Shape) (lower : Nat) (upper : Option Nat)

end

namespace Shape

def name : Shape → String
  | .mk name _ _ _ _ => name

def size : Shape → Nat
  | .mk _ size _ _ _ => size

def isUnion : Shape → Bool
  | .mk _ _ isUnion _ _ => isUnion

def flexible : Shape → Bool
  | .mk _ _ _ flexible _ => flexible

def members : Shape → List Member
  | .mk _ _ _ _ members => members

def primitive (name : String) (size : Nat) : Shape := .mk name size false false []

def isAggregate (s : Shape) : Bool := !s.members.isEmpty

instance : Inhabited Shape := ⟨primitive "" 0⟩

end Shape

namespace Member

def name : Member → String
  | .mk name _ _ _ => name

def type : Member → Shape
  | .mk _ type _ _ => type

def lower : Member → Nat
  | .mk _ _ lower _ => lower

def upper : Member → Option Nat
  | .mk _ _ _ upper => upper

def contains (m : Member) (offset : Nat) : Bool :=
  m.lower ≤ offset && m.upper.all (offset < ·)

def count (m : Member) : Option Nat :=
  m.upper.map fun upper => if m.type.size = 0 then 1 else (upper - m.lower) / m.type.size

def isArray (m : Member) : Bool := m.count != some 1

/-- The distance between elements, at least one byte. -/
def stride (m : Member) : Nat := max m.type.size 1

def summary (m : Member) : String :=
  let count := match m.count with
    | none => "[]"
    | some n => if m.isArray then "[" ++ toString n ++ "]" else ""
  m.type.name ++ " " ++ m.name ++ count ++ "; "

end Member

namespace Shape

/-- The first member that covers `offset`, and the offset within it. -/
def memberAt? (s : Shape) (offset : Nat) : Option (Member × Nat) :=
  (s.members.find? (·.contains offset)).map fun m => (m, offset - m.lower)

def summary (s : Shape) : String :=
  if s.isAggregate then
    s.name ++ " \x7b " ++ String.join (s.members.map Member.summary) ++ "\x7d"
  else s.name

end Shape

end TypedHeap
