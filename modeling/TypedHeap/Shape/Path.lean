import TypedHeap.Shape

/-! # Access paths

The path to an offset goes through an element of the type, when the offset lies past the first,
then from member to member, and ends with the bytes left over in a type none of whose members
covers them.
-/

namespace TypedHeap

/-- One member on the way and the element of it that is entered. -/
structure AccessPath.Step where
  member : Member
  index : Nat

structure AccessPath where
  root : String
  element : Option Nat
  steps : List AccessPath.Step
  rest : Nat

mutual

/-- The members on the way to `offset`, and the bytes left over. -/
def Shape.descend : Shape → Nat → List AccessPath.Step × Nat
  | .mk _ _ _ _ members, offset => Member.descendFirst members offset

def Member.descendFirst : List Member → Nat → List AccessPath.Step × Nat
  | [], offset => ([], offset)
  | .mk name type lower upper :: others, offset =>
      if (Member.mk name type lower upper).contains offset then
        let stride := (Member.mk name type lower upper).stride
        let inner := type.descend ((offset - lower) % stride)
        (⟨.mk name type lower upper, (offset - lower) / stride⟩ :: inner.1, inner.2)
      else Member.descendFirst others offset

end

namespace Shape

/-- Whether an offset past the end belongs to a later element. -/
def wrapsAt (s : Shape) (offset : Nat) : Bool :=
  0 < s.size && s.size ≤ offset && !s.flexible

/-- The path to `offset` of consecutive objects of the type. -/
def pathTo (s : Shape) (offset : Nat) : AccessPath :=
  if s.wrapsAt offset then
    let inner := s.descend (offset % s.size)
    ⟨s.name, some (offset / s.size), inner.1, inner.2⟩
  else
    let inner := s.descend offset
    ⟨s.name, none, inner.1, inner.2⟩

end Shape

namespace AccessPath

def indexText (n : Nat) : String := "[" ++ toString n ++ "]"

def Step.render (s : Step) : String :=
  "." ++ s.member.name ++ (if s.member.isArray then indexText s.index else "")

/-- The text of a path, such as `struct S[2].inner.buf[3] +1`. -/
def render (p : AccessPath) : String :=
  p.root ++ p.element.elim "" indexText ++ String.join (p.steps.map Step.render) ++
    (if p.rest = 0 then "" else " +" ++ toString p.rest)

end AccessPath

def Shape.describe (s : Shape) (offset : Nat) : String := (s.pathTo offset).render

end TypedHeap
