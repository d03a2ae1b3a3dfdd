import TypedHeap.Guard.Basic
import TypedHeap.Shape.Path

/-! # Descriptions

What an address points at, for a reader. Addresses are written by `at_`.
-/

namespace TypedHeap

inductive Place where
  | large (size : Nat)
  | foreign
  | unused (slot : Slot)
  | corrupted (slot : Slot)
  | object (slot : Slot) (header : Header) (owner : Option TypeRecord)

namespace Place

def objectLines (slot : Slot) (owner : Option TypeRecord) (address : Nat) : List String :=
  match owner with
  | none => ["  type   <missing>"]
  | some owner =>
      ["  type   " ++ owner.shape.summary,
        "  at     " ++
          if slot.inHeader address then "header +" ++ toString (address - slot.base)
          else owner.shape.describe (address - slot.user)]

def render (at_ : Nat → String) (address : Nat) (p : Place) : String :=
  at_ address ++ ": " ++
    match p with
    | large size => "legacy allocation of " ++ toString size ++ " bytes"
    | foreign => "not a heap pointer"
    | unused slot => "unused slot " ++ at_ slot.base ++ " (class " ++ toString slot.size ++ ")"
    | corrupted slot => "slot " ++ at_ slot.base ++ " has a corrupted header"
    | object slot header owner =>
        "\n".intercalate
          (((header.phase.getD .unused).name ++ " object " ++
              (slot.object header.size).render at_ ++ " (" ++ toString header.size ++
              " bytes, class " ++ toString slot.size ++ ", epoch " ++ toString header.epoch ++ ")") ::
            objectLines slot owner address)

end Place

namespace Guard

def placeOf (g : Guard) (address : Nat) : Place :=
  match g.heap.resolve? address with
  | none =>
      match g.large.sizeOf? address with
      | some size => .large size
      | none => .foreign
  | some slot =>
      match g.heap.claimed? slot with
      | none => .unused slot
      | some header =>
          if header.isSane then .object slot header (g.registry.referred? header.owner)
          else .corrupted slot

def describe (g : Guard) (at_ : Nat → String) (address : Nat) : String :=
  (g.placeOf address).render at_ address

end Guard

end TypedHeap
