import TypedHeap.Json.Value

/-! # Records by position or by name

A structure is read from a record of its fields or from a list of them in order. In a record the
known fields stand at most once each, in any order, and unknown ones are passed over; a list may
stop early, and is not longer than the fields.
-/

namespace TypedHeap.Json

def Value.fields? (names : List String) : Value → Option (List (Option Value))
  | .list items =>
      if items.length ≤ names.length then
        some (names.zipIdx.map fun p => items[p.2]?)
      else none
  | .record members =>
      if members.all (·.1.isSome) then
        names.mapM fun name =>
          match members.filter (·.1 = some name) with
          | [] => some none
          | [m] => some (some m.2)
          | _ => none
      else none
  | _ => none

def required {α : Type} (read : Value → Option α) (v : Option Value) : Option α := v.bind read

def withDefault {α : Type} (default : α) (read : Value → Option α) : Option Value → Option α
  | none => some default
  | some v => read v

def listOf {α : Type} (read : Value → Option α) (v : Value) : Option (List α) :=
  v.list?.bind (·.mapM read)

def nullable {α : Type} (read : Value → Option α) : Value → Option (Option α)
  | .null => some none
  | v => (read v).map some

end TypedHeap.Json
