import TypedHeap.Bounds
import TypedHeap.Json.Fields

/-! # Bounds as JSON -/

namespace TypedHeap

open Json

def Json.Value.ends? {α : Type} (read : Value → Option α) (v : Value) : Option (α × α) := do
  match ← v.fields? ["lower", "upper"] with
  | [lower, upper] => some (← required read lower, ← required read upper)
  | _ => none

def Bounds.ofJson? (v : Value) : Option Bounds :=
  (v.ends? (·.unsigned? 64)).map fun e => ⟨e.1, e.2⟩

def Bounds.toJson (b : Bounds) : Value :=
  .ofMembers [("lower", .nat b.lower), ("upper", .nat b.upper)]

def Reach.ofJson? (v : Value) : Option Reach :=
  (v.ends? (·.signed? 64)).map fun e => ⟨e.1, e.2⟩

def Reach.toJson (r : Reach) : Value :=
  .ofMembers [("lower", .int r.lower), ("upper", .int r.upper)]

end TypedHeap
