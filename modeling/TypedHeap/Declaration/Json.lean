import TypedHeap.Declaration
import TypedHeap.Json.Fields
import TypedHeap.Json.Reader
import TypedHeap.Json.Writer
import TypedHeap.TypeHash.Text

/-! # Declarations as JSON

A document is a record whose member `types` lists the declarations.
-/

namespace TypedHeap

open Json

namespace Field

def ofJson? (v : Value) : Option Field := do
  match ← v.fields? ["name", "ty", "offset", "count"] with
  | [name, typeName, offset, count] =>
      some ⟨← required Value.text? name, ← required Value.text? typeName,
        ← required (·.unsigned? 32) offset, ← withDefault 1 (·.unsigned? 32) count⟩
  | _ => none

def toJson (f : Field) : Value :=
  .ofMembers [("name", .text f.name), ("ty", .text f.typeName), ("offset", .nat f.offset),
    ("count", .nat f.count)]

end Field

namespace Declaration

def hashOfJson? (v : Value) : Option UInt64 := (TypeHash.ofJson? v).map TypeHash.word

def hashToJson (word : UInt64) : Value := (TypeHash.mk word).toJson

def ofJson? (v : Value) : Option Declaration := do
  match ← v.fields? ["name", "hash", "hash2", "size", "fields", "flexible", "coerce_to", "union"] with
  | [name, hash, secondary, size, fields, flexible, coerceTo, isUnion] =>
      some ⟨← required Value.text? name, ← withDefault none (nullable hashOfJson?) hash,
        ← withDefault none (nullable hashOfJson?) secondary, ← required (·.unsigned? 32) size,
        ← withDefault [] (listOf Field.ofJson?) fields,
        ← withDefault none (nullable Field.ofJson?) flexible,
        ← withDefault none (nullable Value.text?) coerceTo, ← withDefault false Value.bool? isUnion⟩
  | _ => none

def toJson (d : Declaration) : Value :=
  .ofMembers [("name", .text d.name), ("hash", .ofOption hashToJson d.hash),
    ("hash2", .ofOption hashToJson d.secondary), ("size", .nat d.size),
    ("fields", .list (d.fields.map Field.toJson)), ("flexible", .ofOption Field.toJson d.flexible),
    ("coerce_to", .ofOption Value.text d.coerceTo), ("union", .bool d.isUnion)]

def parse? (text : String) : Option Declaration := (Value.parse? text).bind ofJson?

def render (d : Declaration) : String := d.toJson.render

def documentOfJson? (v : Value) : Option (List Declaration) := do
  match ← v.fields? ["types"] with
  | [types] => required (listOf ofJson?) types
  | _ => none

def parseDocument? (text : String) : Option (List Declaration) :=
  (Value.parse? text).bind documentOfJson?

def renderDocument (ds : List Declaration) : String :=
  (Value.ofMembers [("types", .list (ds.map toJson))]).render

end Declaration

end TypedHeap
