import TypedHeap.Config
import TypedHeap.Json.Fields
import TypedHeap.Json.Reader

/-! # Configuration as JSON

Every switch may be left out.
-/

namespace TypedHeap.Config

open Json

def ofJson? (base : Config) (v : Value) : Option Config := do
  match ← v.fields? ["debug", "profile", "fatal", "single_threaded", "region_shift", "aslr"] with
  | [debug, profile, fatal, singleThreaded, regionShift, aslr] =>
      some ⟨← withDefault base.debug Value.bool? debug,
        ← withDefault base.profile Value.bool? profile,
        ← withDefault base.fatal Value.bool? fatal,
        ← withDefault base.singleThreaded Value.bool? singleThreaded,
        ← withDefault base.regionShift (·.unsigned? 32) regionShift,
        ← withDefault base.aslr Value.bool? aslr⟩
  | _ => none

def parse? (text : String) : Option Config := (Value.parse? text).bind (ofJson? standard)

def toJson (c : Config) : Value :=
  .ofMembers [("debug", .bool c.debug), ("profile", .bool c.profile), ("fatal", .bool c.fatal),
    ("single_threaded", .bool c.singleThreaded), ("region_shift", .nat c.regionShift),
    ("aslr", .bool c.aslr)]

end TypedHeap.Config
