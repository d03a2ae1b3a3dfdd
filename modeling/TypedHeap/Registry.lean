import TypedHeap.Reference
import TypedHeap.TypeHash.Text
import TypedHeap.TypeRecord

/-! # The registry of types

The types a program may allocate or check against. The built-in ones are always there.
-/

namespace TypedHeap

/-- A type that every registry knows. Without a hash, it has the one derived from its name. -/
structure Builtin where
  name : String
  size : Nat
  givenHash : Option TypeHash
  coercion : Option TypeHash

namespace Builtin

def hash (hashName : String → UInt64) (b : Builtin) : TypeHash :=
  b.givenHash.getD (.ofName hashName b.name)

def all : List Builtin := [
  ⟨"int8_t", 1, some .int8, none⟩,
  ⟨"int8_t *", 8, some .int8Pointer, some .sharedPointer⟩,
  ⟨"int16_t", 2, none, none⟩,
  ⟨"int32_t", 4, none, some .sharedInt32⟩,
  ⟨"int64_t", 8, none, none⟩,
  ⟨"int128_t", 16, none, none⟩,
  ⟨"float", 4, none, none⟩,
  ⟨"double", 8, none, none⟩,
  ⟨"long double", 16, none, none⟩,
  ⟨"void *", 8, none, some .sharedPointer⟩,
  ⟨"<coerced int32>", 4, some .sharedInt32, none⟩,
  ⟨"<coerced pointer>", 8, some .sharedPointer, none⟩]

def find? (name : String) : Option Builtin := all.find? (·.name = name)

def shape (b : Builtin) : Shape := .primitive b.name b.size

def record (hashName : String → UInt64) (b : Builtin) : TypeRecord :=
  .primitive (b.hash hashName) b.shape b.coercion

end Builtin

/-- A function that hashes names. Built-in types are taken to get hashes of their own. -/
structure NameHasher where
  hash : String → UInt64
  distinct : (TypeHash.free :: Builtin.all.map (Builtin.hash hash)).Nodup

instance : Coe NameHasher (String → UInt64) := ⟨NameHasher.hash⟩

inductive RegistryError where
  | duplicateType (name : String)
  | unknownType (owner typeName : String)
  | cycle (name : String)
  | layoutTooLarge (name : String)
  | fieldOutOfBounds (owner field : String)
  | hashCollision (hash : TypeHash)
  | badDescription
  /-- There is no answer: the program stops. -/
  | fault (f : ArithmeticFault)
  deriving DecidableEq

namespace RegistryError

private def quoted (s : String) : String := "\x60" ++ s ++ "\x60"

def message : RegistryError → String
  | .duplicateType name => "type " ++ quoted name ++ " is declared twice"
  | .unknownType owner typeName =>
      "type " ++ quoted owner ++ " refers to undeclared type " ++ quoted typeName
  | .cycle name => "type " ++ quoted name ++ " contains itself"
  | .layoutTooLarge name => "layout of " ++ quoted name ++ " does not fit in a type table"
  | .fieldOutOfBounds owner field =>
      "field " ++ quoted field ++ " runs past the end of " ++ quoted owner
  | .hashCollision hash => "hash " ++ toString hash ++ " is used by more than one type"
  | .badDescription => "bad type description"
  | .fault f => f.message

end RegistryError

/-- The registered types, those registered first in front. -/
structure Registry where
  records : List TypeRecord

namespace Registry

def builtins (hasher : NameHasher) : Registry := ⟨Builtin.all.map (Builtin.record hasher)⟩

def find? (r : Registry) (hash : TypeHash) : Option TypeRecord :=
  if hash = .free then some .freeMemory else r.records.find? (·.hash = hash)

/-- How a header refers to a type: to the record of free memory, to one of the others behind it,
or to none if the type is not registered. -/
def reference (r : Registry) (hash : TypeHash) : Nat :=
  if hash = .free then Reference.freeMemory
  else
    match r.records.findIdx? (·.hash = hash) with
    | some index => Reference.record (index + 1)
    | none => 0

def referred? (r : Registry) (reference : Nat) : Option TypeRecord :=
  match Reference.recordIndex? reference with
  | some 0 => some .freeMemory
  | some (index + 1) => r.records[index]?
  | none => none

/-- A reference leads back to the record it was made for. -/
theorem referred?_reference (r : Registry) (hash : TypeHash) :
    r.referred? (r.reference hash) = r.find? hash := by
  simp only [reference, find?]
  split
  · simp [referred?, Reference.freeMemory, Reference.recordIndex?_record]
  · rw [List.find?_eq_bind_findIdx?_getElem?]
    cases r.records.findIdx? (·.hash = hash) with
    | none => simp [referred?, Reference.recordIndex?_zero]
    | some index => simp [referred?, Reference.recordIndex?_record]

def findName? (r : Registry) (name : String) : Option TypeRecord :=
  r.records.find? (·.name = name)

/-- Register one more type. Neither its hash nor its name may be in use. -/
def insert (r : Registry) (record : TypeRecord) : Except RegistryError Registry :=
  if record.hash = .nil ∨ record.hash = .free ∨ r.records.any (·.hash = record.hash) then
    .error (.hashCollision record.hash)
  else if r.records.any (·.name = record.name) then .error (.duplicateType record.name)
  else .ok ⟨r.records ++ [record]⟩

def nameOf (r : Registry) (hash : TypeHash) : String :=
  match r.find? hash with
  | some record => record.name
  | none => "<unknown type " ++ toString hash ++ ">"

def size (r : Registry) : Nat := r.records.length

end Registry

end TypedHeap
