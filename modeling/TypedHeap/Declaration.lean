import TypedHeap.TypeHash

/-! # Type declarations

A declaration lists the direct fields of a structure or union by the names of their types.
-/

namespace TypedHeap

structure Field where
  name : String
  typeName : String
  offset : Nat
  /-- The number of elements, one for a field that is no array. -/
  count : Nat
  deriving DecidableEq

structure Declaration where
  name : String
  hash : Option UInt64
  /-- The hash that spreads the layout table, if it is given. -/
  secondary : Option UInt64
  size : Nat
  fields : List Field
  /-- An array of no fixed length behind the other fields; its count has no meaning. -/
  flexible : Option Field
  /-- The type that a failed check is tried against again. -/
  coerceTo : Option String
  isUnion : Bool
  deriving DecidableEq

namespace Declaration

def ofSize (name : String) (size : Nat) : Declaration :=
  ⟨name, none, none, size, [], none, none, false⟩

def withArray (d : Declaration) (name typeName : String) (offset count : Nat) : Declaration :=
  { d with fields := d.fields ++ [⟨name, typeName, offset, count⟩] }

def withField (d : Declaration) (name typeName : String) (offset : Nat) : Declaration :=
  d.withArray name typeName offset 1

def withFlexible (d : Declaration) (name typeName : String) (offset : Nat) : Declaration :=
  { d with flexible := some ⟨name, typeName, offset, 0⟩ }

def withCoercion (d : Declaration) (typeName : String) : Declaration :=
  { d with coerceTo := some typeName }

def asUnion (d : Declaration) : Declaration := { d with isUnion := true }

def withHash (d : Declaration) (hash : UInt64) : Declaration := { d with hash := some hash }

def typeHash (hashName : String → UInt64) (d : Declaration) : TypeHash :=
  (d.hash.map .mk).getD (.ofName hashName d.name)

def tableHash (hashName : String → UInt64) (d : Declaration) : TypeHash :=
  (d.secondary.map .mk).getD (.ofName hashName (d.name ++ "#layout"))

end Declaration

end TypedHeap
