/-! # Type identities

A type is known by a 64-bit hash: given by its declaration or derived from its name. How names are
hashed is another library's choice and therefore an argument.
-/

namespace TypedHeap

structure TypeHash where
  word : UInt64
  deriving DecidableEq, Inhabited

namespace TypeHash

/-- Marks an empty place in a layout table; never a real type. -/
def nil : TypeHash := ⟨0xFFFFFFFFFFFFFFFF⟩

def free : TypeHash := ⟨0xAB63C4D0EB0A6EC4⟩

/-- Single bytes, which may be read anywhere. -/
def int8 : TypeHash := ⟨0x703EDF97BC60677D⟩

def int8Pointer : TypeHash := ⟨0x8D0DECDF6C6A8711⟩

/-- The view that 32-bit integers share. -/
def sharedInt32 : TypeHash := ⟨0x51A0B9BF4F692902⟩

/-- The view that all pointers share. -/
def sharedPointer : TypeHash := ⟨0x2317E969C295951D⟩

def mix (x : UInt64) : UInt64 :=
  let x := x ^^^ (x >>> 30)
  let x := x * 0xBF58476D1CE4E5B9
  let x := x ^^^ (x >>> 27)
  let x := x * 0x94D049BB133111EB
  x ^^^ (x >>> 31)

/-- The hash derived from a name, which is never the mark of an empty place. -/
def ofName (hashName : String → UInt64) (name : String) : TypeHash :=
  let word := hashName name
  ⟨if word = nil.word then word - 1 else word⟩

theorem ofName_ne_nil (hashName : String → UInt64) (name : String) : ofName hashName name ≠ nil := by
  intro h
  have hword := congrArg word h
  simp only [ofName] at hword
  split at hword
  · next heq => exact absurd (heq ▸ hword) (by decide)
  · next hne => exact hne hword

end TypeHash

end TypedHeap
