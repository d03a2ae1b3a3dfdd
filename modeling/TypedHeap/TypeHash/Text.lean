import TypedHeap.Decimal.Binary
import TypedHeap.Hex
import TypedHeap.Json.Value
import TypedHeap.TypeHash

/-! # Hashes as text

A hash is written as `0x` and sixteen digits. It is read from such a text with any number of
digits of either case, underscores between them and at most one plus sign, or from an integer.
-/

namespace TypedHeap

namespace TypeHash

inductive TextError where
  | unmarked (text : String)
  | empty
  | badDigit
  | tooLarge
  | wrongKind (found : String)
  | outOfRange
  deriving DecidableEq

def TextError.message : TextError → String
  | .unmarked text => "hash " ++ "\x60" ++ text ++ "\x60 is missing its 0x prefix"
  | .empty => "cannot parse integer from empty string"
  | .badDigit => "invalid digit found in string"
  | .tooLarge => "number too large to fit in target type"
  | .wrongKind found =>
      "invalid type: " ++ found ++ ", expected a 64-bit hash as an integer or a \"0x\" string"
  | .outOfRange => "number out of range"

def readDigits : List Char → Nat → Except TextError Nat
  | [], n => .ok n
  | c :: r, n =>
      match Hex.value? c with
      | none => .error .badDigit
      | some d => if n * 16 + d < 2 ^ 64 then readDigits r (n * 16 + d) else .error .tooLarge

/-- The word that the text after the mark and without underscores stands for. -/
def readWord : List Char → Except TextError Nat
  | [] => .error .empty
  | ['+'] => .error .badDigit
  | '+' :: r => readDigits r 0
  | r => readDigits r 0

def unmark? : List Char → Option (List Char)
  | '0' :: 'x' :: r => some r
  | '0' :: 'X' :: r => some r
  | _ => none

def ofText (text : String) : Except TextError TypeHash :=
  match unmark? text.toList with
  | none => .error (.unmarked text)
  | some r => (readWord (r.filter (· ≠ '_'))).map fun n => ⟨n.toUInt64⟩

def toText (h : TypeHash) : String := Hex.word h.word.toNat

instance : ToString TypeHash := ⟨toText⟩

def debugText (h : TypeHash) : String := "TypeHash(" ++ h.toText ++ ")"

def realText? (text : String) : Option String :=
  (Decimal.normalText? text).map fun s => "floating point \x60" ++ s ++ "\x60"

def kindText? : Json.Value → Option String
  | .null => some "null"
  | .bool b => some ("boolean \x60" ++ (if b then "true" else "false") ++ "\x60")
  | .int n =>
      if -2 ^ 63 ≤ n ∧ n < 2 ^ 64 then some ("integer \x60" ++ toString n ++ "\x60")
      else realText? (toString n)
  | .real text => realText? text
  | .text s => some ("string " ++ s)
  | .garbled => some "string"
  | .list _ => some "sequence"
  | .record _ => some "map"

def read (v : Json.Value) : Except TextError TypeHash :=
  match v with
  | .text s => ofText s
  | v =>
      match v.unsigned? 64 with
      | some n => .ok ⟨n.toUInt64⟩
      | none => .error ((kindText? v).elim .outOfRange .wrongKind)

def ofJson? (v : Json.Value) : Option TypeHash := (read v).toOption

def toJson (h : TypeHash) : Json.Value := .text h.toText

end TypeHash

end TypedHeap
