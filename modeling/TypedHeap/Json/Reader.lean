import TypedHeap.Hex
import TypedHeap.Json.Value

/-! # Reading JSON

A strict reader: one value, blanks around its tokens and nothing else. Each function takes the
characters that are left and gives back what it read and the rest.
-/

namespace TypedHeap.Json

def isBlank (c : Char) : Bool := c = ' ' || c = '\t' || c = '\n' || c = '\r'

def skipBlanks (s : List Char) : List Char := s.dropWhile isBlank

/-! ## Strings -/

/-- The characters read so far, last first, and the upper half of a surrogate pair whose lower
half must come next. -/
inductive Partial where
  | proper (chars : List Char)
  | halfPair (chars : List Char) (upper : Nat)
  | garbled

namespace Partial

def push : Partial → Char → Partial
  | .proper cs, c => .proper (c :: cs)
  | .halfPair _ _, _ => .garbled
  | .garbled, _ => .garbled

def isUpperHalf (unit : Nat) : Bool := 0xD800 ≤ unit && unit < 0xDC00

def isLowerHalf (unit : Nat) : Bool := 0xDC00 ≤ unit && unit < 0xE000

def pushUnit : Partial → Nat → Partial
  | .proper cs, unit =>
      if isUpperHalf unit then .halfPair cs unit
      else if isLowerHalf unit then .garbled
      else .proper (Char.ofNat unit :: cs)
  | .halfPair cs upper, unit =>
      if isLowerHalf unit then
        .proper (Char.ofNat (0x10000 + (upper - 0xD800) * 0x400 + (unit - 0xDC00)) :: cs)
      else .garbled
  | .garbled, _ => .garbled

def finish : Partial → Option String
  | .proper cs => some (String.ofList cs.reverse)
  | _ => none

end Partial

def escaped? : Char → Option Char
  | '"' => some '"'
  | '\\' => some '\\'
  | '/' => some '/'
  | 'b' => some '\x08'
  | 'f' => some '\x0c'
  | 'n' => some '\n'
  | 'r' => some '\r'
  | 't' => some '\t'
  | _ => none

/-- The rest of a string whose opening quote has been read. -/
def readString : List Char → Partial → Option (Option String × List Char)
  | [], _ => none
  | '"' :: r, acc => some (acc.finish, r)
  | '\\' :: 'u' :: a :: b :: c :: d :: r, acc =>
      match Hex.value? a, Hex.value? b, Hex.value? c, Hex.value? d with
      | some a, some b, some c, some d => readString r (acc.pushUnit (a * 4096 + b * 256 + c * 16 + d))
      | _, _, _, _ => none
  | '\\' :: e :: r, acc =>
      match escaped? e with
      | some c => readString r (acc.push c)
      | none => none
  | c :: r, acc => if c = '\\' ∨ c < ' ' then none else readString r (acc.push c)

/-! ## Numbers -/

def digitsValue (digits : List Char) : Nat :=
  digits.foldl (fun n d => n * 10 + (d.toNat - 48)) 0

def readFraction : List Char → Option (List Char × List Char)
  | '.' :: r =>
      let digits := r.takeWhile Char.isDigit
      if digits.isEmpty then none else some ('.' :: digits, r.dropWhile Char.isDigit)
  | r => some ([], r)

def readExponent : List Char → Option (List Char × List Char)
  | e :: r =>
      if e = 'e' ∨ e = 'E' then
        let (sign, r) := match r with
          | '+' :: r => (['+'], r)
          | '-' :: r => (['-'], r)
          | r => ([], r)
        let digits := r.takeWhile Char.isDigit
        if digits.isEmpty then none
        else some (e :: sign ++ digits, r.dropWhile Char.isDigit)
      else some ([], e :: r)
  | [] => some ([], [])

def wholeIsPlain : List Char → Bool
  | ['0'] => true
  | d :: _ => d != '0'
  | [] => false

def readNumber (s : List Char) : Option (Value × List Char) := do
  let (negative, r) := match s with
    | '-' :: r => (true, r)
    | r => (false, r)
  let whole := r.takeWhile Char.isDigit
  if !wholeIsPlain whole then none
  let (fraction, r) ← readFraction (r.dropWhile Char.isDigit)
  let (exponent, r) ← readExponent r
  let n := digitsValue whole
  if fraction.isEmpty && exponent.isEmpty && !(negative && n == 0) then
    some (.int (if negative then -(n : Int) else n), r)
  else
    let sign := if negative then ['-'] else []
    some (.real (String.ofList (sign ++ whole ++ fraction ++ exponent)), r)

/-! ## Values -/

mutual

def readValue : Nat → List Char → Option (Value × List Char)
  | 0, _ => none
  | fuel + 1, s =>
    match skipBlanks s with
    | 'n' :: 'u' :: 'l' :: 'l' :: r => some (.null, r)
    | 't' :: 'r' :: 'u' :: 'e' :: r => some (.bool true, r)
    | 'f' :: 'a' :: 'l' :: 's' :: 'e' :: r => some (.bool false, r)
    | '"' :: r => (readString r (.proper [])).map fun t => (t.1.elim .garbled .text, t.2)
    | '[' :: r =>
        match skipBlanks r with
        | ']' :: r => some (.list [], r)
        | r => readItems fuel r []
    | '\x7b' :: r =>
        match skipBlanks r with
        | '\x7d' :: r => some (.record [], r)
        | r => readMembers fuel r []
    | r => readNumber r

/-- Items up to the closing bracket, those already read last first. -/
def readItems : Nat → List Char → List Value → Option (Value × List Char)
  | 0, _, _ => none
  | fuel + 1, s, acc =>
    match readValue fuel s with
    | none => none
    | some (v, r) =>
        match skipBlanks r with
        | ',' :: r => readItems fuel r (v :: acc)
        | ']' :: r => some (.list (v :: acc).reverse, r)
        | _ => none

def readMembers : Nat → List Char → List (Option String × Value) → Option (Value × List Char)
  | 0, _, _ => none
  | fuel + 1, s, acc =>
    match skipBlanks s with
    | '"' :: r =>
        match readString r (.proper []) with
        | none => none
        | some (name, r) =>
            match skipBlanks r with
            | ':' :: r =>
                match readValue fuel r with
                | none => none
                | some (v, r) =>
                    match skipBlanks r with
                    | ',' :: r => readMembers fuel r ((name, v) :: acc)
                    | '\x7d' :: r => some (.record ((name, v) :: acc).reverse, r)
                    | _ => none
            | _ => none
    | _ => none

end

def Value.ofChars? (s : List Char) : Option Value :=
  match readValue (2 * s.length + 2) s with
  | some (v, r) => if (skipBlanks r).isEmpty then some v else none
  | none => none

def Value.parse? (s : String) : Option Value := Value.ofChars? s.toList

end TypedHeap.Json
