import TypedHeap.Hex
import TypedHeap.Json.Value

/-! # Writing JSON

The compact form: no blanks, and of the characters of a string only quotes, backslashes and
control characters are escaped. Every function writes in front of the text that follows.
-/

namespace TypedHeap.Json

def writeChar (c : Char) (rest : List Char) : List Char :=
  if c = '"' then '\\' :: '"' :: rest
  else if c = '\\' then '\\' :: '\\' :: rest
  else if c = '\n' then '\\' :: 'n' :: rest
  else if c = '\r' then '\\' :: 'r' :: rest
  else if c = '\t' then '\\' :: 't' :: rest
  else if c = '\x08' then '\\' :: 'b' :: rest
  else if c = '\x0c' then '\\' :: 'f' :: rest
  else if c < ' ' then '\\' :: 'u' :: Hex.fixed 4 c.toNat ++ rest
  else c :: rest

def writeText (s : String) (rest : List Char) : List Char :=
  '"' :: s.toList.foldr writeChar ('"' :: rest)

def writeInt (n : Int) (rest : List Char) : List Char :=
  match n with
  | .ofNat n => Nat.toDigits 10 n ++ rest
  | .negSucc n => '-' :: Nat.toDigits 10 (n + 1) ++ rest

mutual

def Value.write : Value → List Char → List Char
  | .null, rest => 'n' :: 'u' :: 'l' :: 'l' :: rest
  | .bool true, rest => 't' :: 'r' :: 'u' :: 'e' :: rest
  | .bool false, rest => 'f' :: 'a' :: 'l' :: 's' :: 'e' :: rest
  | .int n, rest => writeInt n rest
  | .real t, rest => t.toList ++ rest
  | .text s, rest => writeText s rest
  | .garbled, rest => writeText "" rest
  | .list [], rest => '[' :: ']' :: rest
  | .list (v :: vs), rest => '[' :: v.write (writeItems vs (']' :: rest))
  | .record [], rest => '\x7b' :: '\x7d' :: rest
  | .record ((name, v) :: ms), rest =>
      '\x7b' :: writeText (name.getD "") (':' :: v.write (writeMembers ms ('\x7d' :: rest)))

def writeItems : List Value → List Char → List Char
  | [], rest => rest
  | v :: vs, rest => ',' :: v.write (writeItems vs rest)

def writeMembers : List (Option String × Value) → List Char → List Char
  | [], rest => rest
  | (name, v) :: ms, rest =>
      ',' :: writeText (name.getD "") (':' :: v.write (writeMembers ms rest))

end

def Value.render (v : Value) : String := String.ofList (v.write [])

end TypedHeap.Json
