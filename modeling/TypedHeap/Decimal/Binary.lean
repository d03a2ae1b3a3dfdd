import TypedHeap.Word

/-! # Decimals and binary fractions

A quotient is rounded to the nearest fraction with a 53-bit numerator, ties to even. A fraction is
written with the fewest digits that round back to it: positionally from `10 ^ -5` up to `10 ^ 16`,
and with an exponent outside of that. Reading takes the leading digits and rounds once more for
each power of ten.
-/

namespace TypedHeap.Decimal

structure Binary where
  mantissa : Nat
  exponent : Int
  deriving DecidableEq

/-- `num / den` rounded to the nearest natural number, ties to even. -/
def roundDiv (num den : Nat) : Nat :=
  let q := num / den
  let r := num % den
  if 2 * r < den then q else if den < 2 * r then q + 1 else q + q % 2

def scale (num den base : Nat) (e : Int) : Nat × Nat :=
  match e with
  | .ofNat e => (num * base ^ e, den)
  | .negSucc e => (num, den * base ^ (e + 1))

def leastExponent : Int := -1074

def Binary.nearest (num den : Nat) : Binary :=
  if num = 0 then ⟨0, 0⟩
  else
    let guess : Int := (num.log2 : Int) - den.log2 - 52
    let fits (e : Int) : Bool := let p := scale num den 2 (-e); p.1 < p.2 * 2 ^ 53
    let e := if fits (guess - 1) then guess - 1 else guess
    let e := max e leastExponent
    let p := scale num den 2 (-e)
    ⟨roundDiv p.1 p.2, e⟩

def Binary.ratio (b : Binary) : Nat × Nat := scale b.mantissa 1 2 b.exponent

def Binary.reads (b : Binary) (digits : Nat) (e : Int) : Bool :=
  let p := scale digits 1 10 e
  let c := Binary.nearest p.1 p.2
  let (x, y) := (b.ratio, c.ratio)
  x.1 * y.2 = y.1 * x.2

def magnitude (num den : Nat) : Int :=
  let guess : Int := (((num.log2 : Int) - den.log2) * 30103) / 100000
  let below (e : Int) : Bool := let p := scale num den 10 (-e); p.1 < p.2
  if below guess then guess else if below (guess + 1) then guess + 1 else guess + 2

/-- Of the two decimals with `n` digits around `b`, one that reads back, the nearer if both do. -/
def Binary.withDigits? (b : Binary) (n : Nat) : Option (Nat × Int) :=
  let (num, den) := b.ratio
  let e := magnitude num den - n
  let p := scale num den 10 (-e)
  let lower := p.1 / p.2
  let nearer := roundDiv p.1 p.2
  let other := if nearer = lower then lower + 1 else lower
  if b.reads nearer e then some (nearer, e)
  else if b.reads other e then some (other, e)
  else none

/-- The fewest digits that read back, at most 17. -/
def Binary.shortest (b : Binary) : Nat × Int :=
  ((List.range' 1 17).findSome? b.withDigits?).getD (b.mantissa, 0)

def positional (n : Nat) (e : Int) : String :=
  match e with
  | .ofNat e => toString (n * 10 ^ e) ++ ".0"
  | .negSucc e =>
      let unit := 10 ^ (e + 1)
      let fraction := (Nat.toDigits 10 (unit + n % unit)).drop 1
      let fraction := (fraction.reverse.dropWhile (· = '0')).reverse
      toString (n / unit) ++ "." ++ (if fraction.isEmpty then "0" else String.ofList fraction)

def scientific (n : Nat) (e : Int) : String :=
  match Nat.toDigits 10 n with
  | d :: ds =>
      String.ofList (d :: (if ds.isEmpty then [] else '.' :: ds)) ++
        (if e < 0 then "e" else "e+") ++ toString e
  | [] => ""

def trimmed (n : Nat) (e : Int) : Nat × Int :=
  let zeros := ((Nat.toDigits 10 n).reverse.takeWhile (· = '0')).length
  (n / 10 ^ zeros, e + zeros)

/-- The text of `n * 10 ^ e`, positional if at most four zeros follow the point and at most sixteen
digits stand before it. -/
def written (n : Nat) (e : Int) : String :=
  let (n, e) := trimmed n e
  let whole : Int := (Nat.toDigits 10 n).length + e
  if -5 < whole ∧ whole ≤ 16 then positional n e else scientific n (whole - 1)

def Binary.text (b : Binary) : String :=
  if b.mantissa = 0 then "0.0"
  else
    let d := b.shortest
    written d.1 d.2

/-! ## Reading

A decimal is read through its leading digits that make a 64-bit word. Their value is scaled by a
power of ten, which is itself rounded, so that the result may be off in the last place.
-/

def mostPower : Nat := 308

def Binary.mul (b c : Binary) : Binary :=
  let (x, y) := (b.ratio, c.ratio)
  .nearest (x.1 * y.1) (x.2 * y.2)

def Binary.div (b c : Binary) : Binary :=
  let (x, y) := (b.ratio, c.ratio)
  .nearest (x.1 * y.2) (x.2 * y.1)

def Binary.isFinite (b : Binary) : Bool := b.ratio.1 < b.ratio.2 * 2 ^ 1024

/-- `b * 10 ^ e` in rounded steps, unless it is out of range. -/
def Binary.scale? (b : Binary) (e : Int) : Option Binary :=
  if e.natAbs ≤ mostPower then
    let power := Binary.nearest (10 ^ e.natAbs) 1
    let scaled := if e < 0 then b.div power else b.mul power
    if scaled.isFinite then some scaled else none
  else if b.mantissa = 0 then some b
  else if e < 0 then (b.div (.nearest (10 ^ mostPower) 1)).scale? (e + mostPower)
  else none
termination_by (-e).toNat
decreasing_by
  simp only [mostPower] at *
  omega

def leading : List Char → Nat → Nat × List Char
  | [], n => (n, [])
  | d :: ds, n =>
      let m := n * 10 + (d.toNat - 48)
      if m < 2 ^ 64 then leading ds m else (n, d :: ds)

def read? (whole fraction : List Char) (exponent : Int) : Option Binary :=
  let (n, skipped) := leading whole 0
  let (n, unread) := leading fraction n
  let places : Int := (fraction.length : Int) - unread.length
  (Binary.nearest n 1).scale? (exponent + skipped.length - places)

/-- The normal text of a number written with digits, an optional sign, fraction and exponent,
unless it is out of range. -/
def normalText? (text : String) : Option String :=
  let cs := text.toList
  let (sign, cs) := if cs.head? = some '-' then ("-", cs.drop 1) else ("", cs)
  let (body, tail) := cs.span fun c => c != 'e' && c != 'E'
  let (whole, point) := body.span (· != '.')
  let value (ds : List Char) : Nat := ds.foldl (fun n d => n * 10 + (d.toNat - 48)) 0
  let exponent : Int := match tail.drop 1 with
    | '-' :: ds => -(value ds : Int)
    | '+' :: ds => value ds
    | ds => value ds
  (read? whole (point.drop 1) exponent).map fun b => sign ++ b.text

end TypedHeap.Decimal
