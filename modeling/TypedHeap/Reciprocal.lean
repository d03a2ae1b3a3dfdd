import TypedHeap.Word

/-! # Division by a stored reciprocal

`raw` is `2 ^ 63 / d` rounded up, so one multiplication and one shift divide by `d`. The result
is exact while `x * d < 2 ^ 63` and may be one too large beyond that.
-/

namespace TypedHeap

structure Reciprocal where
  raw : Nat
  deriving DecidableEq

namespace Reciprocal

def radix : Nat := 63

/-- The reciprocal of `d`; zero is treated as one. -/
def ofDivisor (d : Nat) : Reciprocal :=
  ⟨(2 ^ radix - 1) / (if d = 0 then 1 else d) + 1⟩

/-- The quotient, cut to 64 bits. -/
def div (r : Reciprocal) (x : Nat) : Nat := Word.wrap ((x * r.raw) >>> radix)

def rem (r : Reciprocal) (x d : Nat) : Checked Nat := do
  Word.sub? x (← Word.mul? (r.div x) d)

end Reciprocal

end TypedHeap
