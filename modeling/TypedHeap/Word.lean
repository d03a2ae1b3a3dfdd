/-! # Words and rounding

Addresses, sizes and offsets are natural numbers. The program is built to stop where an addition,
subtraction or multiplication of 64-bit words has no word as its result: the checked operations of
`Word` have a fault there. They stand wherever a word can be exceeded; everywhere else the arithmetic
is exact. Only what asks to wrap does so.
-/

namespace TypedHeap

-- Powers of numbers are those of the core library, also where a module imports other ones.
attribute [default_instance high + 1, instance (high)] instPowNat

namespace Word

/-- One more than the largest word. -/
def limit : Nat := 2 ^ 64

def last : Nat := limit - 1

def lastSigned : Nat := 2 ^ 63 - 1

def wrap (n : Nat) : Nat := n % limit

/-- Put `new` in the place of a word, in one step, if the word is `old`. A word that is not stays, and
is the answer. -/
def exchange (word old new : Nat) : Except Nat Nat := if word = old then .ok new else .error word

theorem limit_pos : 0 < limit := by decide

theorem wrap_of_lt {n : Nat} (h : n < limit) : wrap n = n := Nat.mod_eq_of_lt h

theorem wrap_lt (n : Nat) : wrap n < limit := Nat.mod_lt n limit_pos

/-! ## Words as bytes -/

def littleEndian : Nat → Nat → List UInt8
  | 0, _ => []
  | width + 1, n => n.toUInt8 :: littleEndian width (n / 256)

def ofLittleEndian : List UInt8 → Nat
  | [] => 0
  | b :: bs => b.toNat + 256 * ofLittleEndian bs

@[simp] theorem length_littleEndian (width n : Nat) : (littleEndian width n).length = width := by
  induction width generalizing n with
  | zero => rfl
  | succ width ih => simp [littleEndian, ih]

theorem ofLittleEndian_littleEndian (width n : Nat) :
    ofLittleEndian (littleEndian width n) = n % 256 ^ width := by
  induction width generalizing n with
  | zero => simp [littleEndian, ofLittleEndian, Nat.mod_one]
  | succ width ih =>
      simp only [littleEndian, ofLittleEndian, ih]
      rw [Nat.pow_succ, Nat.mul_comm (256 ^ width) 256, Nat.mod_mul]
      rfl

end Word

/-! ## Checked arithmetic -/

inductive ArithmeticFault where
  | addition
  | subtraction
  | multiplication
  | quotientByZero
  | remainderByZero
  deriving DecidableEq

def ArithmeticFault.message : ArithmeticFault → String
  | .addition => "attempt to add with overflow"
  | .subtraction => "attempt to subtract with overflow"
  | .multiplication => "attempt to multiply with overflow"
  | .quotientByZero => "attempt to divide by zero"
  | .remainderByZero => "attempt to calculate the remainder with a divisor of zero"

/-- A result, unless the program stops. -/
abbrev Checked (α : Type) := Except ArithmeticFault α

namespace Word

def add? (a b : Nat) : Checked Nat := if a + b < limit then .ok (a + b) else .error .addition

def sub? (a b : Nat) : Checked Nat := if b ≤ a then .ok (a - b) else .error .subtraction

def mul? (a b : Nat) : Checked Nat := if a * b < limit then .ok (a * b) else .error .multiplication

theorem add?_of_lt {a b : Nat} (h : a + b < limit) : add? a b = .ok (a + b) := if_pos h

theorem sub?_of_le {a b : Nat} (h : b ≤ a) : sub? a b = .ok (a - b) := if_pos h

theorem mul?_of_lt {a b : Nat} (h : a * b < limit) : mul? a b = .ok (a * b) := if_pos h

theorem add?_eq_ok_iff {a b n : Nat} : add? a b = .ok n ↔ a + b < limit ∧ n = a + b := by
  unfold add?
  split
  case isTrue h => exact ⟨fun heq => ⟨h, (Except.ok.inj heq).symm⟩, fun heq => heq.2 ▸ rfl⟩
  case isFalse h => exact ⟨nofun, fun heq => absurd heq.1 h⟩

end Word

/-! ## Rounding -/

/-- The least multiple of `unit` that is at least `n`. -/
def roundUp (n unit : Nat) : Nat := unit * ((n + unit - 1) / unit)

/-- The greatest multiple of `unit` that is at most `n`. -/
def roundDown (n unit : Nat) : Nat := n - n % unit

/-- The same in words, by one addition, one subtraction, a quotient and a product. -/
def roundUp? (n unit : Nat) : Checked Nat := do
  let sum ← Word.add? n unit
  let last ← Word.sub? sum 1
  if unit = 0 then .error .quotientByZero else Word.mul? unit (last / unit)

def roundDown? (n unit : Nat) : Checked Nat :=
  if unit = 0 then .error .remainderByZero else .ok (roundDown n unit)

def isPowerOfTwo (n : Nat) : Bool := n != 0 && n &&& (n - 1) == 0

theorem le_roundUp {n unit : Nat} (h : 0 < unit) : n ≤ roundUp n unit := by
  have := Nat.lt_mul_div_succ (n + unit - 1) h
  simp only [roundUp, Nat.mul_add] at *
  omega

theorem roundDown_le (n unit : Nat) : roundDown n unit ≤ n := Nat.sub_le _ _

theorem dvd_roundUp (n unit : Nat) : unit ∣ roundUp n unit := Nat.dvd_mul_right _ _

theorem roundUp_of_dvd {n unit : Nat} (hpos : 0 < unit) (h : unit ∣ n) : roundUp n unit = n := by
  obtain ⟨k, rfl⟩ := h
  rw [roundUp, Nat.add_sub_assoc hpos, Nat.mul_add_div hpos, Nat.div_eq_of_lt (by omega),
    Nat.add_zero]

theorem roundUp?_of_lt {n unit : Nat} (hpos : 0 < unit) (h : n + unit < Word.limit) :
    roundUp? n unit = .ok (roundUp n unit) := by
  have hprod : unit * ((n + unit - 1) / unit) < Word.limit :=
    Nat.lt_of_le_of_lt (Nat.mul_div_le _ _) (by omega)
  simp only [roundUp?, Word.add?_of_lt h, Word.sub?_of_le (show 1 ≤ n + unit by omega), bind,
    Except.bind, if_neg (Nat.ne_of_gt hpos), Word.mul?_of_lt hprod, roundUp]

theorem roundUp?_of_le {n unit : Nat} (h : Word.limit ≤ n + unit) :
    roundUp? n unit = .error .addition := by
  simp only [roundUp?, Word.add?, if_neg (Nat.not_lt.mpr h), bind, Except.bind]

theorem isPowerOfTwo_two_pow (k : Nat) : isPowerOfTwo (2 ^ k) = true := by
  simp [isPowerOfTwo, Nat.and_two_pow_sub_one_eq_mod]

end TypedHeap
