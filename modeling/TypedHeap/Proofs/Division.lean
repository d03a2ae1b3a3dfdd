import TypedHeap.Reciprocal

/-! # Exact division by a reciprocal

The stored reciprocal is `2 ^ 63 / d` rounded up, so `raw * d` exceeds `2 ^ 63` by less than `d`.
For a dividend `x` with `x * d < 2 ^ 63` the excess never carries into the quotient, and nothing on the
way to quotient and remainder leaves its registers.
-/

namespace TypedHeap.Reciprocal

theorem raw_mul (d : Nat) (hd : 0 < d) :
    ∃ e, e < d ∧ (ofDivisor d).raw * d = 2 ^ 63 + e := by
  have hsplit := Nat.div_add_mod (2 ^ 63 - 1) d
  have hmod := Nat.mod_lt (2 ^ 63 - 1) hd
  refine ⟨d - 1 - (2 ^ 63 - 1) % d, by omega, ?_⟩
  simp only [ofDivisor, radix, if_neg (Nat.ne_of_gt hd), Nat.add_mul, Nat.one_mul]
  rw [Nat.mul_comm] at hsplit
  omega

/-- The reciprocal is the least number whose product with `d` reaches `2 ^ 63`. -/
theorem raw_le_iff {d : Nat} (hd : 0 < d) (n : Nat) : (ofDivisor d).raw ≤ n ↔ 2 ^ 63 ≤ n * d := by
  obtain ⟨e, he, hraw⟩ := raw_mul d hd
  constructor
  · intro hle
    have hmul := Nat.mul_le_mul_right d hle
    omega
  · intro hreach
    refine Nat.le_of_not_lt fun hlt => ?_
    have hmul := Nat.mul_le_mul_right d (Nat.succ_le_of_lt hlt)
    rw [Nat.succ_mul] at hmul
    omega

/-- The shifted product is the quotient: the excess `x * e` stays below one unit of the radix. -/
theorem mul_raw_div {d x : Nat} (hd : 0 < d) (hx : x * d < 2 ^ 63) :
    x * (ofDivisor d).raw / 2 ^ 63 = x / d := by
  obtain ⟨e, he, hraw⟩ := raw_mul d hd
  have hexcess : x * e < 2 ^ 63 := Nat.lt_of_le_of_lt (Nat.mul_le_mul_left x (Nat.le_of_lt he)) hx
  have hproduct : x * (ofDivisor d).raw * d = x * 2 ^ 63 + x * e := by
    rw [Nat.mul_assoc, hraw, Nat.mul_add]
  have hlow : x / d * d ≤ x := Nat.div_mul_le_self x d
  have hhigh : x < (x / d + 1) * d := by
    rw [Nat.mul_comm]
    exact Nat.lt_mul_div_succ x hd
  apply Nat.div_eq_of_lt_le
  · apply Nat.le_of_mul_le_mul_right _ hd
    calc x / d * 2 ^ 63 * d = x / d * d * 2 ^ 63 := Nat.mul_right_comm ..
      _ ≤ x * 2 ^ 63 := Nat.mul_le_mul_right _ hlow
      _ ≤ x * (ofDivisor d).raw * d := by omega
  · apply Nat.lt_of_mul_lt_mul_right (a := d)
    calc x * (ofDivisor d).raw * d < (x + 1) * 2 ^ 63 := by omega
      _ ≤ (x / d + 1) * d * 2 ^ 63 := Nat.mul_le_mul_right _ hhigh
      _ = (x / d + 1) * 2 ^ 63 * d := Nat.mul_right_comm ..

theorem div_ofDivisor {d x : Nat} (hd : 0 < d) (hx : x * d < 2 ^ 63) :
    (ofDivisor d).div x = x / d := by
  have hself : x ≤ x * d := Nat.le_mul_of_pos_right x hd
  have hquot : x / d ≤ x := Nat.div_le_self x d
  rw [div, Nat.shiftRight_eq_div_pow, radix, mul_raw_div hd hx]
  exact Word.wrap_of_lt (by unfold Word.limit; omega)

/-- Below `2 ^ 31` the quotient is exact for every divisor: the reciprocal of one beyond `2 ^ 32` is
too small to give any. -/
theorem div_ofDivisor_of_lt {d x : Nat} (hd : 0 < d) (hx : x < 2 ^ 31) :
    (ofDivisor d).div x = x / d := by
  by_cases hsmall : d ≤ 2 ^ 32
  · apply div_ofDivisor hd
    calc x * d ≤ x * 2 ^ 32 := Nat.mul_le_mul_left x hsmall
      _ < 2 ^ 63 := by omega
  · have hquot : (2 ^ 63 - 1) / d ≤ (2 ^ 63 - 1) / 2 ^ 32 :=
      Nat.div_le_div_left (by omega) (by decide)
    have hraw : (ofDivisor d).raw ≤ 2 ^ 31 := by
      simp only [ofDivisor, radix, if_neg (Nat.ne_of_gt hd)]
      omega
    have hproduct : x * (ofDivisor d).raw < 2 ^ 63 :=
      calc x * (ofDivisor d).raw ≤ x * 2 ^ 31 := Nat.mul_le_mul_left x hraw
        _ < 2 ^ 63 := by omega
    rw [div, Nat.shiftRight_eq_div_pow, radix, Nat.div_eq_of_lt hproduct,
      Nat.div_eq_of_lt (by omega)]
    exact Word.wrap_of_lt Word.limit_pos

theorem rem_of_div {r : Reciprocal} {d x : Nat} (hdiv : r.div x = x / d) (hx : x < Word.limit) :
    r.rem x d = .ok (x % d) := by
  have hle : x / d * d ≤ x := Nat.div_mul_le_self x d
  have hsplit := Nat.div_add_mod' x d
  have hrest : x - x / d * d = x % d := by omega
  simp only [rem, hdiv, Word.mul?_of_lt (Nat.lt_of_le_of_lt hle hx), bind, Except.bind,
    Word.sub?_of_le hle, hrest]

/-- The quotient and the remainder of `x` by `d` are those of integer division. The reciprocal is
`2 ^ 63 / d` rounded up, and it is a word; the product fits in 128 bits and the quotient in 64, so that
nothing is cut off; and what is subtracted for the remainder is no more than `x`. -/
structure DividesExactly (d x : Nat) : Prop where
  raw_lt : (ofDivisor d).raw < Word.limit
  raw_le_iff (n : Nat) : (ofDivisor d).raw ≤ n ↔ 2 ^ 63 ≤ n * d
  product_lt : x * (ofDivisor d).raw < 2 ^ 128
  quotient_lt : (x * (ofDivisor d).raw) >>> radix < Word.limit
  div_eq : (ofDivisor d).div x = x / d
  mul_div_le : (ofDivisor d).div x * d ≤ x
  rem_eq : (ofDivisor d).rem x d = .ok (x % d)

theorem divides_exactly {d x : Nat} (hd : 1 ≤ d) (hx : x * d < 2 ^ 63) : DividesExactly d x := by
  have hself : x ≤ x * d := Nat.le_mul_of_pos_right x hd
  have hword : x < Word.limit := by
    unfold Word.limit
    omega
  have hraw : (ofDivisor d).raw ≤ 2 ^ 63 :=
    (raw_le_iff hd _).mpr (Nat.le_mul_of_pos_right _ hd)
  have hdiv : (ofDivisor d).div x = x / d := div_ofDivisor hd hx
  have hquotient : x / d ≤ x := Nat.div_le_self x d
  refine ⟨?_, raw_le_iff hd, ?_, ?_, hdiv, ?_, rem_of_div hdiv hword⟩
  · unfold Word.limit
    omega
  · calc x * (ofDivisor d).raw ≤ x * 2 ^ 63 := Nat.mul_le_mul_left x hraw
      _ < 2 ^ 128 := by omega
  · rw [Nat.shiftRight_eq_div_pow, radix, mul_raw_div hd hx]
    exact Nat.lt_of_le_of_lt hquotient hword
  · rw [hdiv]
    exact Nat.div_mul_le_self x d

/-- The reciprocal of 7 is too large by as much as one can be, and the dividend is the largest in range
that leaves the remainder 6. -/
theorem largest_divides_exactly :
    1 ≤ 7 ∧ 1317624576693539400 * 7 < 2 ^ 63 ∧ (ofDivisor 7).raw * 7 = 2 ^ 63 + 6 ∧
      DividesExactly 7 1317624576693539400 ∧
      (ofDivisor 7).div 1317624576693539400 = 188232082384791342 ∧
      (ofDivisor 7).rem 1317624576693539400 7 = .ok 6 := by
  have hrange : 1317624576693539400 * 7 < 2 ^ 63 := by decide
  have hexact := divides_exactly (d := 7) (by decide) hrange
  exact ⟨by decide, hrange, by decide, hexact, hexact.div_eq, hexact.rem_eq⟩

-- Beyond the range the excess may carry.
example : (ofDivisor 3).div (2 ^ 63) = 2 ^ 63 / 3 + 1 := by decide

end TypedHeap.Reciprocal
