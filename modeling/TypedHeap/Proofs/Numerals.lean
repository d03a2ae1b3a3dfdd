import TypedHeap.Json.Reader
import TypedHeap.TypeHash.Text

/-! # Numerals

A numeral is read as the number that its digits stand for: a hexadecimal one of any width and in either
case, as in the text of a hash and in an escaped character, and a decimal one as it is written.
-/

namespace TypedHeap

/-! ## Hexadecimal digits -/

namespace Hex

def IsDigit (c : Char) (d : Nat) : Prop := d < 16 ∧ (c = d.digitChar ∨ c = d.digitChar.toUpper)

instance (c : Char) (d : Nat) : Decidable (IsDigit c d) := inferInstanceAs (Decidable (_ ∧ _))

theorem isDigit_digit {d : Nat} (h : d < 16) : IsDigit (digit d) d := by
  revert d
  decide

theorem toNat_digitChar {d : Nat} (h : d < 16) :
    d.digitChar.toNat = (if d < 10 then 48 else 87) + d ∧
      d.digitChar.toUpper.toNat = (if d < 10 then 48 else 55) + d := by
  revert d
  decide

theorem value?_digitChar {d : Nat} (h : d < 16) :
    value? d.digitChar = some d ∧ value? d.digitChar.toUpper = some d := by
  revert d
  decide

theorem isDigit_of_value? {c : Char} {d : Nat} (h : value? c = some d) : IsDigit c d := by
  have hle (a b : Char) : a ≤ b ↔ a.toNat ≤ b.toNat := UInt32.le_iff_toNat_le
  have hends : '0'.toNat = 48 ∧ '9'.toNat = 57 ∧ 'a'.toNat = 97 ∧ 'f'.toNat = 102 ∧
      'A'.toNat = 65 ∧ 'F'.toNat = 70 := by decide
  simp only [value?, hle, hends] at h
  have hd : d < 16 := by grind
  obtain ⟨hlower, hupper⟩ := toNat_digitChar hd
  refine ⟨hd, ?_⟩
  rw [← Char.toNat_inj, ← Char.toNat_inj, hlower, hupper]
  grind

theorem value?_eq_some_iff {c : Char} {d : Nat} : value? c = some d ↔ IsDigit c d := by
  refine ⟨isDigit_of_value?, ?_⟩
  rintro ⟨hd, rfl | rfl⟩
  · exact (value?_digitChar hd).1
  · exact (value?_digitChar hd).2

theorem value?_digit {n : Nat} (h : n < 16) : value? (digit n) = some n :=
  value?_eq_some_iff.mpr (isDigit_digit h)

theorem IsDigit.unique {c : Char} {d e : Nat} (hd : IsDigit c d) (he : IsDigit c e) : d = e :=
  Option.some.inj ((value?_eq_some_iff.mpr hd).symm.trans (value?_eq_some_iff.mpr he))

theorem IsDigit.ne_mark {c : Char} {d : Nat} (h : IsDigit c d) : c ≠ '+' ∧ c ≠ '_' := by
  refine ⟨?_, ?_⟩ <;> rintro rfl <;> exact absurd (value?_eq_some_iff.mpr h) nofun

/-! ## Hexadecimal numerals -/

/-- One or more digits, the first the most significant, and the number they stand for. -/
inductive Numeral : List Char → Nat → Prop
  | one {c : Char} {d : Nat} : IsDigit c d → Numeral [c] d
  | more {t : List Char} {n : Nat} {c : Char} {d : Nat} :
      Numeral t n → IsDigit c d → Numeral (t ++ [c]) (n * 16 + d)

theorem Numeral.isDigit {t : List Char} {n : Nat} (h : Numeral t n) {c : Char} (hc : c ∈ t) :
    ∃ d, IsDigit c d := by
  induction h with
  | @one c₀ d hd =>
      rw [List.mem_singleton] at hc
      exact ⟨d, hc ▸ hd⟩
  | @more t n c₀ d _ hd ih =>
      rcases List.mem_append.mp hc with hfront | hlast
      · exact ih hfront
      · rw [List.mem_singleton] at hlast
        exact ⟨d, hlast ▸ hd⟩

theorem Numeral.ne_nil {t : List Char} {n : Nat} (h : Numeral t n) : t ≠ [] := by
  cases h <;> simp

theorem Numeral.zero_cons {t : List Char} {n : Nat} (h : Numeral t n) : Numeral ('0' :: t) n := by
  induction h with
  | @one c d hc => simpa using Numeral.more (.one (by decide : IsDigit '0' 0)) hc
  | more _ hc ih => exact .more ih hc

theorem Numeral.replace {t front back : List Char} {n d : Nat} {c c' : Char} (h : Numeral t n)
    (ht : t = front ++ c :: back) (hc : IsDigit c d) (hc' : IsDigit c' d) :
    Numeral (front ++ c' :: back) n := by
  induction h generalizing back with
  | @one c₀ e he =>
      obtain ⟨rfl, hsingle⟩ | ⟨rfl, hnil⟩ := List.append_eq_singleton_iff.mp ht.symm
      · obtain ⟨rfl, rfl⟩ := List.cons.inj hsingle
        rw [he.unique hc]
        exact .one hc'
      · cases hnil
  | @more t n c₀ e hfront he ih =>
      rcases List.eq_nil_or_concat back with rfl | ⟨back, last, rfl⟩
      · obtain ⟨rfl, hlast⟩ := List.append_inj' ht rfl
        obtain ⟨rfl, -⟩ := List.cons.inj hlast
        rw [he.unique hc]
        exact .more hfront hc'
      · rw [List.concat_eq_append, ← List.cons_append, ← List.append_assoc] at ht ⊢
        obtain ⟨rfl, hlast⟩ := List.append_inj' ht rfl
        obtain ⟨rfl, -⟩ := List.cons.inj hlast
        exact .more (ih rfl) he

/-- Digits written in a fixed width are a numeral for what the width has room for. -/
theorem numeral_fixed (width n : Nat) : Numeral (fixed (width + 1) n) (n % 16 ^ (width + 1)) := by
  induction width generalizing n with
  | zero => exact .one (isDigit_digit (Nat.mod_lt n (by decide)))
  | succ width ih =>
      have hvalue : n % 16 ^ (width + 2) = n / 16 % 16 ^ (width + 1) * 16 + n % 16 := by
        rw [Nat.pow_succ, Nat.mul_comm (16 ^ (width + 1)) 16, Nat.mod_mul]
        omega
      rw [hvalue]
      exact .more (ih (n / 16)) (isDigit_digit (Nat.mod_lt n (by decide)))

end Hex

/-! ## Decimal digits -/

namespace Json

theorem digitsValue_toDigits (n : Nat) : digitsValue (Nat.toDigits 10 n) = n := by
  have hvalue := Nat.ofDigitChars_ten_toDigits (n := n)
  simpa [digitsValue, Nat.ofDigitChars_eq_foldl, Nat.mul_comm] using hvalue

theorem digitChar_ne_zero {n : Nat} (h : n < 10) (hpos : 0 < n) : n.digitChar ≠ '0' := by
  revert n
  decide

theorem head?_toDigits_ne {n : Nat} (hpos : 0 < n) : (Nat.toDigits 10 n).head? ≠ some '0' := by
  induction n using Nat.strongRecOn with
  | ind n ih =>
      by_cases hsmall : n < 10
      · simpa [Nat.toDigits_of_lt_base hsmall] using digitChar_ne_zero hsmall hpos
      · have hfront := ih (n / 10) (by omega) (by omega)
        rw [Nat.toDigits_of_base_le (by decide) (Nat.le_of_not_lt hsmall), List.head?_append]
        cases hhead : (Nat.toDigits 10 (n / 10)).head? with
        | none => exact absurd (List.head?_eq_none_iff.mp hhead) Nat.toDigits_ne_nil
        | some c => rwa [hhead] at hfront

theorem wholeIsPlain_toDigits (n : Nat) : wholeIsPlain (Nat.toDigits 10 n) = true := by
  rcases Nat.eq_zero_or_pos n with rfl | hpos
  · decide
  · have hhead := head?_toDigits_ne hpos
    cases hdigits : Nat.toDigits 10 n with
    | nil => exact absurd hdigits Nat.toDigits_ne_nil
    | cons d ds =>
        have hd : d ≠ '0' := by simpa [hdigits] using hhead
        cases ds <;> simp [wholeIsPlain, hd]

end Json

end TypedHeap
