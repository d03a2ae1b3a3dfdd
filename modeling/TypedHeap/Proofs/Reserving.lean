import TypedHeap.Proofs.Success
import TypedHeap.Reservation

/-! # Reserving an aligned range

A span is mapped that is longer than the wanted pages by the alignment, a range is cut out of it and the
rest is given back. A size that cannot be rounded up to pages within a word stops the program before the
span is held against the words.
-/

namespace TypedHeap

theorem isPowerOfTwo_iff (n : Nat) : isPowerOfTwo n = true ↔ ∃ k, n = 2 ^ k := by
  constructor
  · intro h
    simp only [isPowerOfTwo, Bool.and_eq_true, bne_iff_ne, beq_iff_eq] at h
    exact (Nat.and_sub_one_eq_zero_iff_isPowerOfTwo h.1).mp h.2
  · rintro ⟨k, rfl⟩
    exact isPowerOfTwo_two_pow k

theorem roundUp_lt (n : Nat) {unit : Nat} (h : 0 < unit) : roundUp n unit < n + unit := by
  have := Nat.mul_div_le (n + unit - 1) unit
  simp only [roundUp]
  omega

namespace Reservation

/-- `n` is the least multiple of `unit` that is at least `size`. -/
structure LeastMultiple (unit size n : Nat) : Prop where
  dvd : unit ∣ n
  le : size ≤ n
  least : ∀ m, unit ∣ m → size ≤ m → n ≤ m

/-- The bytes that are mapped for a request: its pages, and room to align them. -/
def spanFor (size alignment : Nat) : Nat := roundUp size pageSize + max alignment pageSize

/-- A request for some bytes at a power of two, whose span is a word. -/
structure Sensible (size alignment : Nat) : Prop where
  size_ne : size ≠ 0
  power : ∃ k, alignment = 2 ^ k
  span_lt : spanFor size alignment < Word.limit

/-- The range is aligned and has the least number of pages. It lies among the `span` bytes from `raw` on,
and what is given back is the rest of them. -/
structure Cut.Exact (c : Cut) (raw span size alignment : Nat) : Prop where
  aligned : alignment ∣ c.range.start
  pages : pageSize ∣ c.range.start
  least : LeastMultiple pageSize size c.range.size
  raw_le : raw ≤ c.range.start
  finish_le : c.range.start + c.range.size ≤ raw + span
  head_eq : raw + c.head = c.range.start
  tail_eq : c.range.start + c.range.size + c.tail = raw + span

/-! ## Sizes and alignments -/

theorem pageSize_pos : 0 < pageSize := by decide

theorem leastMultiple_roundUp (size : Nat) {unit : Nat} (h : 0 < unit) :
    LeastMultiple unit size (roundUp size unit) where
  dvd := dvd_roundUp size unit
  le := le_roundUp h
  least m hdvd hle := by
    obtain ⟨k, rfl⟩ := hdvd
    have hdiv : (size + unit - 1) / unit < k + 1 :=
      Nat.div_lt_of_lt_mul (by rw [Nat.mul_succ]; omega)
    exact Nat.mul_le_mul_left unit (Nat.lt_succ_iff.mp hdiv)

theorem dvd_max_pageSize (k : Nat) : 2 ^ k ∣ max (2 ^ k) pageSize ∧ pageSize ∣ max (2 ^ k) pageSize := by
  have hpage : pageSize = 2 ^ 12 := rfl
  rw [hpage]
  rcases Nat.le_total k 12 with hle | hle
  · rw [Nat.max_eq_right (Nat.pow_le_pow_right (by decide) hle)]
    exact ⟨Nat.pow_dvd_pow 2 hle, Nat.dvd_refl _⟩
  · rw [Nat.max_eq_left (Nat.pow_le_pow_right (by decide) hle)]
    exact ⟨Nat.dvd_refl _, Nat.pow_dvd_pow 2 hle⟩

/-! ## Requests -/

theorem size_add_le_spanFor (size alignment : Nat) : size + pageSize ≤ spanFor size alignment :=
  Nat.add_le_add (le_roundUp pageSize_pos) (Nat.le_max_right _ _)

theorem plan_of_senseless {size alignment : Nat}
    (h : size = 0 ∨ isPowerOfTwo alignment = false) : plan size alignment = .error .invalidInput := by
  simp only [plan, if_pos h, bind, Except.bind]

theorem plan_of_le {size alignment : Nat} (h : ¬(size = 0 ∨ isPowerOfTwo alignment = false))
    (hle : Word.limit ≤ size + pageSize) : plan size alignment = .error (.fault .addition) := by
  simp only [plan, if_neg h, mapError_of_error (roundUp?_of_le hle), bind, Except.bind]

theorem plan_of_lt {size alignment : Nat} (h : ¬(size = 0 ∨ isPowerOfTwo alignment = false))
    (hlt : size + pageSize < Word.limit) :
    plan size alignment = if spanFor size alignment < Word.limit then
      .ok (roundUp size pageSize, spanFor size alignment) else .error .invalidInput := by
  simp only [plan, if_neg h, mapError_of_ok (roundUp?_of_lt pageSize_pos hlt), bind, Except.bind,
    spanFor]
  rfl

/-- A sensible request is planned. One that is not is invalid, unless its size cannot be rounded up. -/
theorem plan_eq (size alignment : Nat) :
    Sensible size alignment ∧
        plan size alignment = .ok (roundUp size pageSize, spanFor size alignment) ∨
      ¬Sensible size alignment ∧ plan size alignment =
        if size ≠ 0 ∧ isPowerOfTwo alignment = true ∧ Word.limit ≤ size + pageSize then
          .error (.fault .addition) else .error .invalidInput := by
  have hle := size_add_le_spanFor size alignment
  by_cases hsense : size = 0 ∨ isPowerOfTwo alignment = false
  case pos =>
    refine .inr ⟨fun h => ?_, ?_⟩
    · rcases hsense with hzero | hpower
      · exact h.size_ne hzero
      · exact absurd ((isPowerOfTwo_iff _).mpr h.power) (Bool.eq_false_iff.mp hpower)
    · rw [plan_of_senseless hsense, if_neg (by grind)]
  case neg =>
    have hboth : size ≠ 0 ∧ isPowerOfTwo alignment = true := by grind
    by_cases hlt : size + pageSize < Word.limit
    · rw [plan_of_lt hsense hlt]
      by_cases hspan : spanFor size alignment < Word.limit
      · exact .inl ⟨⟨hboth.1, (isPowerOfTwo_iff _).mp hboth.2, hspan⟩, if_pos hspan⟩
      · rw [if_neg hspan, if_neg (by omega)]
        exact .inr ⟨fun h => hspan h.span_lt, rfl⟩
    · rw [plan_of_le hsense (Nat.not_lt.mp hlt), if_pos ⟨hboth.1, hboth.2, Nat.not_lt.mp hlt⟩]
      exact .inr ⟨fun h => hlt (Nat.lt_of_le_of_lt hle h.span_lt), rfl⟩

/-- The span is longer than the range by the alignment, so the range that starts at the first aligned
address is still in it. -/
theorem trim_exact {raw k : Nat} (size : Nat) (hfits : raw + max (2 ^ k) pageSize < Word.limit) :
    ∃ cut, trim raw (spanFor size (2 ^ k)) (roundUp size pageSize) (2 ^ k) = .ok cut ∧
      cut.Exact raw (spanFor size (2 ^ k)) size (2 ^ k) := by
  obtain ⟨halign, hpage⟩ := dvd_max_pageSize k
  have hpos : 0 < max (2 ^ k) pageSize := Nat.lt_of_lt_of_le pageSize_pos (Nat.le_max_right _ _)
  have hle : raw ≤ roundUp raw (max (2 ^ k) pageSize) := le_roundUp hpos
  have hlt : roundUp raw (max (2 ^ k) pageSize) < raw + max (2 ^ k) pageSize := roundUp_lt raw hpos
  have hdvd := dvd_roundUp raw (max (2 ^ k) pageSize)
  unfold spanFor at *
  have hhead : roundUp raw (max (2 ^ k) pageSize) - raw ≤
      roundUp size pageSize + max (2 ^ k) pageSize := by
    omega
  have htail : roundUp size pageSize ≤ roundUp size pageSize + max (2 ^ k) pageSize -
      (roundUp raw (max (2 ^ k) pageSize) - raw) := by
    omega
  refine ⟨_, by simp only [trim, roundUp?_of_lt hpos hfits, Word.sub?_of_le hle,
    Word.sub?_of_le hhead, Word.sub?_of_le htail, bind, Except.bind]; rfl, ?_⟩
  exact {
    aligned := Nat.dvd_trans halign hdvd
    pages := Nat.dvd_trans hpage hdvd
    least := leastMultiple_roundUp size pageSize_pos
    raw_le := hle
    finish_le := by dsimp only; omega
    head_eq := by dsimp only; omega
    tail_eq := by dsimp only; omega }

theorem range_of_trim {raw span size alignment : Nat} {cut : Cut}
    (h : trim raw span size alignment = .ok cut) :
    cut.range = ⟨roundUp raw (max alignment pageSize), size⟩ := by
  have hpos : 0 < max alignment pageSize := Nat.lt_of_lt_of_le pageSize_pos (Nat.le_max_right _ _)
  obtain ⟨start, hstart, h⟩ := ok_of_bind h
  obtain ⟨_, _, h⟩ := ok_of_bind h
  obtain ⟨_, _, h⟩ := ok_of_bind h
  obtain ⟨_, _, h⟩ := ok_of_bind h
  obtain rfl := Except.ok.inj h
  by_cases hlt : raw + max alignment pageSize < Word.limit
  · obtain rfl := Except.ok.inj ((roundUp?_of_lt hpos hlt).symm.trans hstart)
    rfl
  · cases (roundUp?_of_le (Nat.not_lt.mp hlt)).symm.trans hstart

theorem reserve_of_sensible {place : Nat → Option Nat} {size alignment raw : Nat}
    (hsense : Sensible size alignment) (hplace : place (spanFor size alignment) = some raw)
    (hfits : raw + max alignment pageSize < Word.limit) :
    ∃ cut, reserve place size alignment = .ok cut.range ∧
      trim raw (spanFor size alignment) (roundUp size pageSize) alignment = .ok cut ∧
      cut.Exact raw (spanFor size alignment) size alignment := by
  obtain ⟨-, hplan⟩ := (plan_eq size alignment).resolve_right fun h => h.1 hsense
  obtain ⟨k, rfl⟩ := hsense.power
  obtain ⟨cut, hcut, hexact⟩ := trim_exact size hfits
  refine ⟨cut, ?_, hcut, hexact⟩
  simp only [reserve, hplan, bind, Except.bind, hplace, mapError_of_ok hcut]

/-- A range that is reserved starts at the first aligned address of the span, and has whole pages. -/
theorem range_of_reserve {place : Nat → Option Nat} {size alignment : Nat} {r : Reservation}
    (h : reserve place size alignment = .ok r) :
    ∃ raw, place (spanFor size alignment) = some raw ∧
      r = ⟨roundUp raw (max alignment pageSize), roundUp size pageSize⟩ := by
  obtain ⟨⟨pages, span⟩, hplan, h⟩ := ok_of_bind h
  obtain ⟨hsense, hexact⟩ : Sensible size alignment ∧
      plan size alignment = .ok (roundUp size pageSize, spanFor size alignment) := by
    rcases plan_eq size alignment with hsense | ⟨-, hnot⟩
    · exact hsense
    · rw [hplan] at hnot
      split at hnot <;> cases hnot
  obtain ⟨rfl, rfl⟩ := Prod.mk.inj (Except.ok.inj (hplan.symm.trans hexact))
  dsimp only at h
  split at h
  · cases h
  · next raw hplace =>
    refine ⟨raw, hplace, ?_⟩
    cases htrim : trim raw (spanFor size alignment) (roundUp size pageSize) alignment with
    | error f =>
        rw [htrim] at h
        cases h
    | ok cut =>
        rw [htrim] at h
        obtain rfl := Except.ok.inj h
        exact range_of_trim htrim

/-- Where the span of the request is mapped if it is a word, a sensible request is answered by an exact
cut, which no subtraction stops. Of all others, those are refused as invalid whose size is zero, whose
alignment is no power of two or whose size can be rounded up to pages within a word, and the addition of
the rounding stops the program for the rest. -/
theorem reserve_exact_iff {place : Nat → Option Nat} {size alignment : Nat}
    (maps : spanFor size alignment < Word.limit →
      ∃ raw, place (spanFor size alignment) = some raw ∧ pageSize ∣ raw ∧
        raw + spanFor size alignment < Word.limit) :
    (Sensible size alignment → ∃ raw cut, place (spanFor size alignment) = some raw ∧
      reserve place size alignment = .ok cut.range ∧
      trim raw (spanFor size alignment) (roundUp size pageSize) alignment = .ok cut ∧
      cut.Exact raw (spanFor size alignment) size alignment) ∧
    (¬Sensible size alignment →
      (reserve place size alignment = .error .invalidInput ↔
        size = 0 ∨ (∀ k, alignment ≠ 2 ^ k) ∨ size + pageSize < Word.limit) ∧
      (reserve place size alignment ≠ .error .invalidInput →
        reserve place size alignment = .error (.fault .addition))) := by
  rcases plan_eq size alignment with ⟨hsense, hplan⟩ | ⟨hnot, hplan⟩
  · refine ⟨fun _ => ?_, fun hnot => absurd hsense hnot⟩
    obtain ⟨raw, hplace, -, hfits⟩ := maps hsense.span_lt
    have hroom : max alignment pageSize ≤ spanFor size alignment := Nat.le_add_left ..
    obtain ⟨cut, hok, hcut, hexact⟩ := reserve_of_sensible hsense hplace (by omega)
    exact ⟨raw, cut, hplace, hok, hcut, hexact⟩
  · refine ⟨fun hsense => absurd hsense hnot, fun _ => ?_⟩
    have hpower : (∀ k, alignment ≠ 2 ^ k) ↔ isPowerOfTwo alignment = false := by
      rw [← not_exists, ← isPowerOfTwo_iff, Bool.not_eq_true]
    rw [hpower]
    split at hplan
    case isTrue h =>
      have hres : reserve place size alignment = .error (.fault .addition) := by
        simp only [reserve, hplan, bind, Except.bind]
      rw [hres]
      exact ⟨iff_of_false nofun (by grind), fun _ => rfl⟩
    case isFalse h =>
      have hres : reserve place size alignment = .error .invalidInput := by
        simp only [reserve, hplan, bind, Except.bind]
      rw [hres]
      exact ⟨iff_of_true rfl (by grind), fun hne => absurd rfl hne⟩

/-- A request for a mebibyte's alignment where the first free address is that of the second page. -/
theorem second_page_cut :
    ∃ (raw : Nat) (cut : Cut), reserve (fun _ => some 0x1000) 5000 (2 ^ 20) = .ok cut.range ∧
      cut.Exact raw (spanFor 5000 (2 ^ 20)) 5000 (2 ^ 20) ∧ cut.range.size = 2 * pageSize := by
  have hlt : spanFor 5000 (2 ^ 20) < Word.limit := by decide
  obtain ⟨raw, cut, -, hok, -, hexact⟩ :=
    (@reserve_exact_iff (fun _ => some 0x1000) 5000 (2 ^ 20)
      fun _ => ⟨0x1000, rfl, by decide, by decide⟩).1 ⟨by decide, ⟨20, rfl⟩, hlt⟩
  have hmost := hexact.least.least (2 * pageSize) (by decide) (by decide)
  obtain ⟨pages, hpages⟩ := hexact.least.dvd
  have hleast := hexact.least.le
  refine ⟨raw, cut, hok, hexact, ?_⟩
  unfold pageSize at *
  omega

/-- A request for all but one of the bytes there are should be refused. It stops the program, though its
alignment is that of a page and every span is mapped. -/
theorem last_size_faults :
    ¬Sensible Word.last pageSize ∧
      reserve (fun _ => some 0x1000) Word.last pageSize = .error (.fault .addition) ∧
      reserve (fun _ => some 0x1000) Word.last pageSize ≠ .error .invalidInput := by
  exact ⟨fun h => absurd h.span_lt (by decide), rfl, nofun⟩

end Reservation

end TypedHeap
