import Mathlib.Tactic.SplitIfs
import TypedHeap.Json.Writer
import TypedHeap.Proofs.Numerals

/-! # Reading what was written

A value that is written is read back as it was, whatever text follows it, as long as that does not
continue a number. This is so for all values but numbers that are no integers, of which only the text
is kept, and strings that stand for no text.
-/

namespace TypedHeap.Json

/-! ## Writing in front of a text -/

theorem writeChar_append (c : Char) (s t : List Char) : writeChar c (s ++ t) = writeChar c s ++ t := by
  unfold writeChar
  split_ifs <;> rfl

theorem writeText_append (text : String) (s t : List Char) :
    writeText text (s ++ t) = writeText text s ++ t := by
  have hchars (cs : List Char) :
      cs.foldr writeChar ('"' :: (s ++ t)) = cs.foldr writeChar ('"' :: s) ++ t := by
    induction cs with
    | nil => rfl
    | cons c cs ih => rw [List.foldr_cons, ih, writeChar_append, List.foldr_cons]
  rw [writeText, hchars, writeText, List.cons_append]

theorem writeInt_append (n : Int) (s t : List Char) : writeInt n (s ++ t) = writeInt n s ++ t := by
  cases n <;> simp [writeInt]

mutual

theorem Value.write_append : ∀ (v : Value) (s t : List Char), v.write (s ++ t) = v.write s ++ t
  | .null, _, _ => rfl
  | .bool true, _, _ => rfl
  | .bool false, _, _ => rfl
  | .int n, s, t => writeInt_append n s t
  | .real text, s, t => (List.append_assoc ..).symm
  | .text text, s, t => writeText_append text s t
  | .garbled, s, t => writeText_append "" s t
  | .list [], _, _ => rfl
  | .list (v :: vs), s, t => by
      simp only [Value.write, ← List.cons_append, writeItems_append, Value.write_append v]
  | .record [], _, _ => rfl
  | .record ((name, v) :: ms), s, t => by
      simp only [Value.write, ← List.cons_append, writeMembers_append, Value.write_append v,
        writeText_append]

theorem writeItems_append : ∀ (vs : List Value) (s t : List Char),
    writeItems vs (s ++ t) = writeItems vs s ++ t
  | [], _, _ => rfl
  | v :: vs, s, t => by
      simp only [writeItems, List.cons_append, writeItems_append vs, Value.write_append v]

theorem writeMembers_append : ∀ (ms : List (Option String × Value)) (s t : List Char),
    writeMembers ms (s ++ t) = writeMembers ms s ++ t
  | [], _, _ => rfl
  | (name, v) :: ms, s, t => by
      simp only [writeMembers, ← List.cons_append, writeMembers_append ms, Value.write_append v,
        writeText_append]

end

theorem Value.write_eq (v : Value) (rest : List Char) : v.write rest = v.render.toList ++ rest := by
  rw [render, String.toList_ofList, ← write_append, List.nil_append]

theorem Value.write_list (vs : List Value) (rest : List Char) : (Value.list vs).write rest =
    '[' :: (",".intercalate (vs.map render)).toList ++ ']' :: rest := by
  have hitems (v : Value) (vs : List Value) (s : List Char) : v.write (writeItems vs s) =
      (",".intercalate (v.render :: vs.map render)).toList ++ s := by
    induction vs generalizing v with
    | nil => simpa [writeItems] using v.write_eq s
    | cons u vs ih =>
        rw [writeItems, write_eq, ih, List.map_cons, String.intercalate_cons_cons]
        simp
  cases vs with
  | nil => rfl
  | cons v vs => rw [write, hitems, List.map_cons, List.cons_append]

/-! ## Strings -/

theorem readString_escaped {e c : Char} (h : escaped? e = some c) (rest acc : List Char) :
    readString ('\\' :: e :: rest) (.proper acc) = readString rest (.proper (c :: acc)) := by
  have hu : e ≠ 'u' := by
    rintro rfl
    cases h
  rw [readString]
  · simp [h, Partial.push]
  · intro _ _ _ _ _ heq
    exact absurd heq hu

theorem fixed_four {n : Nat} (h : n < 32) :
    Hex.fixed 4 n = [Hex.digit 0, Hex.digit 0, Hex.digit (n / 16), Hex.digit (n % 16)] := by
  have hhigh : n / 16 % 16 = n / 16 := by omega
  have hnone : n / 16 / 16 = 0 := by omega
  simp [Hex.fixed, hhigh, hnone]

theorem readString_control {c : Char} (hc : c.toNat < 32) (rest acc : List Char) :
    readString ('\\' :: 'u' :: Hex.fixed 4 c.toNat ++ rest) (.proper acc) =
      readString rest (.proper (c :: acc)) := by
  have hzero : Hex.value? (Hex.digit 0) = some 0 := rfl
  have hhigh : Hex.value? (Hex.digit (c.toNat / 16)) = some (c.toNat / 16) :=
    Hex.value?_digit (by omega)
  have hlow : Hex.value? (Hex.digit (c.toNat % 16)) = some (c.toNat % 16) :=
    Hex.value?_digit (by omega)
  have hunit : 0 * 4096 + 0 * 256 + c.toNat / 16 * 16 + c.toNat % 16 = c.toNat := by omega
  have hupper : Partial.isUpperHalf c.toNat = false := by
    simp only [Partial.isUpperHalf, Bool.and_eq_false_iff, decide_eq_false_iff_not]
    omega
  have hlower : Partial.isLowerHalf c.toNat = false := by
    simp only [Partial.isLowerHalf, Bool.and_eq_false_iff, decide_eq_false_iff_not]
    omega
  rw [fixed_four hc]
  simp only [List.cons_append, List.nil_append, readString, hzero, hhigh, hlow, hunit,
    Partial.pushUnit, hupper, hlower, Bool.false_eq_true, if_false, Char.ofNat_toNat]

/-- A character that is written is read as itself. -/
theorem readString_writeChar (c : Char) (rest acc : List Char) :
    readString (writeChar c rest) (.proper acc) = readString rest (.proper (c :: acc)) := by
  unfold writeChar
  split
  · next h => rw [h]; exact readString_escaped rfl rest acc
  split
  · next h => rw [h]; exact readString_escaped rfl rest acc
  split
  · next h => rw [h]; exact readString_escaped rfl rest acc
  split
  · next h => rw [h]; exact readString_escaped rfl rest acc
  split
  · next h => rw [h]; exact readString_escaped rfl rest acc
  split
  · next h => rw [h]; exact readString_escaped rfl rest acc
  split
  · next h => rw [h]; exact readString_escaped rfl rest acc
  split
  · next hcontrol => exact readString_control hcontrol rest acc
  · next hquote hbackslash _ _ _ _ _ hplain =>
    rw [readString]
    · simp [hbackslash, hplain, Partial.push]
    all_goals grind

theorem readString_writeText (s : String) (rest : List Char) :
    readString (s.toList.foldr writeChar ('"' :: rest)) (.proper []) = some (some s, rest) := by
  have hchars (cs acc : List Char) : readString (cs.foldr writeChar ('"' :: rest)) (.proper acc) =
      some (some (String.ofList (acc.reverse ++ cs)), rest) := by
    induction cs generalizing acc with
    | nil => simp [readString, Partial.finish]
    | cons c cs ih => rw [List.foldr_cons, readString_writeChar, ih]; simp
  simpa using hchars s.toList []

/-! ## Numbers -/

def EndsNumber (rest : List Char) : Prop :=
  ∀ c ∈ rest.head?, c.isDigit = false ∧ c ≠ '.' ∧ c ≠ 'e' ∧ c ≠ 'E'

theorem endsNumber_cons {c : Char} (rest : List Char)
    (h : c.isDigit = false ∧ c ≠ '.' ∧ c ≠ 'e' ∧ c ≠ 'E') : EndsNumber (c :: rest) := by
  rintro _ ⟨⟩
  exact h

theorem EndsNumber.readFraction {rest : List Char} (h : EndsNumber rest) :
    readFraction rest = some ([], rest) := by
  unfold Json.readFraction
  split
  · next r => exact absurd rfl (h '.' rfl).2.1
  · rfl

theorem EndsNumber.readExponent {rest : List Char} (h : EndsNumber rest) :
    readExponent rest = some ([], rest) := by
  cases rest with
  | nil => rfl
  | cons c rest =>
      obtain ⟨_, _, he, hE⟩ := h c rfl
      simp [Json.readExponent, he, hE]

/-- The digits in front of a text that ends a number are all the digits there are. -/
theorem span_toDigits (n : Nat) {rest : List Char} (h : EndsNumber rest) :
    (Nat.toDigits 10 n ++ rest).takeWhile Char.isDigit = Nat.toDigits 10 n ∧
      (Nat.toDigits 10 n ++ rest).dropWhile Char.isDigit = rest := by
  have hdigits : ∀ c ∈ Nat.toDigits 10 n, c.isDigit = true := fun c hc =>
    Nat.isDigit_of_mem_toDigits (by decide) (by decide) hc
  rw [List.takeWhile_append_of_pos hdigits, List.dropWhile_append_of_pos hdigits]
  cases rest with
  | nil => simp
  | cons c rest => simp [(h c rfl).1]

theorem toDigits_eq_cons (n : Nat) :
    ∃ d ds, Nat.toDigits 10 n = d :: ds ∧ d.isDigit = true := by
  cases hdigits : Nat.toDigits 10 n with
  | nil => exact absurd hdigits Nat.toDigits_ne_nil
  | cons d ds =>
      refine ⟨d, ds, rfl, Nat.isDigit_of_mem_toDigits (b := 10) (n := n) (by decide) (by decide) ?_⟩
      exact hdigits ▸ List.mem_cons_self

/-- An integer that is written is read as itself. -/
theorem readNumber_writeInt (n : Int) {rest : List Char} (hrest : EndsNumber rest) :
    readNumber (writeInt n rest) = some (.int n, rest) := by
  cases n with
  | ofNat n =>
      obtain ⟨htake, hdrop⟩ := span_toDigits n hrest
      obtain ⟨d, ds, hdigits, hd⟩ := toDigits_eq_cons n
      have hsign (r : List Char) (heq : Nat.toDigits 10 n ++ rest = '-' :: r) : False := by
        rw [hdigits] at heq
        obtain ⟨rfl, -⟩ := List.cons.inj heq
        cases hd
      unfold readNumber
      split
      next negative r hmatch =>
      split at hmatch
      · next heq => exact (hsign _ heq).elim
      · obtain ⟨rfl, rfl⟩ := Prod.mk.inj hmatch
        simp [writeInt, htake, hdrop, wholeIsPlain_toDigits, hrest.readFraction,
          hrest.readExponent, digitsValue_toDigits]
  | negSucc n =>
      obtain ⟨htake, hdrop⟩ := span_toDigits (n + 1) hrest
      show readNumber ('-' :: Nat.toDigits 10 (n + 1) ++ rest) =
        some (.int (-((n + 1 : Nat) : Int)), rest)
      simp [readNumber, htake, hdrop, wholeIsPlain_toDigits, hrest.readFraction,
        hrest.readExponent, digitsValue_toDigits]

/-! ## Values -/

/-- A value that is told by its text: no number but integers, and no strings but texts. -/
inductive Value.Plain : Value → Prop where
  | null : Plain .null
  | bool (b : Bool) : Plain (.bool b)
  | int (n : Int) : Plain (.int n)
  | text (s : String) : Plain (.text s)
  | list {vs : List Value} (h : ∀ v ∈ vs, Plain v) : Plain (.list vs)
  | ofMembers {ms : List (String × Value)} (h : ∀ m ∈ ms, Plain m.2) : Plain (.ofMembers ms)

theorem skipBlanks_cons {c : Char} (h : isBlank c = false) (rest : List Char) :
    skipBlanks (c :: rest) = c :: rest := by
  simp [skipBlanks, h]

theorem writeInt_eq_cons (n : Int) (rest : List Char) :
    ∃ c r, writeInt n rest = c :: r ∧ (c.isDigit = true ∨ c = '-') := by
  cases n with
  | negSucc n => exact ⟨'-', _, rfl, .inr rfl⟩
  | ofNat n =>
      obtain ⟨d, ds, hdigits, hd⟩ := toDigits_eq_cons n
      exact ⟨d, ds ++ rest, by simp [writeInt, hdigits], .inl hd⟩

theorem isBlank_number {c : Char} (h : c.isDigit = true ∨ c = '-') :
    isBlank c = false := by
  rcases h with h | rfl
  · simp only [isBlank, Bool.or_eq_false_iff, decide_eq_false_iff_not]
    refine ⟨⟨⟨?_, ?_⟩, ?_⟩, ?_⟩ <;> rintro rfl <;> cases h
  · rfl

theorem Value.Plain.write_eq_cons {v : Value} (h : v.Plain) (rest : List Char) :
    ∃ c r, v.write rest = c :: r ∧ isBlank c = false ∧ c ≠ ']' := by
  cases h with
  | null => exact ⟨'n', _, rfl, rfl, by decide⟩
  | bool b => cases b with
    | true => exact ⟨'t', _, rfl, rfl, by decide⟩
    | false => exact ⟨'f', _, rfl, rfl, by decide⟩
  | int n =>
      obtain ⟨c, r, hwrite, hc⟩ := writeInt_eq_cons n rest
      refine ⟨c, r, hwrite, isBlank_number hc, ?_⟩
      rintro rfl
      exact absurd hc (by decide)
  | text s => exact ⟨'"', _, rfl, rfl, by decide⟩
  | @list vs _ => cases vs with
    | nil => exact ⟨'[', _, rfl, rfl, by decide⟩
    | cons v vs => exact ⟨'[', _, rfl, rfl, by decide⟩
  | @ofMembers ms _ => cases ms with
    | nil => exact ⟨'\x7b', _, rfl, rfl, by decide⟩
    | cons m ms => exact ⟨'\x7b', _, rfl, rfl, by decide⟩

theorem Value.Plain.length_lt_write {v : Value} (h : v.Plain) (rest : List Char) :
    rest.length < (v.write rest).length := by
  obtain ⟨c, r, hwrite, -, -⟩ := h.write_eq_cons []
  have happend := v.write_append [] rest
  rw [hwrite, List.nil_append] at happend
  simp only [happend, List.cons_append, List.length_cons, List.length_append]
  omega

/-- The value is read from its text. Two units of fuel for each character are enough: a bracket takes
one for the value and one for the item behind it. -/
def Value.ReadsBack (v : Value) : Prop :=
  ∀ (rest : List Char) (fuel : Nat), EndsNumber rest → 2 * (v.write rest).length ≤ fuel + 1 →
    readValue (fuel + 1) (v.write rest) = some (v, rest)

theorem readValue_writeInt (n : Int) {rest : List Char} (hrest : EndsNumber rest) (fuel : Nat) :
    readValue (fuel + 1) (writeInt n rest) = some (.int n, rest) := by
  obtain ⟨c, r, hwrite, hc⟩ := writeInt_eq_cons n rest
  have hread := readNumber_writeInt n hrest
  rw [hwrite] at hread ⊢
  rw [readValue, skipBlanks_cons (isBlank_number hc)]
  split
  case h_7 => exact hread
  -- All other values begin with a character that no number begins with.
  all_goals
    next heq =>
    obtain ⟨rfl, -⟩ := List.cons.inj heq
    exact absurd hc (by decide)

theorem readValue_writeText (text : String) (rest : List Char) (fuel : Nat) :
    readValue (fuel + 1) (writeText text rest) = some (.text text, rest) := by
  simp [readValue, writeText, skipBlanks_cons, isBlank, readString_writeText]

/-! ### Lists -/

theorem readItems_next {fuel : Nat} {s rest : List Char} {v : Value}
    (h : readValue fuel s = some (v, ',' :: rest)) (acc : List Value) :
    readItems (fuel + 1) s acc = readItems fuel rest (v :: acc) := by
  simp [readItems, h, skipBlanks_cons, isBlank]

theorem readItems_last {fuel : Nat} {s rest : List Char} {v : Value}
    (h : readValue fuel s = some (v, ']' :: rest)) (acc : List Value) :
    readItems (fuel + 1) s acc = some (.list (acc.reverse ++ [v]), rest) := by
  simp [readItems, h, skipBlanks_cons, isBlank]

theorem readItems_write {v : Value} {vs : List Value} {fuel : Nat} {rest : List Char}
    (h : ∀ u ∈ v :: vs, u.Plain ∧ u.ReadsBack) (acc : List Value)
    (hfuel : 2 * (v.write (writeItems vs (']' :: rest))).length ≤ fuel + 1) :
    readItems (fuel + 2) (v.write (writeItems vs (']' :: rest))) acc =
      some (.list (acc.reverse ++ v :: vs), rest) := by
  obtain ⟨hplain, hback⟩ := h v List.mem_cons_self
  induction vs generalizing v fuel acc with
  | nil =>
      exact readItems_last (hback (']' :: rest) fuel (endsNumber_cons rest (by decide)) hfuel) acc
  | cons u vs ih =>
      obtain ⟨huplain, huback⟩ := h u (List.mem_cons_of_mem _ List.mem_cons_self)
      rw [writeItems] at hfuel ⊢
      have hread := hback _ fuel (endsNumber_cons _ (by decide)) hfuel
      have hshort := hplain.length_lt_write (',' :: u.write (writeItems vs (']' :: rest)))
      rw [List.length_cons] at hshort
      obtain ⟨fuel, rfl⟩ : ∃ g, fuel = g + 1 := ⟨fuel - 1, by omega⟩
      rw [readItems_next hread,
        ih (fun w hw => h w (List.mem_cons_of_mem _ hw)) _ (by omega) huplain huback]
      simp

theorem Value.ReadsBack.list {vs : List Value} (h : ∀ v ∈ vs, v.Plain ∧ v.ReadsBack) :
    (Value.list vs).ReadsBack := by
  intro rest fuel _ hfuel
  cases vs with
  | nil => simp [write, readValue, skipBlanks_cons, isBlank]
  | cons v vs =>
      rw [write, List.length_cons] at hfuel
      obtain ⟨c, r, hwrite, hblank, hclose⟩ :=
        (h v List.mem_cons_self).1.write_eq_cons (writeItems vs (']' :: rest))
      obtain ⟨fuel, rfl⟩ : ∃ g, fuel = g + 2 := ⟨fuel - 2, by
        rw [hwrite, List.length_cons] at hfuel
        omega⟩
      have hread : readItems (fuel + 2) (v.write (writeItems vs (']' :: rest))) [] =
          some (.list (v :: vs), rest) := readItems_write h [] (by omega)
      have hopen : isBlank '[' = false := rfl
      rw [hwrite] at hread
      simpa [write, readValue, hwrite, skipBlanks_cons, hopen, hblank, hclose] using hread

/-! ### Records -/

theorem readMembers_next {fuel : Nat} {s rest : List Char} {v : Value} (name : String)
    (h : readValue fuel s = some (v, ',' :: rest)) (acc : List (Option String × Value)) :
    readMembers (fuel + 1) (writeText name (':' :: s)) acc =
      readMembers fuel rest ((some name, v) :: acc) := by
  simp [readMembers, writeText, readString_writeText, h, skipBlanks_cons, isBlank]

theorem readMembers_last {fuel : Nat} {s rest : List Char} {v : Value} (name : String)
    (h : readValue fuel s = some (v, '\x7d' :: rest)) (acc : List (Option String × Value)) :
    readMembers (fuel + 1) (writeText name (':' :: s)) acc =
      some (.record (acc.reverse ++ [(some name, v)]), rest) := by
  simp [readMembers, writeText, readString_writeText, h, skipBlanks_cons, isBlank]

theorem length_lt_writeText (text : String) (rest : List Char) :
    rest.length < (writeText text rest).length := by
  have happend := writeText_append text [] rest
  rw [List.nil_append] at happend
  rw [happend, writeText]
  simp only [List.cons_append, List.length_cons, List.length_append]
  omega

def writeBody (m : String × Value) (ms : List (String × Value)) (rest : List Char) : List Char :=
  writeText m.1 (':' :: m.2.write
    (writeMembers (ms.map fun m => (some m.1, m.2)) ('\x7d' :: rest)))

theorem writeBody_nil (m : String × Value) (rest : List Char) :
    writeBody m [] rest = writeText m.1 (':' :: m.2.write ('\x7d' :: rest)) := rfl

theorem writeBody_cons (m l : String × Value) (ms : List (String × Value)) (rest : List Char) :
    writeBody m (l :: ms) rest = writeText m.1 (':' :: m.2.write (',' :: writeBody l ms rest)) := rfl

theorem readMembers_write {m : String × Value} {ms : List (String × Value)} {fuel : Nat}
    {rest : List Char} (h : ∀ l ∈ m :: ms, l.2.Plain ∧ l.2.ReadsBack)
    (acc : List (Option String × Value)) (hfuel : 2 * (writeBody m ms rest).length ≤ fuel + 1) :
    readMembers (fuel + 2) (writeBody m ms rest) acc =
      some (.record (acc.reverse ++ (m :: ms).map fun m => (some m.1, m.2)), rest) := by
  obtain ⟨hplain, hback⟩ := h m List.mem_cons_self
  induction ms generalizing m fuel acc with
  | nil =>
      rw [writeBody_nil] at hfuel ⊢
      have hname := length_lt_writeText m.1 (':' :: m.2.write ('\x7d' :: rest))
      rw [List.length_cons] at hname
      exact readMembers_last m.1
        (hback ('\x7d' :: rest) fuel (endsNumber_cons rest (by decide)) (by omega)) acc
  | cons l ms ih =>
      obtain ⟨hlplain, hlback⟩ := h l (List.mem_cons_of_mem _ List.mem_cons_self)
      rw [writeBody_cons] at hfuel ⊢
      have hname := length_lt_writeText m.1 (':' :: m.2.write (',' :: writeBody l ms rest))
      have hvalue := hplain.length_lt_write (',' :: writeBody l ms rest)
      rw [List.length_cons] at hname hvalue
      have hread := hback (',' :: writeBody l ms rest) fuel (endsNumber_cons _ (by decide))
        (by omega)
      obtain ⟨fuel, rfl⟩ : ∃ g, fuel = g + 1 := ⟨fuel - 1, by omega⟩
      rw [readMembers_next m.1 hread,
        ih (fun k hk => h k (List.mem_cons_of_mem _ hk)) _ (by omega) hlplain hlback]
      simp

theorem Value.ReadsBack.ofMembers {ms : List (String × Value)}
    (h : ∀ m ∈ ms, m.2.Plain ∧ m.2.ReadsBack) : (Value.ofMembers ms).ReadsBack := by
  intro rest fuel _ hfuel
  cases ms with
  | nil => simp [Value.ofMembers, write, readValue, skipBlanks_cons, isBlank]
  | cons m ms =>
      have hwrite : (Value.ofMembers (m :: ms)).write rest = '\x7b' :: writeBody m ms rest := rfl
      rw [hwrite, List.length_cons] at hfuel
      have hname : 0 < (writeBody m ms rest).length := Nat.zero_lt_of_lt (length_lt_writeText m.1 _)
      obtain ⟨fuel, rfl⟩ : ∃ g, fuel = g + 2 := ⟨fuel - 2, by omega⟩
      have hread : readMembers (fuel + 2) (writeBody m ms rest) [] =
          some (.ofMembers (m :: ms), rest) := readMembers_write h [] (by omega)
      rw [hwrite, readValue, skipBlanks_cons (c := '\x7b') rfl]
      simpa [Value.ofMembers, writeBody, writeText, skipBlanks_cons, isBlank] using hread

/-! ### All values -/

/-- A value that is told by its text is read from it. -/
theorem Value.Plain.readsBack {v : Value} (h : v.Plain) : v.ReadsBack := by
  induction h with
  | null => exact fun _ _ _ _ => rfl
  | bool b => exact fun _ _ _ _ => by cases b <;> rfl
  | int n => exact fun _ fuel hrest _ => readValue_writeInt n hrest fuel
  | text s => exact fun rest fuel _ _ => readValue_writeText s rest fuel
  | list h ih => exact .list fun v hv => ⟨h v hv, ih v hv⟩
  | ofMembers h ih => exact .ofMembers fun m hm => ⟨h m hm, ih m hm⟩

theorem Value.Plain.parse?_render {v : Value} (h : v.Plain) : parse? v.render = some v := by
  have hread := h.readsBack [] (2 * (v.write []).length + 1) nofun (by omega)
  rw [parse?, render, String.toList_ofList, ofChars?, hread]
  rfl

end TypedHeap.Json
