import TypedHeap.Proofs.Numerals

/-! # Texts of hashes

A text is read as a hash just if it is a mark, `0x` or `0X`, and a hexadecimal numeral for a word, with
underscores anywhere and perhaps a plus sign in front of it. So the text that is written for a hash is
read as that hash, and underscores, leading zeros and digits of the other case change nothing.
-/

namespace TypedHeap

namespace Hex

/-- `s` is `t` after underscores were put in anywhere and zeros in front, and digits changed their
case. -/
inductive Restyles (t : List Char) : List Char → Prop
  | same : Restyles t t
  | underscore (front back : List Char) :
      Restyles t (front ++ back) → Restyles t (front ++ '_' :: back)
  | zero {s : List Char} : Restyles t s → Restyles t ('0' :: s)
  | recase (front back : List Char) {c c' : Char} {d : Nat} :
      Restyles t (front ++ c :: back) → IsDigit c d → IsDigit c' d → Restyles t (front ++ c' :: back)

/-- A numeral with at most one plus sign in front. -/
inductive Signed : List Char → Nat → Prop
  | plain {t : List Char} {n : Nat} : Numeral t n → Signed t n
  | plus {t : List Char} {n : Nat} : Numeral t n → Signed ('+' :: t) n

theorem Numeral.filter_eq {t : List Char} {n : Nat} (h : Numeral t n) : t.filter (· ≠ '_') = t :=
  List.filter_eq_self.mpr fun _ hc => by
    obtain ⟨d, hd⟩ := h.isDigit hc
    exact decide_eq_true hd.ne_mark.2

theorem Restyles.numeral {t s : List Char} {n : Nat} (h : Restyles t s)
    (ht : Numeral (t.filter (· ≠ '_')) n) : Numeral (s.filter (· ≠ '_')) n := by
  induction h with
  | same => exact ht
  | underscore front back _ ih => simpa using ih
  | zero _ ih => exact ih.zero_cons
  | recase front back _ hc hc' ih =>
      rw [List.filter_append, List.filter_cons_of_pos (by simpa using hc.ne_mark.2)] at ih
      rw [List.filter_append, List.filter_cons_of_pos (by simpa using hc'.ne_mark.2)]
      exact ih.replace rfl hc hc'

end Hex

namespace TypeHash

open Hex

/-! ## Reading digits -/

theorem readDigits_cons_eq_ok_iff {c : Char} {t : List Char} {acc n : Nat} :
    readDigits (c :: t) acc = .ok n ↔
      ∃ d, IsDigit c d ∧ acc * 16 + d < 2 ^ 64 ∧ readDigits t (acc * 16 + d) = .ok n := by
  rw [readDigits]
  constructor
  · intro h
    split at h
    case h_1 => cases h
    case h_2 d hd =>
      split at h
      · next hlt => exact ⟨d, isDigit_of_value? hd, hlt, h⟩
      · cases h
  · rintro ⟨d, hd, hlt, h⟩
    rw [value?_eq_some_iff.mpr hd]
    exact (if_pos hlt).trans h

theorem readDigits_append {t rest : List Char} {n m : Nat} (ht : Numeral t n) (hn : n < 2 ^ 64)
    (h : readDigits rest n = .ok m) : readDigits (t ++ rest) 0 = .ok m := by
  induction ht generalizing rest with
  | @one c d hc => exact readDigits_cons_eq_ok_iff.mpr ⟨d, hc, by omega, by simpa using h⟩
  | @more t n c d _ hc ih =>
      rw [List.append_assoc]
      exact ih (by omega) (readDigits_cons_eq_ok_iff.mpr ⟨d, hc, hn, h⟩)

/-- What is read on after a numeral makes a longer one. -/
theorem numeral_of_readDigits {front t : List Char} {acc n : Nat} (hfront : Numeral front acc)
    (hacc : acc < 2 ^ 64) (h : readDigits t acc = .ok n) : Numeral (front ++ t) n ∧ n < 2 ^ 64 := by
  induction t generalizing front acc with
  | nil =>
      obtain rfl := Except.ok.inj h
      rw [List.append_nil]
      exact ⟨hfront, hacc⟩
  | cons c t ih =>
      obtain ⟨d, hd, hlt, hrest⟩ := readDigits_cons_eq_ok_iff.mp h
      rw [List.append_cons]
      exact ih (hfront.more hd) hlt hrest

theorem readDigits_eq_ok_iff {t : List Char} {n : Nat} (ht : t ≠ []) :
    readDigits t 0 = .ok n ↔ Numeral t n ∧ n < 2 ^ 64 := by
  constructor
  · intro h
    -- The empty text is no numeral, so the invariant holds from the first digit on.
    cases t with
    | nil => exact absurd rfl ht
    | cons c t =>
        obtain ⟨d, hd, hlt, hrest⟩ := readDigits_cons_eq_ok_iff.mp h
        rw [Nat.zero_mul, Nat.zero_add] at hlt hrest
        exact numeral_of_readDigits (.one hd) hlt hrest
  · rintro ⟨hnumeral, hn⟩
    have hread : readDigits (t ++ []) 0 = .ok n := readDigits_append hnumeral hn rfl
    rwa [List.append_nil] at hread

theorem readWord_plus {t : List Char} (ht : t ≠ []) : readWord ('+' :: t) = readDigits t 0 := by
  cases t with
  | nil => exact absurd rfl ht
  | cons c t => rfl

theorem readWord_cons {c : Char} {t : List Char} (hc : c ≠ '+') :
    readWord (c :: t) = readDigits (c :: t) 0 := by
  unfold readWord
  split <;> simp_all

theorem readWord_eq_ok_iff {t : List Char} {n : Nat} :
    readWord t = .ok n ↔ Signed t n ∧ n < 2 ^ 64 := by
  constructor
  · intro h
    cases t with
    | nil => cases h
    | cons c t =>
        by_cases hc : c = '+'
        · subst hc
          have ht : t ≠ [] := fun hnil => by
            subst hnil
            cases h
          rw [readWord_plus ht, readDigits_eq_ok_iff ht] at h
          exact ⟨.plus h.1, h.2⟩
        · rw [readWord_cons hc, readDigits_eq_ok_iff (List.cons_ne_nil c t)] at h
          exact ⟨.plain h.1, h.2⟩
  · rintro ⟨hsigned, hn⟩
    cases hsigned with
    | plus hnumeral =>
        rw [readWord_plus hnumeral.ne_nil, readDigits_eq_ok_iff hnumeral.ne_nil]
        exact ⟨hnumeral, hn⟩
    | plain hnumeral =>
        cases t with
        | nil => exact absurd rfl hnumeral.ne_nil
        | cons c t =>
            obtain ⟨d, hd⟩ := hnumeral.isDigit List.mem_cons_self
            rw [readWord_cons hd.ne_mark.1, readDigits_eq_ok_iff hnumeral.ne_nil]
            exact ⟨hnumeral, hn⟩

/-! ## Texts -/

/-- `text` is a mark and, when its underscores are deleted, a numeral for `n` with at most one plus
sign in front. -/
def Spells (text : String) (n : Nat) : Prop :=
  ∃ rest : String, (text = "0x" ++ rest ∨ text = "0X" ++ rest) ∧
    Signed (rest.toList.filter (· ≠ '_')) n

theorem unmark?_eq_some_iff {text : String} {r : List Char} :
    unmark? text.toList = some r ↔
      text = "0x" ++ String.ofList r ∨ text = "0X" ++ String.ofList r := by
  have hlists (mark : String) : text = mark ++ String.ofList r ↔ text.toList = mark.toList ++ r := by
    rw [← String.toList_inj, String.toList_append, String.toList_ofList]
  rw [hlists, hlists]
  unfold unmark?
  split <;> simp_all

theorem ofText_eq_ok_iff {text : String} {h : TypeHash} :
    ofText text = .ok h ↔ ∃ word : UInt64, h = mk word ∧ Spells text word.toNat := by
  constructor
  · intro hread
    unfold ofText at hread
    split at hread
    case h_1 => cases hread
    case h_2 r hmark =>
      cases hword : readWord (r.filter (· ≠ '_')) with
      | error e =>
          rw [hword] at hread
          cases hread
      | ok n =>
          rw [hword] at hread
          obtain ⟨hsigned, hn⟩ := readWord_eq_ok_iff.mp hword
          have hvalue : n.toUInt64.toNat = n := UInt64.toNat_ofNat_of_lt' hn
          refine ⟨n.toUInt64, (Except.ok.inj hread).symm, String.ofList r,
            unmark?_eq_some_iff.mp hmark, ?_⟩
          rwa [String.toList_ofList, hvalue]
  · rintro ⟨word, rfl, rest, hmark, hsigned⟩
    rw [← String.ofList_toList (s := rest), ← unmark?_eq_some_iff] at hmark
    have hword := readWord_eq_ok_iff.mpr ⟨hsigned, word.toNat_lt⟩
    simp only [ofText, hmark, hword, Except.map]
    simp

/-- The text that is written for a hash spells it, also after it was restyled. -/
theorem spells_of_restyles {word : UInt64} {s : List Char}
    (h : Restyles (fixed 16 word.toNat) s) : Spells ("0x" ++ String.ofList s) word.toNat := by
  have hnumeral : Numeral (fixed 16 word.toNat) word.toNat := by
    have hfixed := numeral_fixed 15 word.toNat
    rwa [Nat.mod_eq_of_lt word.toNat_lt] at hfixed
  refine ⟨String.ofList s, .inl rfl, .plain ?_⟩
  rw [String.toList_ofList]
  apply h.numeral
  rwa [hnumeral.filter_eq]

theorem ofText_toText (word : UInt64) : ofText (mk word).toText = .ok (mk word) :=
  ofText_eq_ok_iff.mpr ⟨word, rfl, spells_of_restyles .same⟩

/-- A text is read as a hash just if it spells a word, and the hash is that of the word. The text that is
written for a word is read as its hash, with underscores and leading zeros put in and digits in either
case as well. -/
theorem texts_read_exactly :
    (∀ (text : String) (h : TypeHash),
      read (.text text) = .ok h ↔ ∃ word : UInt64, h = mk word ∧ Spells text word.toNat) ∧
    ∀ word : UInt64,
      (mk word).toJson = .text ("0x" ++ String.ofList (fixed 16 word.toNat)) ∧
      ∀ s, Restyles (fixed 16 word.toNat) s →
        read (.text ("0x" ++ String.ofList s)) = .ok (mk word) := by
  refine ⟨fun text h => ofText_eq_ok_iff, fun word => ⟨rfl, fun s hs => ?_⟩⟩
  exact ofText_eq_ok_iff.mpr ⟨word, rfl, spells_of_restyles hs⟩

/-- A text with everything that is allowed, and that of a hash after each kind of change. -/
theorem mixed_texts_read :
    Spells "0X__+0f_F" 255 ∧ read (.text "0X__+0f_F") = .ok (mk 255) ∧
      Restyles (fixed 16 int8.word.toNat) "0_703edf97bc60677D".toList ∧
      read (.text "0x0_703edf97bc60677D") = .ok int8 := by
  have hzero : Numeral ['0'] 0 := .one (by decide : IsDigit '0' 0)
  have hlower : Numeral ['0', 'f'] 15 := hzero.more (by decide : IsDigit 'f' 15)
  have hupper : Numeral ['0', 'f', 'F'] 255 := hlower.more (by decide : IsDigit 'F' 15)
  have hspells : Spells "0X__+0f_F" 255 := ⟨"__+0f_F", .inr rfl, .plus hupper⟩
  have hwritten : fixed 16 int8.word.toNat = "703edf97bc60677".toList ++ ['d'] := by decide
  have hcase : Restyles (fixed 16 int8.word.toNat) ("703edf97bc60677".toList ++ ['D']) := by
    have hsame : Restyles (fixed 16 int8.word.toNat) ("703edf97bc60677".toList ++ ['d']) :=
      hwritten ▸ .same
    exact hsame.recase _ [] (by decide : IsDigit 'd' 13) (by decide)
  have hrestyled : Restyles (fixed 16 int8.word.toNat) "0_703edf97bc60677D".toList := by
    have hlists : "0_703edf97bc60677D".toList =
        '0' :: '_' :: ("703edf97bc60677".toList ++ ['D']) := by decide
    rw [hlists]
    exact .zero (.underscore [] _ hcase)
  obtain ⟨hreads, hrestyles⟩ := texts_read_exactly
  refine ⟨hspells, (hreads _ _).mpr ⟨255, rfl, hspells⟩, hrestyled, ?_⟩
  have hread := (hrestyles int8.word).2 _ hrestyled
  rwa [String.ofList_toList] at hread

end TypeHash

end TypedHeap
