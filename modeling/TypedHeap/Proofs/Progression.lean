import Mathlib.Data.List.Pairwise
import TypedHeap.Proofs.ClassTable

/-! # The progression of classes

The class table lists the multiples of 16 up to 128, and above each power of two from 128 on four
sizes a quarter of it apart, as far as its bound allows. Up to a bound of `2 ^ 63` no word overflows
on the way. Halving the table finds the least class that is large enough, and a class is at most a
quarter larger than the one before it, so a slot is less than a quarter larger than what it is
selected for.
-/

namespace TypedHeap

def Word.checked (n : Nat) : Option Nat := if n < limit then some n else none

theorem Word.checked_of_lt {n : Nat} (h : n < limit) : checked n = some n := if_pos h

namespace SizeClasses

variable {t : SizeClasses} {most size p k s : Nat} {c : SizeClass}

/-! ## Computing with words -/

def quarters? (p : Nat) : Option (List Nat) := do
  let quarter ← Word.checked (p + p / 4)
  let half ← Word.checked (p + p / 2)
  let triple ← Word.checked (3 * p)
  let threeQuarters ← Word.checked (p + triple / 4)
  let double ← Word.checked (2 * p)
  some [quarter, half, threeQuarters, double]

/-- Add the sizes above `p`, then those above its double and so on, up to the first one that is too
large. This ends because a positive `p` grows when it is doubled, and there is no result if a word
overflows. -/
def extend? (most p : Nat) (hp : 0 < p) (sizes : List Nat) : Option (List Nat) :=
  if p < most then do
    let next ← quarters? p
    if next.all (· ≤ most) then
      if 2 * p < Word.limit then extend? most (2 * p) (by omega) (sizes ++ next) else none
    else some (sizes ++ next.takeWhile (· ≤ most))
  else some sizes
termination_by most - p

def upTo? (most : Nat) : Option SizeClasses := do
  let sizes ← extend? most 128 (by decide) ((List.range 8).map fun i => (i + 1) * SizeClass.smallest)
  some ⟨sizes.filter (· ≤ most)⟩

theorem quarters?_eq (h : p ≤ 2 ^ 62) : quarters? p = some (quarters p) := by
  have hlimit : Word.limit = 2 ^ 64 := rfl
  have hquarter : Word.checked (p + p / 4) = some _ := Word.checked_of_lt (by omega)
  have hhalf : Word.checked (p + p / 2) = some _ := Word.checked_of_lt (by omega)
  have htriple : Word.checked (3 * p) = some _ := Word.checked_of_lt (by omega)
  have hthree : Word.checked (p + 3 * p / 4) = some _ := Word.checked_of_lt (by omega)
  have hdouble : Word.checked (2 * p) = some _ := Word.checked_of_lt (by omega)
  simp only [quarters?, hquarter, hhalf, htriple, hthree, hdouble, Option.bind_eq_bind,
    Option.bind_some, quarters]

theorem filter_eq_takeWhile {l : List Nat} (sorted : l.Pairwise (· < ·)) (most : Nat) :
    l.filter (· ≤ most) = l.takeWhile (· ≤ most) := by
  induction l with
  | nil => rfl
  | cons a l ih =>
      obtain ⟨hhead, htail⟩ := List.pairwise_cons.mp sorted
      by_cases ha : a ≤ most
      · simp [ha, ih htail]
      · have hnone : l.filter (· ≤ most) = [] := List.filter_eq_nil_iff.mpr fun b hb => by
          have := hhead b hb
          simp only [decide_eq_true_eq]
          omega
        simp [ha, hnone]

theorem sorted_quarters (hp : 64 ∣ p) (hpos : 0 < p) : (quarters p).Pairwise (· < ·) := by
  simp [quarters]
  omega

theorem above_of_le {rounds : Nat} (h : most ≤ p) : above most rounds p = [] := by
  cases rounds with
  | zero => rfl
  | succ rounds => rw [above, if_neg (Nat.not_lt.mpr h)]

/-- No word overflows in the loop, and it adds the sizes that doubling reaches. -/
theorem extend?_eq (hmost : most ≤ 2 ^ 63) (rounds : Nat) (hk : 6 ≤ k) (hrounds : 63 ≤ k + rounds)
    (sizes : List Nat) : extend? most (2 ^ k) (Nat.two_pow_pos k) sizes =
      some (sizes ++ above most rounds (2 ^ k)) := by
  induction rounds generalizing k sizes with
  | zero =>
      have hle : 2 ^ 63 ≤ 2 ^ k := Nat.pow_le_pow_right (by decide) hrounds
      rw [extend?, if_neg (by omega)]
      simp [above]
  | succ rounds ih =>
      rw [extend?, above]
      split
      · next hlt =>
        have hk62 : k ≤ 62 := Nat.le_of_lt_succ
          ((Nat.pow_lt_pow_iff_right (by decide)).mp (Nat.lt_of_lt_of_le hlt hmost))
        have hle : 2 ^ k ≤ 2 ^ 62 := Nat.pow_le_pow_right (by decide) hk62
        have hdouble : 2 * 2 ^ k = 2 ^ (k + 1) := by rw [Nat.pow_succ, Nat.mul_comm]
        have hword : 2 ^ (k + 1) < Word.limit := by
          unfold Word.limit
          omega
        have hsorted : (quarters (2 ^ k)).Pairwise (· < ·) :=
          sorted_quarters (Nat.pow_dvd_pow 2 hk) (Nat.two_pow_pos k)
        simp only [quarters?_eq hle, hdouble, if_pos hword, Option.bind_eq_bind, Option.bind_some]
        split
        · next hall =>
          rw [ih (by omega) (by omega), List.filter_eq_self.mpr (List.all_eq_true.mp hall),
            List.append_assoc]
        · next hsome =>
          have hmost : most ≤ 2 ^ (k + 1) := Nat.le_of_not_lt fun hlt => hsome <| by
            simp only [quarters, List.all_cons, List.all_nil, Bool.and_true, Bool.and_eq_true,
              decide_eq_true_eq]
            omega
          rw [above_of_le hmost, List.append_nil, filter_eq_takeWhile hsorted]
      · simp

theorem upTo?_eq (hmost : most ≤ 2 ^ 63) : upTo? most = some (upTo most) := by
  have habove : (above most 64 128).filter (· ≤ most) = above most 64 128 :=
    List.filter_eq_self.mpr fun s hs =>
      decide_eq_true (mem_above (by decide) (by decide) hs).2.2
  have hloop := extend?_eq hmost 64 (k := 7) (by decide) (by decide)
    ((List.range 8).map fun i => (i + 1) * SizeClass.smallest)
  simp only [upTo?, hloop, show 128 = 2 ^ 7 from rfl, Option.bind_eq_bind, Option.bind_some, upTo,
    List.filter_append, habove]

/-! ## The sizes -/

/-- The sizes of the table without a bound: sixteen to eight times sixteen, and from each power of two
`p` from 128 on `5p/4`, `3p/2`, `7p/4` and `2p`. -/
def InProgression (s : Nat) : Prop :=
  (∃ i, 1 ≤ i ∧ i ≤ 8 ∧ s = 16 * i) ∨
    ∃ k, 7 ≤ k ∧ (4 * s = 5 * 2 ^ k ∨ 2 * s = 3 * 2 ^ k ∨ 4 * s = 7 * 2 ^ k ∨ s = 2 * 2 ^ k)

theorem mem_quarters_iff (hk : 2 ≤ k) : s ∈ quarters (2 ^ k) ↔
    4 * s = 5 * 2 ^ k ∨ 2 * s = 3 * 2 ^ k ∨ 4 * s = 7 * 2 ^ k ∨ s = 2 * 2 ^ k := by
  obtain ⟨m, hm⟩ : 4 ∣ 2 ^ k := Nat.pow_dvd_pow 2 hk
  simp only [quarters, List.mem_cons, List.not_mem_nil, or_false]
  omega

theorem not_mem_quarters_of_le (hk : 6 ≤ k) (hmost : most ≤ 2 ^ k) :
    ¬ (s ≤ most ∧ ∃ j, k ≤ j ∧ s ∈ quarters (2 ^ j)) := by
  rintro ⟨hs, j, hj, hmem⟩
  have hdvd : 64 ∣ 2 ^ j := Nat.pow_dvd_pow 2 (Nat.le_trans hk hj)
  have hlt := (mem_quarters hdvd (Nat.two_pow_pos j) hmem).2.1
  have hle : 2 ^ k ≤ 2 ^ j := Nat.pow_le_pow_right (by decide) hj
  omega

theorem mem_above_iff {rounds : Nat} (hk : 6 ≤ k) (hmost : most ≤ 2 ^ (k + rounds)) :
    s ∈ above most rounds (2 ^ k) ↔ s ≤ most ∧ ∃ j, k ≤ j ∧ s ∈ quarters (2 ^ j) := by
  induction rounds generalizing k with
  | zero => simpa [above] using not_mem_quarters_of_le hk hmost
  | succ rounds ih =>
      by_cases hlt : 2 ^ k < most
      · have hlater := ih (k := k + 1) (by omega) (by rwa [Nat.add_right_comm])
        rw [above, if_pos hlt, List.mem_append, List.mem_filter, decide_eq_true_eq,
          show 2 * 2 ^ k = 2 ^ (k + 1) by omega, hlater]
        constructor
        · rintro (⟨hmem, hle⟩ | ⟨hle, j, hj, hmem⟩)
          · exact ⟨hle, k, Nat.le_refl k, hmem⟩
          · exact ⟨hle, j, Nat.le_of_succ_le hj, hmem⟩
        · rintro ⟨hle, j, hj, hmem⟩
          rcases Nat.eq_or_lt_of_le hj with rfl | hj'
          · exact .inl ⟨hmem, hle⟩
          · exact .inr ⟨hle, j, hj', hmem⟩
      · have hle := Nat.le_of_not_lt hlt
        simpa [above_of_le hle] using not_mem_quarters_of_le hk hle

theorem mem_upTo_iff (hmost : most ≤ 2 ^ 63) :
    s ∈ (upTo most).sizes ↔ InProgression s ∧ s ≤ most := by
  have habove : s ∈ above most 64 128 ↔ s ≤ most ∧ ∃ j, 7 ≤ j ∧ s ∈ quarters (2 ^ j) :=
    mem_above_iff (k := 7) (by decide) (Nat.le_trans hmost (by decide))
  have hbelow : s ∈ (List.range 8).map (fun i => (i + 1) * SizeClass.smallest) ↔
      ∃ i, 1 ≤ i ∧ i ≤ 8 ∧ s = 16 * i := by
    simp only [List.mem_map, List.mem_range, SizeClass.smallest]
    constructor
    · rintro ⟨i, hi, rfl⟩
      exact ⟨i + 1, by omega, by omega, Nat.mul_comm ..⟩
    · rintro ⟨i, hpos, hi, rfl⟩
      exact ⟨i - 1, by omega, by omega⟩
  have hquarters : (∃ j, 7 ≤ j ∧ s ∈ quarters (2 ^ j)) ↔
      ∃ j, 7 ≤ j ∧ (4 * s = 5 * 2 ^ j ∨ 2 * s = 3 * 2 ^ j ∨ 4 * s = 7 * 2 ^ j ∨ s = 2 * 2 ^ j) :=
    exists_congr fun j => and_congr_right fun hj => mem_quarters_iff (by omega)
  rw [upTo, List.mem_append, List.mem_filter, decide_eq_true_eq, hbelow, habove, hquarters,
    InProgression, and_comm (a := s ≤ most), or_and_right]

theorem inProgression_double (hk : 6 ≤ k) : InProgression (2 * 2 ^ k) := by
  rcases Nat.eq_or_lt_of_le hk with rfl | hlt
  · exact .inl ⟨8, by decide⟩
  · exact .inr ⟨k, hlt, by omega⟩

/-- A class above 128 is at most a quarter larger than the one before it. -/
theorem exists_previous (hs : InProgression s) (hlarge : 128 < s) :
    ∃ r, InProgression r ∧ r < s ∧ 4 * s ≤ 5 * r := by
  obtain ⟨i, _, hi, rfl⟩ | ⟨k, hk, hs⟩ := hs
  · omega
  obtain ⟨j, rfl⟩ : ∃ j, k = j + 2 := ⟨k - 2, by omega⟩
  have hpow : 2 ^ (j + 2) = 2 ^ j * 4 := Nat.pow_add 2 j 2
  rcases hs with hquarter | hhalf | hthree | hdouble
  · exact ⟨2 * 2 ^ (j + 1), inProgression_double (by omega), by omega, by omega⟩
  · exact ⟨5 * 2 ^ j, .inr ⟨j + 2, hk, by omega⟩, by omega, by omega⟩
  · exact ⟨6 * 2 ^ j, .inr ⟨j + 2, hk, by omega⟩, by omega, by omega⟩
  · exact ⟨7 * 2 ^ j, .inr ⟨j + 2, hk, by omega⟩, by omega, by omega⟩

/-! ## Selection -/

/-- The end of the indices that pass the test, by halving the range from `low` to `high`. -/
def bisect (test : Nat → Bool) (low high : Nat) : Nat :=
  if low < high then
    let middle := low + (high - low) / 2
    if test middle then bisect test (middle + 1) high else bisect test low middle
  else low
termination_by high - low

/-- Halving finds the bound below which all indices pass the test and from which on none does. -/
theorem bisect_eq {test : Nat → Bool} {low high bound : Nat} (hlow : low ≤ bound)
    (hhigh : bound ≤ high) (htest : ∀ i < high, test i = true ↔ i < bound) :
    bisect test low high = bound := by
  fun_induction bisect test low high with
  | case1 low high hlt middle hpass ih =>
      have := (htest middle (by omega)).mp hpass
      exact ih (by omega) hhigh htest
  | case2 low high hlt middle hfail ih =>
      have := mt (htest middle (by omega)).mpr hfail
      exact ih hlow (by omega) fun i hi => htest i (by omega)
  | case3 low high hge => omega

theorem getElem_lt_iff (sorted : t.sizes.Pairwise (· < ·)) {i : Nat} (hi : i < t.sizes.length) :
    t.sizes[i] < size ↔ i < t.sizes.findIdx (size ≤ ·) := by
  constructor
  · intro hsmall
    refine Nat.lt_of_not_le fun hle => ?_
    have hlt : t.sizes.findIdx (size ≤ ·) < t.sizes.length := Nat.lt_of_le_of_lt hle hi
    have hfits := of_decide_eq_true (List.findIdx_getElem (p := fun s => decide (size ≤ s)) (w := hlt))
    rcases Nat.eq_or_lt_of_le hle with heq | hbefore
    · simp only [heq] at hfits
      omega
    · have := List.pairwise_iff_getElem.mp sorted _ i hlt hi hbefore
      omega
  · intro hbefore
    exact Nat.lt_of_not_le (of_decide_eq_false (List.not_of_lt_findIdx hbefore))

theorem select?_eq_bisect (sorted : t.sizes.Pairwise (· < ·)) (size : Nat) :
    t.select? size =
      t.get? (bisect (fun i => t.sizes[i]?.any (· < size)) 0 t.sizes.length) := by
  rw [select?, bisect_eq (Nat.zero_le _) List.findIdx_le_length fun i hi => ?_]
  rw [List.getElem?_eq_getElem hi, Option.any_some, decide_eq_true_eq, getElem_lt_iff sorted hi]

/-- The class selected is the least one that is large enough. -/
theorem select?_eq_some_iff (sorted : t.sizes.Pairwise (· < ·)) :
    t.select? size = some c ↔ t.get? c.index = some c ∧ size ≤ c.size ∧
      ∀ s ∈ t.sizes, size ≤ s → c.size ≤ s := by
  constructor
  · intro h
    obtain ⟨hget, hfits⟩ := select?_eq_some h
    exact ⟨get?_eq_some.mpr ⟨rfl, hget⟩, hfits, fun s => le_of_select? sorted h⟩
  · rintro ⟨hget, hfits, hleast⟩
    obtain ⟨hi, hsize⟩ := List.getElem?_eq_some_iff.mp (get?_eq_some.mp hget).2
    have hlt : t.sizes.findIdx (size ≤ ·) < t.sizes.length :=
      List.findIdx_lt_length_of_exists ⟨c.size, hsize ▸ List.getElem_mem hi, decide_eq_true hfits⟩
    have hfirst := of_decide_eq_true
      (List.findIdx_getElem (p := fun s => decide (size ≤ s)) (w := hlt))
    have hle := hleast _ (List.getElem_mem hlt) hfirst
    have hindex : t.sizes.findIdx (size ≤ ·) = c.index := by
      rcases Nat.lt_trichotomy (t.sizes.findIdx (size ≤ ·)) c.index with hbefore | heq | hafter
      · have := List.pairwise_iff_getElem.mp sorted _ _ hlt hi hbefore
        omega
      · exact heq
      · have := (getElem_lt_iff sorted hi).mpr hafter
        omega
    rw [select?, hindex, hget]

theorem select?_eq_none_iff : t.select? size = none ↔ ∀ s ∈ t.sizes, s < size := by
  have hend : t.sizes.length ≤ t.sizes.findIdx (size ≤ ·) ↔
      t.sizes.findIdx (size ≤ ·) = t.sizes.length :=
    ⟨Nat.le_antisymm List.findIdx_le_length, fun h => Nat.le_of_eq h.symm⟩
  rw [select?, get?, Option.map_eq_none_iff, List.getElem?_eq_none_iff, hend,
    List.findIdx_eq_length]
  simp

/-! ## The whole table -/

/-- The table lists the sizes of the progression up to `most`, in increasing order, and a class is known
by its place. -/
structure ListsProgression (t : SizeClasses) (most : Nat) : Prop where
  mem_iff (s : Nat) : s ∈ t.sizes ↔ InProgression s ∧ s ≤ most
  sorted : t.sizes.Pairwise (· < ·)
  get?_iff (i : Nat) (c : SizeClass) : t.get? i = some c ↔ c.index = i ∧ t.sizes[i]? = some c.size
  toList_eq (i : Nat) : t.toList[i]? = t.get? i

/-- The class selected for `size` is the least that is large enough, wherever the table is halved, and
it is not much larger. There is none just if all classes are too small. -/
structure SelectsLeast (t : SizeClasses) (size : Nat) : Prop where
  some_iff (c : SizeClass) : t.select? size = some c ↔
    t.get? c.index = some c ∧ size ≤ c.size ∧ ∀ s ∈ t.sizes, size ≤ s → c.size ≤ s
  none_iff : t.select? size = none ↔ ∀ s ∈ t.sizes, s < size
  none_iff_largest : t.sizes ≠ [] → (t.select? size = none ↔ t.largestSize < size)
  eq_bisect : t.select? size =
    t.get? (bisect (fun i => t.sizes[i]?.any (· < size)) 0 t.sizes.length)
  lt_add (c : SizeClass) : t.select? size = some c → 1 ≤ size → size ≤ 128 → c.size < size + 16
  lt_quarter (c : SizeClass) : t.select? size = some c → 128 < size → 4 * c.size < 5 * size

theorem listsProgression_upTo (hmost : most ≤ 2 ^ 63) : (upTo most).ListsProgression most where
  mem_iff s := mem_upTo_iff hmost
  sorted := sorted_upTo most
  get?_iff i c := get?_eq_some
  toList_eq i := by
    simp only [toList, get?, List.getElem?_map, List.getElem?_zipIdx, Nat.zero_add, Option.map_map]
    rfl

theorem ListsProgression.listed_of_select? (h : t.ListsProgression most)
    (hc : t.select? size = some c) : InProgression c.size ∧ c.size ≤ most :=
  (h.mem_iff c.size).mp (List.mem_of_getElem? (select?_eq_some hc).1)

theorem ListsProgression.lt_of_previous (h : t.ListsProgression most) (hc : t.select? size = some c)
    {r : Nat} (hr : InProgression r) (hlt : r < c.size) : r < size := by
  have hmost := (h.listed_of_select? hc).2
  refine Nat.lt_of_not_le fun hle => ?_
  have := le_of_select? h.sorted hc ((h.mem_iff r).mpr ⟨hr, by omega⟩) hle
  omega

theorem ListsProgression.selectsLeast (h : t.ListsProgression most) (size : Nat) :
    t.SelectsLeast size where
  some_iff c := select?_eq_some_iff h.sorted
  none_iff := select?_eq_none_iff
  none_iff_largest hne := by
    rw [select?_eq_none_iff, largestSize, List.getLastD_eq_getLast?,
      List.getLast?_eq_some_getLast hne, Option.getD_some]
    refine ⟨fun hall => hall _ (List.getLast_mem hne), fun hlast s hs => ?_⟩
    exact Nat.lt_of_le_of_lt ((h.sorted.imp Nat.le_of_lt).rel_getLast hs) hlast
  eq_bisect := select?_eq_bisect h.sorted size
  lt_add c hc hpos hsmall := by
    rcases (h.listed_of_select? hc).1 with ⟨i, hi, _, hsize⟩ | ⟨k, hk, hsize⟩
    · rcases Nat.eq_or_lt_of_le hi with rfl | hlt
      · omega
      · have := h.lt_of_previous hc (r := 16 * (i - 1)) (.inl ⟨i - 1, by omega⟩) (by omega)
        omega
    · have hpow : 2 ^ 7 ≤ 2 ^ k := Nat.pow_le_pow_right (by decide) hk
      have := h.lt_of_previous hc (r := 128) (.inl ⟨8, by decide⟩) (by omega)
      omega
  lt_quarter c hc hlarge := by
    have hfits := (select?_eq_some hc).2
    obtain ⟨r, hr, hlt, hstep⟩ := exists_previous (h.listed_of_select? hc).1 (by omega)
    have := h.lt_of_previous hc hr hlt
    omega

/-- Up to a bound of `2 ^ 63` the table is computed without overflow, and it is the progression up to
its bound. It selects the least class that is large enough, less than 16 bytes larger than a size of
at most 128, and less than a quarter larger than any other one. -/
theorem upTo_geometric (hmost : most ≤ 2 ^ 63) :
    upTo? most = some (upTo most) ∧ (upTo most).ListsProgression most ∧
      (∀ s ∈ (upTo most).sizes, 16 ∣ s) ∧ ∀ size, (upTo most).SelectsLeast size :=
  have hlists := listsProgression_upTo hmost
  ⟨upTo?_eq hmost, hlists, fun _ hs => (mem_upTo hs).1, hlists.selectsLeast⟩

/-- The largest table: its last class is its bound, and beyond it nothing is selected. -/
theorem largest_upTo_geometric :
    2 ^ 63 ≤ 2 ^ 63 ∧ upTo? (2 ^ 63) = some (upTo (2 ^ 63)) ∧ 5 * 2 ^ 60 ∈ (upTo (2 ^ 63)).sizes ∧
      (upTo (2 ^ 63)).select? (2 ^ 62 + 1) = some ⟨228, 5 * 2 ^ 60⟩ ∧
      4 * (5 * 2 ^ 60) < 5 * (2 ^ 62 + 1) ∧
      (upTo (2 ^ 63)).select? (2 ^ 63) = some ⟨231, 2 ^ 63⟩ ∧
      (upTo (2 ^ 63)).select? (2 ^ 63 + 1) = none := by
  have hmost : 2 ^ 63 ≤ 2 ^ 63 := Nat.le_refl _
  obtain ⟨hwords, hlists, _, hleast⟩ := upTo_geometric hmost
  have hselect : (upTo (2 ^ 63)).select? (2 ^ 62 + 1) = some ⟨228, 5 * 2 ^ 60⟩ :=
    ((hleast _).some_iff _).mpr (by decide +kernel)
  refine ⟨hmost, hwords, (hlists.mem_iff _).mpr ⟨.inr ⟨62, by decide⟩, by decide⟩, hselect,
    (hleast _).lt_quarter _ hselect (by decide), ((hleast _).some_iff _).mpr (by decide +kernel),
    (hleast _).none_iff.mpr (by decide +kernel)⟩

end SizeClasses

end TypedHeap
