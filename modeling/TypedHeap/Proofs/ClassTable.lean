import TypedHeap.SizeClass

/-! # The class table

Every class is a multiple of 16 bytes within the bound of the table. The classes are in increasing
order, so the one selected for a size, the first that is large enough, is the least of these.
-/

namespace TypedHeap.SizeClasses

theorem mem_quarters {p s : Nat} (hp : 64 ∣ p) (hpos : 0 < p) (hs : s ∈ quarters p) :
    16 ∣ s ∧ p < s ∧ s ≤ 2 * p := by
  obtain ⟨k, rfl⟩ := hp
  simp only [quarters, List.mem_cons, List.not_mem_nil, or_false] at hs
  omega

theorem mem_above {most rounds p s : Nat} (hp : 64 ∣ p) (hpos : 0 < p)
    (hs : s ∈ above most rounds p) : 16 ∣ s ∧ p < s ∧ s ≤ most := by
  induction rounds generalizing p with
  | zero => simp [above] at hs
  | succ rounds ih =>
      simp only [above] at hs
      split at hs
      · rcases List.mem_append.mp hs with hq | hr
        · obtain ⟨hmem, hle⟩ := List.mem_filter.mp hq
          obtain ⟨hdvd, hlt, _⟩ := mem_quarters hp hpos hmem
          exact ⟨hdvd, hlt, of_decide_eq_true hle⟩
        · obtain ⟨hdvd, hlt, hle⟩ := ih (Nat.dvd_mul_left_of_dvd hp 2) (by omega) hr
          exact ⟨hdvd, by omega, hle⟩
      · simp at hs

theorem mem_upTo {most s : Nat} (hs : s ∈ (upTo most).sizes) : 16 ∣ s ∧ 0 < s ∧ s ≤ most := by
  rcases List.mem_append.mp hs with hlow | habove
  · obtain ⟨hmem, hle⟩ := List.mem_filter.mp hlow
    obtain ⟨i, _, rfl⟩ := List.mem_map.mp hmem
    refine ⟨Nat.dvd_mul_left_of_dvd (Nat.dvd_refl 16) _, ?_, of_decide_eq_true hle⟩
    simp [SizeClass.smallest]
  · obtain ⟨hdvd, hlt, hle⟩ := mem_above (by decide) (by decide) habove
    exact ⟨hdvd, by omega, hle⟩

/-- A region has room for at least 16 slots of its class. -/
theorem mem_forRegion {shift s : Nat} (hs : s ∈ (forRegion (2 ^ shift)).sizes) :
    16 ∣ s ∧ 0 < s ∧ s ≤ SizeClass.largest ∧ 16 * s ≤ 2 ^ shift := by
  obtain ⟨hdvd, hpos, hle⟩ := mem_upTo hs
  rw [Nat.shiftRight_eq_div_pow] at hle
  refine ⟨hdvd, hpos, Nat.le_trans hle (Nat.min_le_left ..), ?_⟩
  have hshare := Nat.le_trans hle (Nat.min_le_right ..)
  omega

private theorem length_above_le (most rounds p : Nat) :
    (above most rounds p).length ≤ 4 * rounds := by
  induction rounds generalizing p with
  | zero => simp [above]
  | succ rounds ih =>
      have hquarters : ((quarters p).filter (· ≤ most)).length ≤ 4 := List.length_filter_le ..
      have hrest := ih (2 * p)
      simp only [above]
      split
      · rw [List.length_append]
        omega
      · simp

theorem length_upTo_le (most : Nat) : (upTo most).length ≤ 264 := by
  have hlow : (((List.range 8).map fun i => (i + 1) * SizeClass.smallest).filter
      (· ≤ most)).length ≤ 8 := List.length_filter_le ..
  have habove := length_above_le most 64 128
  simp only [length, upTo, List.length_append]
  omega

/-! ## Order -/

private theorem sorted_above (most rounds : Nat) {p : Nat} (hp : 64 ∣ p) (hpos : 0 < p) :
    (above most rounds p).Pairwise (· < ·) := by
  induction rounds generalizing p with
  | zero => exact .nil
  | succ rounds ih =>
      have hp' : 64 ∣ 2 * p := Nat.dvd_mul_left_of_dvd hp 2
      simp only [above]
      split
      · have hquarters : (quarters p).Pairwise (· < ·) := by
          simp [quarters]
          omega
        refine List.pairwise_append.mpr ⟨hquarters.filter _, ih hp' (by omega), fun s hs s' hs' => ?_⟩
        obtain ⟨_, _, hle⟩ := mem_quarters hp hpos (List.mem_filter.mp hs).1
        obtain ⟨_, hlt, _⟩ := mem_above hp' (by omega) hs'
        omega
      · exact .nil

theorem sorted_upTo (most : Nat) : (upTo most).sizes.Pairwise (· < ·) := by
  have hsteps : ((List.range 8).map fun i => (i + 1) * SizeClass.smallest).Pairwise (· < ·) := by
    decide
  refine List.pairwise_append.mpr ⟨hsteps.filter _, sorted_above most 64 (by decide) (by decide),
    fun s hs s' hs' => ?_⟩
  obtain ⟨i, hi, rfl⟩ := List.mem_map.mp (List.mem_filter.mp hs).1
  obtain ⟨_, hlt, _⟩ := mem_above (by decide) (by decide) hs'
  have hi' : i < 8 := List.mem_range.mp hi
  simp only [SizeClass.smallest]
  omega

/-! ## Selection -/

theorem get?_eq_some {t : SizeClasses} {index : Nat} {c : SizeClass} :
    t.get? index = some c ↔ c.index = index ∧ t.sizes[index]? = some c.size := by
  obtain ⟨i, s⟩ := c
  simp only [get?, Option.map_eq_some_iff, SizeClass.mk.injEq]
  constructor
  · intro h
    rcases h with ⟨size, hsize, rfl, rfl⟩
    exact ⟨rfl, hsize⟩
  · intro h
    rcases h with ⟨rfl, hsize⟩
    exact ⟨s, hsize, rfl, rfl⟩

theorem select?_eq_some {t : SizeClasses} {size : Nat} {c : SizeClass}
    (h : t.select? size = some c) : t.sizes[c.index]? = some c.size ∧ size ≤ c.size := by
  obtain ⟨hindex, hsize⟩ := get?_eq_some.mp h
  obtain ⟨hlt, hget⟩ := List.getElem?_eq_some_iff.mp hsize
  have hfits := List.findIdx_getElem (p := fun s => decide (size ≤ s)) (w := hlt)
  rw [hget] at hfits
  exact ⟨hindex ▸ hsize, of_decide_eq_true hfits⟩

theorem le_of_select? {t : SizeClasses} (sorted : t.sizes.Pairwise (· < ·)) {size s : Nat}
    {c : SizeClass} (h : t.select? size = some c) (hs : s ∈ t.sizes) (hsize : size ≤ s) :
    c.size ≤ s := by
  obtain ⟨_, hget⟩ := get?_eq_some.mp h
  obtain ⟨hi, hget⟩ := List.getElem?_eq_some_iff.mp hget
  obtain ⟨j, hj, rfl⟩ := List.getElem_of_mem hs
  have hfirst : t.sizes.findIdx (size ≤ ·) ≤ j :=
    Nat.le_of_not_lt fun hlt => of_decide_eq_false (List.not_of_lt_findIdx hlt) hsize
  rcases Nat.eq_or_lt_of_le hfirst with heq | hlt
  · simp only [← hget, heq, Nat.le_refl]
  · rw [← hget]
    exact Nat.le_of_lt (List.pairwise_iff_getElem.mp sorted _ j hi hj hlt)

private theorem sizes_upTo {most : Nat} (h : 128 ≤ most) :
    ∃ rest, (upTo most).sizes = 16 :: 32 :: 48 :: rest := by
  have h16 : 16 ≤ most := by omega
  have h32 : 32 ≤ most := by omega
  have h48 : 48 ≤ most := by omega
  refine ⟨((List.range' 4 5).map (· * SizeClass.smallest)).filter (· ≤ most) ++
    above most 64 128, ?_⟩
  simp [upTo, List.range, List.range.loop, SizeClass.smallest, List.range', h16, h32, h48]

theorem select?_header {shift : Nat} (h : 20 ≤ shift) :
    (forRegion (2 ^ shift)).select? 48 = some ⟨2, 48⟩ := by
  have hpow : 2 ^ 20 ≤ 2 ^ shift := Nat.pow_le_pow_right (by decide) h
  have hmost : 128 ≤ min SizeClass.largest (2 ^ shift >>> 4) := by
    rw [Nat.shiftRight_eq_div_pow]
    unfold SizeClass.largest
    omega
  obtain ⟨rest, hsizes⟩ := sizes_upTo hmost
  simp [forRegion, select?, get?, hsizes, List.findIdx_cons]

end TypedHeap.SizeClasses
