import TypedHeap.Heap.Basic
import TypedHeap.Proofs.Reserving
import TypedHeap.Proofs.Window

/-! # From addresses to slots

The windows of the regions lie side by side from the start of the heap on, one for each class. An
address of the reserved range lies in one window and there in one slot: `resolve?` finds exactly
the slot whose interval holds the address, for the slot cut off at the end of a window as well.
-/

namespace TypedHeap

namespace Reservation

theorem contains_iff (r : Reservation) (a : Nat) :
    r.contains a = true ↔ r.start ≤ a ∧ a < r.start + r.size := by
  simp only [contains, Bool.and_eq_true, decide_eq_true_eq]
  omega

end Reservation

def Slot.window (s : Slot) (start shift : Nat) : Nat := start + s.region * 2 ^ shift

namespace Heap

/-- Where the windows and slots of a heap lie. No operation changes any of it. -/
structure Framed (h : Heap) : Prop where
  shift_ge : Config.leastShift ≤ h.shift
  shift_le : h.shift ≤ Config.mostShift
  aligned : 2 ^ h.shift ∣ h.start
  size_eq : h.range.size = h.regions.length * 2 ^ h.shift
  classes_eq : h.classes = SizeClasses.forRegion (2 ^ h.shift)
  length_eq : h.regions.length = h.classes.length
  index_eq {i : Nat} {r : Region} : h.region? i = some r → r.index = i
  class_eq {i : Nat} {r : Region} : h.region? i = some r → h.classes.sizes[i]? = some r.size
  sound {i : Nat} {r : Region} : h.region? i = some r → r.Sound h.start h.shift

/-- `s` is a slot of the region `r`, which starts in its window. -/
structure IsSlot (h : Heap) (s : Slot) (r : Region) : Prop where
  region_eq : h.region? s.region = some r
  size_eq : s.size = r.size
  tiles : r.Tiles s.base
  within : s.base < r.windowEnd

namespace Framed

variable {h : Heap}

theorem window_eq (f : h.Framed) {i : Nat} {r : Region} (hr : h.region? i = some r) :
    r.start = h.start + i * 2 ^ h.shift ∧ r.windowEnd = h.start + (i + 1) * 2 ^ h.shift := by
  have hsound := f.sound hr
  have hstart := hsound.start_eq
  rw [f.index_eq hr] at hstart
  rw [hsound.windowEnd_eq, hstart, Nat.add_mul]
  omega

theorem index_of_mem (f : h.Framed) {i a : Nat} {r : Region} (hr : h.region? i = some r)
    (hlow : r.start ≤ a) (hhigh : a < r.windowEnd) : (a - h.start) >>> h.shift = i := by
  obtain ⟨hstart, hend⟩ := f.window_eq hr
  rw [Nat.shiftRight_eq_div_pow]
  exact Nat.div_eq_of_lt_le (by omega) (by omega)

theorem contains_of_mem (f : h.Framed) {i a : Nat} {r : Region} (hr : h.region? i = some r)
    (hlow : r.start ≤ a) (hhigh : a < r.windowEnd) : h.contains a = true := by
  obtain ⟨hstart, hend⟩ := f.window_eq hr
  have hi : i + 1 ≤ h.regions.length := (List.getElem?_eq_some_iff.mp hr).1
  have hwindows : (i + 1) * 2 ^ h.shift ≤ h.range.size := by
    rw [f.size_eq]
    exact Nat.mul_le_mul_right _ hi
  apply (Reservation.contains_iff ..).mpr
  simp only [start] at *
  omega

theorem region_of_contains (f : h.Framed) {a : Nat} (hc : h.contains a = true) :
    ∃ r, h.region? ((a - h.start) >>> h.shift) = some r ∧ r.start ≤ a ∧ a < r.windowEnd := by
  obtain ⟨hlow, hhigh⟩ := (Reservation.contains_iff ..).mp hc
  rw [f.size_eq] at hhigh
  have hindex : (a - h.start) / 2 ^ h.shift < h.regions.length := by
    rw [Nat.div_lt_iff_lt_mul (Nat.two_pow_pos _)]
    simp only [start]
    omega
  rw [Nat.shiftRight_eq_div_pow]
  have hr : h.region? ((a - h.start) / 2 ^ h.shift) = some h.regions[(a - h.start) / 2 ^ h.shift] :=
    List.getElem?_eq_getElem hindex
  obtain ⟨hstart, hend⟩ := f.window_eq hr
  have hfloor := Nat.div_mul_le_self (a - h.start) (2 ^ h.shift)
  have hceil := Nat.lt_mul_div_succ (a - h.start) (Nat.two_pow_pos h.shift)
  rw [Nat.mul_comm] at hceil
  have hstartle : h.start ≤ a := hlow
  refine ⟨_, hr, ?_, ?_⟩ <;> omega

/-- An address resolves to a slot iff it lies in the interval of the slot and in its window. -/
theorem resolve?_eq_some_iff (f : h.Framed) {a : Nat} {s : Slot} :
    h.resolve? a = some s ↔
      ∃ r, h.IsSlot s r ∧ s.base ≤ a ∧ a < s.finish ∧ a < r.windowEnd := by
  have hshift : h.shift ≤ 36 := f.shift_le
  obtain ⟨region, base, size⟩ := s
  simp only [Slot.finish]
  constructor
  · intro hres
    unfold resolve? at hres
    split at hres
    · next hc =>
      obtain ⟨r, hr, hlow, hhigh⟩ := f.region_of_contains hc
      simp only [hr, Option.map_some, Option.some.injEq, Slot.mk.injEq] at hres
      obtain ⟨rfl, hbase, rfl⟩ := hres
      obtain ⟨htiles, hmem⟩ := ((f.sound hr).baseOf_eq_iff hshift hlow hhigh).mp hbase
      exact ⟨r, ⟨hr, rfl, htiles, Nat.lt_of_le_of_lt hmem.1 hhigh⟩, hmem.1, hmem.2, hhigh⟩
    · cases hres
  · intro h
    rcases h with ⟨r, ⟨hr, hsize, htiles, _⟩, hlow, hhigh, hend⟩
    simp only at hr hsize htiles
    subst hsize
    have hstart : r.start ≤ a := Nat.le_trans htiles.1 hlow
    rw [resolve?, if_pos (f.contains_of_mem hr hstart hend)]
    simp only [f.index_of_mem hr hstart hend, hr, Option.map_some, Option.some.injEq,
      Slot.mk.injEq, true_and, and_true]
    exact ((f.sound hr).baseOf_eq_iff hshift hstart hend).mpr ⟨htiles, hlow, hhigh⟩

/-- The region and the base of the slot of an address follow by two divisions. -/
theorem divided_of_resolve? (f : h.Framed) {a : Nat} {s : Slot} (hres : h.resolve? a = some s) :
    s.region = (a - h.start) / 2 ^ h.shift ∧ h.classes.sizes[s.region]? = some s.size ∧
      s.base = s.window h.start h.shift +
        (a - s.window h.start h.shift) / s.size * s.size := by
  unfold resolve? at hres
  split at hres
  · next hc =>
    obtain ⟨r, hr, _, hhigh⟩ := f.region_of_contains hc
    simp only [hr, Option.map_some, Option.some.injEq] at hres
    subst hres
    simp only
    refine ⟨Nat.shiftRight_eq_div_pow .., f.class_eq hr, ?_⟩
    rw [(f.sound hr).baseOf_eq f.shift_le hhigh, (f.window_eq hr).1, Slot.window]
  · cases hres

theorem resolve?_eq_none_iff (f : h.Framed) {a : Nat} :
    h.resolve? a = none ↔ h.contains a = false := by
  cases hc : h.contains a with
  | true =>
      obtain ⟨r, hr, _⟩ := f.region_of_contains hc
      simp [resolve?, hc, hr]
  | false => simp [resolve?, hc]

theorem exists_slot_of_contains (f : h.Framed) {a : Nat} (hc : h.contains a = true) :
    ∃ s, h.resolve? a = some s := by
  rw [← Option.isSome_iff_exists, Option.isSome_iff_ne_none, ne_eq, f.resolve?_eq_none_iff, hc]
  exact Bool.noConfusion

theorem resolve?_of_mem (f : h.Framed) {a : Nat} {s : Slot} {r : Region} (hs : h.IsSlot s r)
    (hlow : s.base ≤ a) (hhigh : a < s.finish) (hend : a < r.windowEnd) :
    h.resolve? a = some s := f.resolve?_eq_some_iff.mpr ⟨r, hs, hlow, hhigh, hend⟩

end Framed

/-! ## A new heap -/

private theorem region?_create (f : Nat → Nat) {classes : SizeClasses} {start shift i : Nat}
    {r : Region} (h : (classes.toList.map fun c =>
      Region.create start shift (f c.index) c)[i]? = some r) :
    ∃ size, classes.sizes[i]? = some size ∧ r = Region.create start shift (f i) ⟨i, size⟩ := by
  simp only [SizeClasses.toList, List.map_map, List.getElem?_map, List.getElem?_zipIdx,
    Option.map_map, Option.map_eq_some_iff] at h
  obtain ⟨size, hsize, rfl⟩ := h
  exact ⟨size, hsize, by simp⟩

private theorem shift_bounds {config : Config} (valid : config.isValid = true) :
    Config.leastShift ≤ config.regionShift ∧ config.regionShift ≤ Config.mostShift := by
  simpa only [Config.isValid, Bool.and_eq_true, decide_eq_true_eq] using valid

private theorem pageSize_dvd {config : Config} (valid : config.isValid = true) :
    pageSize ∣ config.regionSize :=
  Nat.pow_dvd_pow 2 (Nat.le_trans (by decide : 12 ≤ 20) (shift_bounds valid).1)

private theorem max_regionSize {config : Config} (valid : config.isValid = true) :
    max config.regionSize pageSize = config.regionSize :=
  Nat.max_eq_left (Nat.le_of_dvd (Nat.two_pow_pos _) (pageSize_dvd valid))

def windowsSize (config : Config) : Nat :=
  (SizeClasses.forRegion config.regionSize).length <<< config.regionShift

private theorem roundUp_windowsSize {config : Config} (valid : config.isValid = true) :
    roundUp (windowsSize config) pageSize = windowsSize config := by
  refine roundUp_of_dvd Reservation.pageSize_pos ?_
  rw [windowsSize, Nat.shiftLeft_eq]
  exact Nat.dvd_mul_left_of_dvd (pageSize_dvd valid) _

private theorem sensible_windowsSize {config : Config} (valid : config.isValid = true) :
    Reservation.Sensible (windowsSize config) config.regionSize := by
  have hshift := (shift_bounds valid).1
  have hlen : (SizeClasses.forRegion config.regionSize).length ≤ 264 :=
    SizeClasses.length_upTo_le _
  have hpow : config.regionSize ≤ 2 ^ 36 := Nat.pow_le_pow_right (by decide) (shift_bounds valid).2
  have hproduct := Nat.mul_le_mul hlen hpow
  refine ⟨?_, ⟨_, rfl⟩, ?_⟩
  · obtain ⟨hindex, _⟩ := SizeClasses.select?_eq_some (SizeClasses.select?_header hshift)
    have hmany : 2 < (SizeClasses.forRegion config.regionSize).length :=
      (List.getElem?_eq_some_iff.mp hindex).1
    rw [windowsSize, Nat.shiftLeft_eq]
    exact Nat.mul_ne_zero (by omega) (Nat.ne_of_gt (Nat.two_pow_pos _))
  · rw [Reservation.spanFor, roundUp_windowsSize valid, max_regionSize valid, windowsSize,
      Nat.shiftLeft_eq]
    unfold Config.regionSize at *
    unfold Word.limit
    omega

/-- For a valid configuration there is a heap, wherever its span is found. -/
theorem exists_create {config : Config} (valid : config.isValid = true) {raw : Nat}
    (hraw : raw + config.regionSize < Word.limit) (skips : Nat → Nat) :
    ∃ h, create config raw skips = .ok h := by
  rw [← max_regionSize valid] at hraw
  obtain ⟨cut, hreserve, -⟩ :=
    @Reservation.reserve_of_sensible (fun _ => some raw) _ _ raw (sensible_windowsSize valid) rfl hraw
  rw [windowsSize] at hreserve
  simp only [create, Config.validate, valid, if_true, hreserve]
  exact ⟨_, rfl⟩

/-- `h` is a heap as it is made: no slot is carved, no header written and no tag kept. -/
structure Created (config : Config) (raw : Nat) (h : Heap) : Prop where
  valid : config.isValid = true
  range_eq : h.range = ⟨roundUp raw config.regionSize, windowsSize config⟩
  shift_eq : h.shift = config.regionShift
  classes_eq : h.classes = SizeClasses.forRegion config.regionSize
  length_eq : h.regions.length = h.classes.length
  headers_eq : h.headers = {}
  chains_eq : h.chains = {}
  region {i : Nat} {r : Region} : h.region? i = some r →
    ∃ size skip, h.classes.sizes[i]? = some size ∧ skip < Region.skipLimit ∧
      r = Region.create h.start h.shift skip ⟨i, size⟩

theorem created_of_create {config : Config} {raw : Nat} {skips : Nat → Nat} {h : Heap}
    (hc : create config raw skips = .ok h) : Created config raw h := by
  unfold create at hc
  split at hc
  · cases hc
  · next hvalid =>
    simp only at hc
    split at hc
    · cases hc
    · cases hc
    · next range hrange =>
      obtain rfl := Except.ok.inj hc
      have valid : config.isValid = true := by
        cases hv : config.isValid with
        | true => rfl
        | false => simp [Config.validate, hv] at hvalid
      refine ⟨valid, ?_, rfl, rfl, ?_, rfl, rfl, fun {i r} hr => ?_⟩
      · obtain ⟨_, hraw, rfl⟩ := Reservation.range_of_reserve hrange
        obtain rfl := Option.some.inj hraw
        have hpages := roundUp_windowsSize valid
        rw [windowsSize] at hpages
        rw [max_regionSize valid, hpages, windowsSize]
      · simp [SizeClasses.toList, SizeClasses.length]
      · obtain ⟨size, hget, rfl⟩ := region?_create
          (fun i => if config.aslr then skips i % Region.skipLimit else 0) hr
        refine ⟨size, _, hget, ?_, rfl⟩
        split
        · exact Nat.mod_lt _ (by decide)
        · decide

namespace Created

variable {config : Config} {raw : Nat} {h : Heap}

theorem windows (hc : Created config raw h) :
    2 ^ h.shift ∣ h.start ∧ h.range.size = h.regions.length * 2 ^ h.shift := by
  rw [hc.shift_eq, start, hc.length_eq, hc.classes_eq, hc.range_eq]
  exact ⟨dvd_roundUp .., Nat.shiftLeft_eq ..⟩

theorem start_eq (hc : Created config raw h) (aligned : config.regionSize ∣ raw) :
    h.start = raw := by
  rw [start, hc.range_eq]
  exact roundUp_of_dvd (Nat.two_pow_pos _) aligned

theorem framed (hc : Created config raw h) : h.Framed := by
  have hbounds := shift_bounds hc.valid
  obtain ⟨haligned, hsize⟩ := hc.windows
  have hclasses : h.classes = SizeClasses.forRegion (2 ^ h.shift) := by
    rw [hc.classes_eq, hc.shift_eq, Config.regionSize]
  refine ⟨?_, ?_, haligned, hsize, hclasses, hc.length_eq, ?_, ?_, ?_⟩
  · exact hc.shift_eq ▸ hbounds.1
  · exact hc.shift_eq ▸ hbounds.2
  · intro i r hr
    obtain ⟨size, skip, _, _, rfl⟩ := hc.region hr
    rfl
  · intro i r hr
    obtain ⟨size, skip, hget, _, rfl⟩ := hc.region hr
    exact hget
  · intro i r hr
    obtain ⟨size, skip, hget, hskip, rfl⟩ := hc.region hr
    refine Region.sound_create hskip (SizeClasses.mem_forRegion ?_)
    rw [← hclasses]
    exact List.mem_of_getElem? hget

end Created

end Heap

end TypedHeap
