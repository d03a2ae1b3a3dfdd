import TypedHeap.Proofs.Runs

/-! # The resolver

A valid configuration always gives a guard, and whatever the guard did, its resolver finds the slot
of every address of the reserved range by two exact divisions, and none elsewhere. A slot that the
end of its window cuts off has the addresses in front of that end only.
-/

namespace TypedHeap.Guard

variable {config : Config}

theorem exists_create (valid : config.isValid = true) (registry : Registry) {raw : Nat}
    (hraw : raw + config.regionSize < Word.limit) (skips : Nat → Nat) :
    ∃ g, create config registry raw skips = .ok g := by
  obtain ⟨heap, hheap⟩ := Heap.exists_create valid hraw skips
  exact ⟨_, by rw [create, hheap]; rfl⟩

theorem created_range {start : Nat} {heap : Heap} (hc : heap.Created config start)
    (aligned : config.regionSize ∣ start) (a : Nat) :
    heap.contains a = true ↔ start ≤ a ∧
      a < start + (SizeClasses.forRegion config.regionSize).length <<< config.regionShift := by
  have hsize : heap.range.size =
      (SizeClasses.forRegion config.regionSize).length <<< config.regionShift := by
    rw [hc.windows.2, hc.length_eq, hc.classes_eq, hc.shift_eq, Nat.shiftLeft_eq]
  rw [Heap.contains, Reservation.contains_iff, hsize]
  have hstart : heap.range.start = start := hc.start_eq aligned
  rw [hstart]

/-- A guard for a valid configuration can be had at every multiple of the region size, as long as a
region behind it ends at a word. In all its later states an address resolves iff it lies in one of the
windows, to the slot of its window in which it lies by division. All addresses of that slot resolve to
it. -/
theorem resolves_exactly {start : Nat} (valid : config.isValid = true)
    (aligned : config.regionSize ∣ start) (registry : Registry) (skips : Nat → Nat) :
    (start + config.regionSize < Word.limit → ∃ g₀, create config registry start skips = .ok g₀) ∧
    ∀ g₀, create config registry start skips = .ok g₀ →
      ∀ es g, g₀.Run es g → ∀ a,
        (g.heap.resolve? a = none ↔ ¬ (start ≤ a ∧ a < start +
          (SizeClasses.forRegion config.regionSize).length <<< config.regionShift)) ∧
        ∀ s, g.heap.resolve? a = some s →
          s.region = (a - start) / 2 ^ config.regionShift ∧
          (SizeClasses.forRegion config.regionSize).sizes[s.region]? = some s.size ∧
          s.base = s.window start config.regionShift +
            (a - s.window start config.regionShift) / s.size * s.size ∧
          s.base ≤ a ∧ a < s.base + s.size ∧
          ∀ a', s.base ≤ a' → a' < s.base + s.size →
            a' < s.window start config.regionShift + 2 ^ config.regionShift →
            g.heap.resolve? a' = some s := by
  refine ⟨fun hstart => exists_create valid registry hstart skips,
    fun g₀ hcreate es g run a => ?_⟩
  obtain ⟨heap, hcreated, rfl⟩ := create_eq_ok hcreate
  simp only [run.resolve?_eq (hcreated.kept registry)]
  have f := hcreated.framed
  refine ⟨?_, fun s hres => ?_⟩
  · rw [f.resolve?_eq_none_iff, ← created_range hcreated aligned, Bool.not_eq_true]
  · obtain ⟨r, hs, hlow, hhigh, _⟩ := f.resolve?_eq_some_iff.mp hres
    obtain ⟨hregion, hsize, hbase⟩ := f.divided_of_resolve? hres
    have hwindow := f.window_eq hs.region_eq
    rw [hcreated.start_eq aligned, hcreated.shift_eq] at hregion hbase hwindow
    rw [hcreated.classes_eq] at hsize
    refine ⟨hregion, hsize, hbase, hlow, hhigh, fun a' hlow' hhigh' hend' => ?_⟩
    refine f.resolve?_of_mem hs hlow' hhigh' ?_
    rw [hwindow.2, Nat.add_mul]
    unfold Slot.window at hend'
    omega

/-- The last address of the third window lies in a slot of which there are 16 bytes only. -/
theorem smallest_resolves_exactly :
    Config.isValid ⟨false, false, false, false, 20, true⟩ = true ∧ 2 ^ 20 ∣ 0x400000 ∧
      ∃ g, create ⟨false, false, false, false, 20, true⟩ (.builtins .spread) 0x400000 id = .ok g ∧
        g.heap.resolve? 0x6FFFFF = some ⟨2, 0x6FFFF0, 48⟩ := by
  have valid : Config.isValid ⟨false, false, false, false, 20, true⟩ = true := by decide
  have aligned : 2 ^ 20 ∣ 0x400000 := by decide
  obtain ⟨hexists, hresolves⟩ := resolves_exactly valid aligned (.builtins .spread) id
  obtain ⟨g, hcreate⟩ := hexists (by decide)
  obtain ⟨hnone, hsome⟩ := hresolves g hcreate [] g (.done g) 0x6FFFFF
  refine ⟨valid, aligned, g, hcreate, ?_⟩
  have hinside : ¬ g.heap.resolve? 0x6FFFFF = none := by
    rw [hnone]
    decide +kernel
  obtain ⟨⟨region, base, size⟩, hres⟩ := Option.ne_none_iff_exists'.mp hinside
  obtain ⟨hregion, hsize, hbase, _⟩ := hsome _ hres
  have hthird : (SizeClasses.forRegion (2 ^ 20)).sizes[2]? = some 48 := by decide +kernel
  simp only [Slot.window] at hregion hsize hbase
  obtain rfl : region = 2 := hregion.trans (by decide)
  obtain rfl : size = 48 := Option.some.inj (hsize.symm.trans hthird)
  rw [hres, hbase]

end TypedHeap.Guard
