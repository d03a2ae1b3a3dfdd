import TypedHeap.Proofs.Ownership

/-! # Objects apart

Every object in use has a slot of the least class with room for it. The slot lies in the window of
that class, among those that are handed out and in open memory, and no two objects in use share a
byte of their slots.
-/

namespace TypedHeap

namespace Slot

def Apart (s t : Slot) : Prop := s.finish ≤ t.base ∨ t.finish ≤ s.base

/-- The slot lies among those that the region hands out, and in open memory. -/
structure LiesIn (s : Slot) (r : Region) : Prop where
  first_le : r.first ≤ s.base
  dvd : s.size ∣ s.base - r.first
  le_finish : s.finish ≤ r.finish
  openFrom_le : r.openFrom ≤ s.base
  le_openTo : s.finish ≤ r.openTo

end Slot

namespace Heap.Framed

variable {h : Heap} {s t : Slot} {r : Region}

theorem liesIn (f : h.Framed) (hs : h.IsSlot s r) (hc : r.Carves s.base) (ho : r.Opens s.base) :
    s.LiesIn r := by
  have hsound := f.sound hs.region_eq
  have hfinish : s.finish ≤ r.next := by
    rw [Slot.finish, hs.size_eq]
    exact hsound.carved_finish_le hc
  have hopen : s.finish ≤ r.openTo := by
    rw [Slot.finish, hs.size_eq]
    exact ho.2
  refine ⟨hc.2.1, ?_, Nat.le_trans hfinish hsound.next_le, ho.1, hopen⟩
  have hdvd := Nat.dvd_sub hc.1.2 hsound.first_tiles.2
  rw [Nat.sub_sub_sub_cancel_right hsound.first_tiles.1] at hdvd
  exact hs.size_eq ▸ hdvd

theorem user_aligned (f : h.Framed) (hs : h.IsSlot s r) : 16 ∣ s.user := by
  have hsound := f.sound hs.region_eq
  have hshift := f.shift_ge
  have hpow : 16 ∣ 2 ^ h.shift := Nat.pow_dvd_pow 2 (Nat.le_trans (by decide : 4 ≤ 20) hshift)
  have hwindow : 16 ∣ r.start := by
    rw [(f.window_eq hs.region_eq).1]
    exact Nat.dvd_add (Nat.dvd_trans hpow f.aligned) (Nat.dvd_mul_left_of_dvd hpow _)
  have hslot : 16 ∣ s.base - r.start := Nat.dvd_trans hsound.grain hs.tiles.2
  have hbase : s.base = r.start + (s.base - r.start) := by
    have hle := hs.tiles.1
    omega
  rw [Slot.user, hbase]
  exact Nat.dvd_add (Nat.dvd_add hwindow hslot) (by decide)

/-- Two carved slots are apart: an address resolves to one slot only. -/
theorem apart (f : h.Framed) (hs : h.Carved s) (ht : h.Carved t) (hne : s ≠ t) : s.Apart t := by
  obtain ⟨r, hsr, hsc⟩ := hs
  obtain ⟨q, htq, htc⟩ := ht
  refine Classical.byContradiction fun hmeet => ?_
  obtain ⟨hst, hts⟩ := not_or.mp hmeet
  have hsize := (f.sound hsr.region_eq).size_pos
  have hsize' := (f.sound htq.region_eq).size_pos
  have hseq := hsr.size_eq
  have hteq := htq.size_eq
  simp only [Slot.finish] at hst hts
  have hres := f.resolve?_of_carves hsr hsc (a := max s.base t.base) (Nat.le_max_left ..)
    (by unfold Slot.finish; omega)
  have hres' := f.resolve?_of_carves htq htc (a := max s.base t.base) (Nat.le_max_right ..)
    (by unfold Slot.finish; omega)
  exact hne (Option.some.inj (hres.symm.trans hres'))

end Heap.Framed

namespace Guard

/-- An object of `size` bytes is in use in the slot. -/
structure Occupies (g : Guard) (s : Slot) (size : Nat) : Prop where
  resolved : g.heap.resolve? s.base = some s
  live : ∃ header, g.heap.live? s = some header ∧ header.size = size

/-- The slot is where one for an object of `size` bytes belongs. -/
structure Sited (g : Guard) (s : Slot) (size : Nat) : Prop where
  aligned : 16 ∣ s.user
  fits : size + headerSize ≤ s.size
  least : ∀ other ∈ g.heap.classes.sizes, size + headerSize ≤ other → s.size ≤ other
  class_eq : g.heap.classes.sizes[s.region]? = some s.size
  window_le : g.heap.start + s.region * 2 ^ g.heap.shift ≤ s.base
  le_window : s.finish ≤ g.heap.start + (s.region + 1) * 2 ^ g.heap.shift
  lies : ∃ r, g.heap.region? s.region = some r ∧ s.LiesIn r

variable {g g' : Guard} {s t : Slot} {size : Nat}

theorem Occupies.carved (ho : g.Occupies s size) (k : g.heap.Kept g.registry) :
    g.heap.Carved s := by
  obtain ⟨header, hl, _⟩ := ho.live
  obtain ⟨r, hs, _⟩ := k.framed.resolve?_eq_some_iff.mp ho.resolved
  exact k.carved_of_live hs hl

theorem Holds.occupies {b : Bounds} (hh : g.Holds s b) (k : g.heap.Kept g.registry) :
    g.Occupies s b.length := by
  have hl := hh.live? k
  have hlength : (g.heap.headerAt s.base).size = b.length := by
    rw [hh.bounds_eq]
    exact (Nat.add_sub_cancel_left ..).symm
  obtain ⟨r, hs, hcarves⟩ := hh.carved
  have hpos : 0 < s.size := hs.size_eq ▸ (k.framed.sound hs.region_eq).size_pos
  exact ⟨k.framed.resolve?_of_carves hs hcarves (Nat.le_refl _) (Nat.lt_add_of_pos_right hpos),
    _, hl, hlength⟩

theorem Occupies.sited (ho : g.Occupies s size) (k : g.heap.Kept g.registry) :
    g.Sited s size := by
  obtain ⟨r, hs, hcarves⟩ := ho.carved k
  obtain ⟨header, hl, rfl⟩ := ho.live
  have hu := (k.inUse_of_live hs hl).1
  obtain ⟨hstart, hend⟩ := k.framed.window_eq hs.region_eq
  have hselect : g.heap.classes.select? (header.size + headerSize) = some ⟨r.index, r.size⟩ :=
    hu.class_eq
  have hsorted : g.heap.classes.sizes.Pairwise (· < ·) := by
    rw [k.framed.classes_eq]
    exact SizeClasses.sorted_upTo _
  refine ⟨k.framed.user_aligned hs, hs.size_eq ▸ hu.size_le, fun other hother hroom => ?_,
    hs.size_eq ▸ k.framed.class_eq hs.region_eq, hstart ▸ hs.tiles.1,
    hend ▸ k.framed.finish_le hs hcarves, r, hs.region_eq,
    k.framed.liesIn hs hcarves (k.opens_of_live hs hl)⟩
  exact hs.size_eq ▸ SizeClasses.le_of_select? hsorted hselect hother hroom

/-- In every reachable state, each object in use is where it belongs, and the slots of any two are
apart: no byte of one object is one of the other or of its header. What a request answers in the
reserved range is such an object for as long as its pointer is neither freed nor reallocated. -/
theorem objects_sited_apart (hg : g.Reachable) :
    (∀ s size, g.Occupies s size → g.Sited s size) ∧
    (∀ s t m n, g.Occupies s m → g.Occupies t n → s ≠ t → s.Apart t ∧
      ∀ a, s.user ≤ a → a < s.user + m → ¬ (t.base ≤ a ∧ a < t.user + n)) ∧
    (∀ e size b, e.Permitted g → e.request? = some size → e.answer? g = some b →
      g.heap.contains b.lower = true → ∃ s, b = s.object size ∧
        ∀ es g', (g.perform e).Run es g' → (∀ e ∈ es, ¬ e.Names b.lower) →
          g'.Occupies s size) := by
  have k := hg.kept
  refine ⟨fun s size ho => ho.sited k, fun s t m n hs ht hne => ?_, ?_⟩
  · have hapart := k.framed.apart (hs.carved k) (ht.carved k) hne
    refine ⟨hapart, fun a hlow hhigh hin => ?_⟩
    have hfits := (hs.sited k).fits
    have hfits' := (ht.sited k).fits
    simp only [Slot.Apart, Slot.finish, Slot.user] at hapart hlow hhigh hin
    omega
  · intro e size b hp hsize ha hc
    obtain ⟨⟨s, hs, rfl⟩, hcalm⟩ := holds_of_answer k hp hsize ha hc
    obtain ⟨_, he⟩ := effect_perform k hp (hcalm.halted_eq.trans hg.halted_eq)
    refine ⟨s, rfl, fun es g' run hes => ?_⟩
    have hlater := (hs.later (he.kept k) run hes).1.occupies (run.kept (he.kept k))
    rwa [Bounds.length, Slot.object, Nat.add_sub_cancel_left] at hlater

/-- An object in a slot that was used before, and one that moved to a larger class. -/
theorem recycled_sited_apart :
    recycled.Reachable ∧ recycled.Occupies ⟨3, 0x400000, 64⟩ 8 ∧
      recycled.Occupies ⟨8, 0x900000, 160⟩ 100 ∧ recycled.Sited ⟨3, 0x400000, 64⟩ 8 ∧
      recycled.Sited ⟨8, 0x900000, 160⟩ 100 ∧
      Slot.Apart ⟨3, 0x400000, 64⟩ ⟨8, 0x900000, 160⟩ := by
  have hr := reachable_occupied.later run_recycling
  have occupies {s : Slot} {size : Nat} (hres : recycled.heap.resolve? s.base = some s)
      (hsize : (recycled.heap.live? s).map (·.size) = some size) : recycled.Occupies s size :=
    ⟨hres, Option.map_eq_some_iff.mp hsize⟩
  have hfirst : recycled.Occupies ⟨3, 0x400000, 64⟩ 8 :=
    occupies (by decide +kernel) (by decide +kernel)
  have hsecond : recycled.Occupies ⟨8, 0x900000, 160⟩ 100 :=
    occupies (by decide +kernel) (by decide +kernel)
  obtain ⟨hsited, hapart, _⟩ := objects_sited_apart hr
  exact ⟨hr, hfirst, hsecond, hsited _ _ hfirst, hsited _ _ hsecond,
    (hapart _ _ _ _ hfirst hsecond (by decide)).1⟩

end Guard

end TypedHeap
