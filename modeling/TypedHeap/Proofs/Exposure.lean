import TypedHeap.Proofs.Runs

/-! # Bytes of the heap

Every address of the heap can be read as a byte: that of a header, or that of the memory between
headers. No header has a byte behind the header of a carved slot, and those of slots never handed
out are zero, so the contents of objects and the vacant rest of each window are plain memory.
-/

namespace TypedHeap

namespace Header

theorem getD_bytes_blank (i : Nat) : blank.bytes.getD i 0 = 0 := by
  have hzeros : blank.bytes = List.replicate byteCount 0 := by decide
  rw [hzeros, List.getD_eq_getElem?_getD, List.getElem?_replicate]
  split <;> rfl

end Header

namespace Heap

variable {h : Heap} {start length : Nat}

/-- The address lies behind all slots of its window that were handed out so far. -/
def Vacant (h : Heap) (a : Nat) : Prop :=
  ∃ i r, h.region? i = some r ∧ r.next ≤ a ∧ a < r.windowEnd

theorem resolve?_of_mem_slotsFrom {most address stop : Nat} {s : Slot}
    (hs : s ∈ h.slotsFrom most address stop) : ∃ x, h.resolve? x = some s := by
  induction most generalizing address with
  | zero => cases hs
  | succ most ih =>
      simp only [slotsFrom] at hs
      split at hs
      · cases hs
      · split at hs
        · cases hs
        · next slot hres =>
          rcases List.mem_cons.mp hs with rfl | hlater
          · exact ⟨address, hres⟩
          · exact ih hlater

theorem resolve?_of_mem_headersAmong {base : Nat} (hb : base ∈ h.headersAmong start length) :
    ∃ x s, h.resolve? x = some s ∧ s.base = base := by
  unfold headersAmong at hb
  split at hb
  · cases hb
  · obtain ⟨s, hs, rfl⟩ := List.mem_map.mp (List.mem_filter.mp hb).1
    obtain ⟨x, hres⟩ := resolve?_of_mem_slotsFrom hs
    exact ⟨x, s, hres, rfl⟩

/-- Exposing headers changes the bytes of headers only. -/
theorem byte_expose (h : Heap) (m : Memory) (start length a : Nat) :
    (h.expose m start length).byte a = m.byte a ∨
      ∃ x s, h.resolve? x = some s ∧ s.base ≤ a ∧ a < s.base + Header.byteCount ∧
        (h.expose m start length).byte a = (h.headerAt s.base).bytes.getD (a - s.base) 0 := by
  have hall : ∀ base ∈ h.headersAmong start length, ∃ x s, h.resolve? x = some s ∧ s.base = base :=
    fun base => resolve?_of_mem_headersAmong
  unfold expose
  generalize h.headersAmong start length = bases at hall
  induction bases generalizing m with
  | nil => exact .inl rfl
  | cons base bases ih =>
      rw [List.foldl_cons]
      have hfirst := m.byte_write base (h.headerAt base).bytes a
      rw [Header.length_bytes] at hfirst
      rcases ih (m.write base (h.headerAt base).bytes)
        (fun b hb => hall b (List.mem_cons_of_mem _ hb)) with hsame | hheader
      · rw [hsame, hfirst]
        split
        · next hcovers =>
          obtain ⟨x, s, hres, rfl⟩ := hall base List.mem_cons_self
          simp only [Memory.covers, Bool.and_eq_true, decide_eq_true_eq] at hcovers
          exact .inr ⟨x, s, hres, hcovers.1, hcovers.2, rfl⟩
        · exact .inl rfl
      · exact .inr hheader

/-! ## Windows -/

theorem Framed.windows_apart (f : h.Framed) {i j : Nat} {r q : Region}
    (hr : h.region? i = some r) (hq : h.region? j = some q) (hlt : i < j) :
    r.windowEnd ≤ q.start := by
  obtain ⟨_, hend⟩ := f.window_eq hr
  obtain ⟨hstart, _⟩ := f.window_eq hq
  have hle : (i + 1) * 2 ^ h.shift ≤ j * 2 ^ h.shift := Nat.mul_le_mul_right _ hlt
  omega

theorem Framed.not_carved_of_vacant (f : h.Framed) {a : Nat} (hv : h.Vacant a) {t : Slot}
    (hc : h.Carved t) (hlow : t.base ≤ a) : t.finish ≤ a := by
  obtain ⟨i, r, hr, hnext, hend⟩ := hv
  obtain ⟨q, hq, hcarves⟩ := hc
  have hfinish := f.finish_le hq hcarves
  have hbelow := (f.sound hq.region_eq).carved_finish_le hcarves
  have hsize := hq.size_eq
  have hfirst := (f.sound hr).first_le
  have htiles := (f.sound hr).first_tiles.1
  rcases Nat.lt_trichotomy t.region i with hlt | rfl | hgt
  · have hapart := f.windows_apart hq.region_eq hr hlt
    omega
  · obtain rfl := Option.some.inj (hr.symm.trans hq.region_eq)
    simp only [Slot.finish]
    omega
  · have hapart := f.windows_apart hr hq.region_eq hgt
    have hstart := hcarves.1.1
    omega

theorem Framed.header_finish_le (f : h.Framed) {x a : Nat} {s t : Slot}
    (hres : h.resolve? x = some s) (hc : h.Carved t) (huser : t.user ≤ a) (hin : a < t.finish)
    (hlow : s.base ≤ a) : s.base + Header.byteCount ≤ a := by
  obtain ⟨q, hs, hsx, _, hqend⟩ := f.resolve?_eq_some_iff.mp hres
  obtain ⟨r, ht, hcarves⟩ := hc
  have hfinish := f.finish_le ht hcarves
  have hbytes : Header.byteCount ≤ headerSize := by decide
  have hsize := ht.size_eq
  simp only [Slot.user, Slot.finish] at huser hin hfinish
  rcases Nat.lt_trichotomy s.region t.region with hlt | heq | hgt
  · have hapart := f.windows_apart hs.region_eq ht.region_eq hlt
    have hstart := hcarves.1.1
    omega
  · have hregion := hs.region_eq
    rw [heq, ht.region_eq, Option.some.injEq] at hregion
    subst hregion
    by_cases hafter : t.base < s.base
    · have hnext := hcarves.1.add_size_le hs.tiles hafter
      omega
    · omega
  · have hapart := f.windows_apart ht.region_eq hs.region_eq hgt
    have hstart := hs.tiles.1
    omega

/-- The headers that have a byte at a vacant address were never claimed. -/
theorem Kept.blank_of_vacant {registry : Registry} (k : h.Kept registry) {base a : Nat}
    (hv : h.Vacant a) (hlow : base ≤ a) (hhigh : a < base + Header.byteCount) :
    h.headerAt base = .blank := by
  apply k.blank
  intro i p hp hcarves
  let t : Slot := ⟨i, base, p.size⟩
  have hslot : h.IsSlot t p := ⟨hp, rfl, hcarves.1, (k.framed.sound hp).carved_within hcarves⟩
  have hfinish := k.framed.not_carved_of_vacant hv ⟨p, hslot, hcarves⟩ hlow
  have hheaded := (k.framed.sound hp).carved_headed hcarves
  have hbytes : Header.byteCount ≤ headerSize := by decide
  simp only [t, Slot.finish] at hfinish
  omega

end Heap

/-! ## Reading -/

/-- The byte that a read of the address gets. -/
def Guard.byteAt (g : Guard) (a : Nat) : UInt8 := (g.heap.expose g.memory a 1).byte a

theorem Heap.Framed.byte_expose_of_carved {h : Heap} (f : h.Framed) {t : Slot} (hc : h.Carved t)
    {a : Nat} (huser : t.user ≤ a) (hin : a < t.finish) (m : Memory) (start length : Nat) :
    (h.expose m start length).byte a = m.byte a := by
  rcases h.byte_expose m start length a with hsame | ⟨x, s, hres, hlow, hhigh, _⟩
  · exact hsame
  · have hle := f.header_finish_le hres hc huser hin hlow
    omega

theorem Heap.Kept.byte_expose_of_vacant {registry : Registry} {h : Heap} (k : h.Kept registry)
    {a : Nat} (hv : h.Vacant a) {m : Memory} (hzero : m.byte a = 0) (start length : Nat) :
    (h.expose m start length).byte a = 0 := by
  rcases h.byte_expose m start length a with hsame | ⟨_, s, _, hlow, hhigh, hbyte⟩
  · exact hsame.trans hzero
  · rw [hbyte, k.blank_of_vacant hv hlow hhigh]
    exact Header.getD_bytes_blank _

namespace Guard

variable {g : Guard} {a : Nat}

theorem byteAt_of_carved (f : g.heap.Framed) {t : Slot} (hc : g.heap.Carved t) (huser : t.user ≤ a)
    (hin : a < t.finish) : g.byteAt a = g.memory.byte a :=
  f.byte_expose_of_carved hc huser hin g.memory a 1

theorem byteAt_of_not_contains (hout : g.heap.contains a = false) :
    g.byteAt a = g.memory.byte a := by
  rw [byteAt, Heap.expose_of_headersAmong_eq_nil (Heap.headersAmong_of_not_contains hout 1)]

theorem byteAt_of_vacant (k : g.heap.Kept g.registry) (hv : g.heap.Vacant a)
    (hzero : g.memory.byte a = 0) : g.byteAt a = 0 := k.byte_expose_of_vacant hv hzero a 1

end Guard

end TypedHeap
