import TypedHeap.Guard.Copy
import TypedHeap.Guard.Free
import TypedHeap.Proofs.Account
import TypedHeap.Proofs.Moves

/-! # Raw access and headers

Reads and writes reach headers like all other bytes. The ranges that the operations touch hold
none: they lie within the object of a slot or outside the reserved range.
-/

namespace TypedHeap

def Reservation.Avoids (r : Reservation) (start length : Nat) : Prop :=
  start + length ≤ r.start ∨ r.start + r.size ≤ start

instance (r : Reservation) (start length : Nat) : Decidable (r.Avoids start length) :=
  inferInstanceAs (Decidable (_ ∨ _))

theorem Reservation.Avoids.mono {r : Reservation} {start length less : Nat}
    (ha : r.Avoids start length) (hle : less ≤ length) : r.Avoids start less := by
  unfold Avoids at ha ⊢
  omega

namespace Heap

variable {h : Heap} {s : Slot} {r : Region}

theorem not_contains_of_avoids {start length : Nat} (ha : h.range.Avoids start length)
    (hpos : 0 < length) : h.contains start = false := by
  cases hc : h.contains start with
  | false => rfl
  | true =>
      have hmem := (Reservation.contains_iff ..).mp hc
      unfold Reservation.Avoids at ha
      omega

theorem headersAmong_of_avoids {start length : Nat} (ha : h.range.Avoids start length) :
    h.headersAmong start length = [] := by
  by_cases hpos : 0 < length
  · exact headersAmong_of_not_contains (not_contains_of_avoids ha hpos) length
  · obtain rfl : length = 0 := by omega
    exact headersAmong_zero h start

/-- A write of the range changes no header, and no slot but a carved one with `P`: it lies outside
the reserved range or behind the header of such a slot. -/
def Harmless (h : Heap) (P : Slot → Prop) (start length : Nat) : Prop :=
  length = 0 ∨ h.range.Avoids start length ∨
    ∃ s, h.Carved s ∧ P s ∧ s.user ≤ start ∧ start + length ≤ s.finish

theorem Harmless.mono {P : Slot → Prop} {start length less : Nat}
    (hw : h.Harmless P start length) (hle : less ≤ length) : h.Harmless P start less := by
  rcases hw with rfl | havoids | ⟨s, hc, hp, hlow, hhigh⟩
  · exact .inl (Nat.le_zero.mp hle)
  · exact .inr (.inl (havoids.mono hle))
  · exact .inr (.inr ⟨s, hc, hp, hlow, by omega⟩)

theorem Harmless.imp {P Q : Slot → Prop} {start length : Nat} (hw : h.Harmless P start length)
    (himp : ∀ s, P s → Q s) : h.Harmless Q start length := by
  rcases hw with hzero | havoids | ⟨s, hc, hp, hin⟩
  · exact .inl hzero
  · exact .inr (.inl havoids)
  · exact .inr (.inr ⟨s, hc, himp s hp, hin⟩)

namespace Framed

theorem finish_le (f : h.Framed) (hs : h.IsSlot s r) (hc : r.Carves s.base) :
    s.finish ≤ r.windowEnd := by
  have hsound := f.sound hs.region_eq
  have hnext := hsound.carved_finish_le hc
  have hsize := hs.size_eq
  have hfinish := hsound.finish_le
  have hle := hsound.next_le
  simp only [Slot.finish]
  omega

theorem resolve?_of_carves (f : h.Framed) (hs : h.IsSlot s r) (hc : r.Carves s.base)
    {a : Nat} (hlow : s.base ≤ a) (hhigh : a < s.finish) : h.resolve? a = some s :=
  f.resolve?_of_mem hs hlow hhigh (Nat.lt_of_lt_of_le hhigh (f.finish_le hs hc))

theorem resolve?_of_carved (f : h.Framed) (hc : h.Carved s) {a : Nat} (hlow : s.user ≤ a)
    (hhigh : a < s.finish) : h.resolve? a = some s := by
  obtain ⟨r, hs, hcarves⟩ := hc
  exact f.resolve?_of_carves hs hcarves (Nat.le_trans (Nat.le_add_right ..) hlow) hhigh

/-- A range within a carved slot and behind its header meets no header. -/
theorem headersAmong_of_within (f : h.Framed) (hc : h.Carved s) {start length : Nat}
    (hlow : s.user ≤ start) (hhigh : start + length ≤ s.finish) :
    h.headersAmong start length = [] := by
  obtain ⟨r, hs, hcarves⟩ := hc
  by_cases hpos : 0 < length
  · have hbase : s.base ≤ start := Nat.le_trans (Nat.le_add_right ..) hlow
    have hend := f.finish_le hs hcarves
    rw [(f.window_eq hs.region_eq).2] at hend
    refine headersAmong_of_resolve? (f.resolve?_of_carves hs hcarves hbase (by omega)) hlow ?_
    rw [Nat.shiftLeft_eq]
    omega
  · obtain rfl : length = 0 := by omega
    exact headersAmong_zero h start

theorem headersAmong_of_harmless (f : h.Framed) {P : Slot → Prop} {start length : Nat}
    (hw : h.Harmless P start length) : h.headersAmong start length = [] := by
  rcases hw with rfl | havoids | ⟨s, hc, _, hlow, hhigh⟩
  · exact headersAmong_zero h start
  · exact headersAmong_of_avoids havoids
  · exact f.headersAmong_of_within hc hlow hhigh

theorem hasHeader_of_carved (f : h.Framed) (hc : h.Carved s) :
    h.hasHeader s.base = true := by
  obtain ⟨r, hs, hcarves⟩ := hc
  have hheaded := (f.sound hs.region_eq).carved_headed hcarves
  have hsize : headerSize ≤ s.size := hs.size_eq ▸ hheaded
  have hpos : 0 < s.size := Nat.lt_of_lt_of_le (by decide) hsize
  have hres : h.resolve? s.base = some s :=
    f.resolve?_of_carves hs hcarves (Nat.le_refl _) (Nat.lt_add_of_pos_right hpos)
  have hbytes : Header.byteCount ≤ headerSize := by decide
  simp [hasHeader, hres, Nat.le_trans hbytes hsize]

end Framed

end Heap

namespace Guard

variable {g : Guard} {start length : Nat}

theorem SameParts.kept {g' : Guard} (h : g.SameParts g') (k : g.heap.Kept g.registry) :
    g'.heap.Kept g'.registry := by
  rw [h.heap_eq, h.registry_eq]
  exact k

theorem clear_eq (hn : g.heap.headersAmong start length = []) (wanted : Bool) :
    g.clear start length wanted =
      { g with memory := if wanted then g.memory.set start length 0 else g.memory } := by
  unfold clear
  cases wanted with
  | true => simp only [if_true, setBytes, changeBytes_of_headersAmong_eq_nil hn]
  | false => simp only [Bool.false_eq_true, if_false]

theorem copyBytes_eq {source : Nat} (hn : g.heap.headersAmong start length = []) :
    g.copyBytes start source length =
      { g with memory := (g.heap.expose g.memory source length).move start source length } :=
  changeBytes_of_headersAmong_eq_nil hn _

theorem setBytes_eq (hn : g.heap.headersAmong start length = []) (value : UInt8) :
    g.setBytes start length value = { g with memory := g.memory.set start length value } :=
  changeBytes_of_headersAmong_eq_nil hn _

/-! ## Bounded access -/

theorem harmless_of_remaining (k : g.heap.Kept g.registry) {target m : Nat} {slot : Slot}
    (hres : g.heap.resolve? target = some slot)
    (hm : m ≤ (g.boundsAt target).remaining target) : g.heap.Harmless (· = slot) target m := by
  obtain ⟨r, hs, _⟩ := k.framed.resolve?_eq_some_iff.mp hres
  simp only [boundsAt, hres] at hm
  cases hl : g.heap.live? slot with
  | none =>
      simp only [hl, Bounds.emptyAt, Bounds.remaining, Nat.le_refl, and_self, if_true,
        Nat.sub_self] at hm
      exact .inl (Nat.le_zero.mp hm)
  | some header =>
      obtain ⟨hu, _⟩ := k.inUse_of_live hs hl
      obtain ⟨hcarves, _, _⟩ := (k.live?_eq_some_iff hs).mp hl
      have hsize := hu.size_le
      have hclass := hs.size_eq
      simp only [hl, Slot.object, Bounds.remaining] at hm
      split at hm
      · next hin =>
        refine .inr (.inr ⟨slot, ⟨r, hs, hcarves⟩, rfl, hin.1, ?_⟩)
        simp only [Slot.finish, Slot.user] at *
        omega
      · exact .inl (Nat.le_zero.mp hm)

/-- The bytes that may be touched from an address on lie in the object there, if it is an address of
the heap, and the others are foreign. -/
theorem harmless_of_allowance (k : g.heap.Kept g.registry) {target n room : Nat} {g' : Guard}
    (hforeign : g.heap.contains target = false → g.heap.range.Avoids target n)
    (ha : g.allowance target n = (room, g')) :
    g.heap.Harmless (fun s => g.heap.resolve? target = some s) target room := by
  unfold allowance at ha
  split at ha
  · next hskip =>
    obtain ⟨rfl, _⟩ := Prod.mk.inj ha
    rcases hskip with rfl | hnone
    · exact .inl rfl
    · have hout := k.framed.resolve?_eq_none_iff.mp (Option.isNone_iff_eq_none.mp hnone)
      exact .inr (.inl (hforeign hout))
  · next hheap =>
    have hbounds : (g.bump .boundsChecks).boundsAt target = g.boundsAt target := by
      simp only [boundsAt, (g.silent_bump .boundsChecks).heap_eq]
    have hroom : room ≤ (g.boundsAt target).remaining target := by
      simp only [hbounds] at ha
      split at ha
      · exact Nat.le_of_eq (congrArg Prod.fst ha).symm
      · obtain ⟨rfl, _⟩ := Prod.mk.inj ha
        omega
    cases hres : g.heap.resolve? target with
    | none => simp [hres] at hheap
    | some slot => exact (harmless_of_remaining k hres hroom).imp fun s hs => congrArg some hs.symm

theorem sameParts_allowance (g : Guard) (address length : Nat) :
    g.SameParts (g.allowance address length).2 := by
  unfold allowance
  split
  · exact ⟨rfl, rfl, rfl, rfl, rfl⟩
  · have hb := (g.silent_bump .boundsChecks).toSameParts
    simp only
    split
    · exact hb.trans (sameParts_report ..)
    · exact hb

/-- Filling changes the memory only, and no header. -/
theorem fill_eq (k : g.heap.Kept g.registry) {target n : Nat} (value : UInt8)
    (hforeign : g.heap.contains target = false → g.heap.range.Avoids target n) :
    g.fill target value n =
      if (g.allowance target n).2.halted then (g.allowance target n).2
      else { (g.allowance target n).2 with
        memory := g.memory.set target (g.allowance target n).1 value } := by
  unfold fill
  cases ha : g.allowance target n with
  | mk room g₁ =>
      have hsame := g.sameParts_allowance target n
      rw [ha] at hsame
      simp only at hsame ⊢
      split
      · rfl
      · have hn := k.framed.headersAmong_of_harmless (harmless_of_allowance k hforeign ha)
        rw [← hsame.heap_eq] at hn
        rw [setBytes_eq hn, hsame.memory_eq]

theorem sameHeap_fill (k : g.heap.Kept g.registry) {target n : Nat} (value : UInt8)
    (hforeign : g.heap.contains target = false → g.heap.range.Avoids target n) :
    g.SameHeap (g.fill target value n) := by
  have hsame := (g.sameParts_allowance target n).sameHeap
  rw [fill_eq k value hforeign]
  split
  · exact hsame
  · exact ⟨hsame.config_eq, hsame.registry_eq, hsame.heap_eq⟩

/-- How many bytes a copy may move, and the guard after both ends were measured. -/
def copyAllowance (g : Guard) (target source length : Nat) : Nat × Guard :=
  let fromSource := g.allowance source length
  let toTarget := fromSource.2.allowance target length
  (min fromSource.1 toTarget.1, toTarget.2)

theorem copy_measured (g : Guard) (target source n : Nat) :
    g.copy target source n =
      if (g.copyAllowance target source n).2.halted then (g.copyAllowance target source n).2
      else (g.copyAllowance target source n).2.copyBytes target source
        (g.copyAllowance target source n).1 := rfl

theorem sameParts_copyAllowance (g : Guard) (target source length : Nat) :
    g.SameParts (g.copyAllowance target source length).2 :=
  (g.sameParts_allowance source length).trans (sameParts_allowance ..)

theorem harmless_of_copyAllowance (k : g.heap.Kept g.registry) {target n : Nat} (source : Nat)
    (hforeign : g.heap.contains target = false → g.heap.range.Avoids target n) :
    g.heap.Harmless (fun s => g.heap.resolve? target = some s) target
      (g.copyAllowance target source n).1 := by
  have hsame := g.sameParts_allowance source n
  unfold copyAllowance
  generalize g.allowance source n = measured at hsame
  rw [← hsame.heap_eq] at hforeign ⊢
  exact (harmless_of_allowance (hsame.kept k) hforeign rfl).mono (Nat.min_le_right ..)

theorem copy_eq (k : g.heap.Kept g.registry) {target n : Nat} (source : Nat)
    (hforeign : g.heap.contains target = false → g.heap.range.Avoids target n) :
    g.copy target source n =
      if (g.copyAllowance target source n).2.halted then (g.copyAllowance target source n).2
      else { (g.copyAllowance target source n).2 with
        memory := (g.heap.expose g.memory source (g.copyAllowance target source n).1).move
          target source (g.copyAllowance target source n).1 } := by
  have hn := k.framed.headersAmong_of_harmless (harmless_of_copyAllowance k source hforeign)
  have hsame := g.sameParts_copyAllowance target source n
  rw [← hsame.heap_eq] at hn
  rw [copy_measured, copyBytes_eq hn, ← hsame.heap_eq, ← hsame.memory_eq]

theorem sameHeap_copy (k : g.heap.Kept g.registry) {target n : Nat} (source : Nat)
    (hforeign : g.heap.contains target = false → g.heap.range.Avoids target n) :
    g.SameHeap (g.copy target source n) := by
  have hsame := (g.sameParts_copyAllowance target source n).sameHeap
  rw [copy_eq k source hforeign]
  split
  · exact hsame
  · exact ⟨hsame.config_eq, hsame.registry_eq, hsame.heap_eq⟩

end Guard

end TypedHeap
