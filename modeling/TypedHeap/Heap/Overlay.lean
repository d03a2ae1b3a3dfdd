import TypedHeap.Heap.Basic
import TypedHeap.Memory

/-! # Headers in memory

The bytes of the headers lie between those of the objects. They are kept as headers and not in
the memory, which is what an access within an object needs. A stray access to more than an object
first exposes the headers in its range to the memory, and afterwards absorbs what it left of them.
A slot shorter than a header shares its bytes with the headers of its neighbours: a header is
written there like other bytes, and all that it meets are absorbed.
-/

namespace TypedHeap.Heap

/-- The slots from the one at `address` on that start before `stop`. The first argument bounds how
many there are. -/
def slotsFrom (h : Heap) : Nat → Nat → Nat → List Slot
  | 0, _, _ => []
  | most + 1, address, stop =>
      if stop ≤ address then []
      else
        match h.resolve? address with
        | none => []
        | some slot =>
            let windowEnd := h.start + (slot.region + 1) <<< h.shift
            slot :: h.slotsFrom most (min slot.finish windowEnd) stop

def headersFrom (h : Heap) (start : Nat) : Nat :=
  match h.resolve? start with
  | none => start
  | some slot =>
      if slot.size < Header.byteCount then max h.start (start - Header.byteCount) else start

/-- The bases of the slots with a byte of their header among the `length` bytes from `start` on. -/
def headersAmong (h : Heap) (start length : Nat) : List Nat :=
  if length = 0 then []
  else
    ((h.slotsFrom (length + Header.byteCount) (h.headersFrom start) (start + length)).map
      Slot.base).filter fun base => start < base + Header.byteCount

def expose (h : Heap) (m : Memory) (start length : Nat) : Memory :=
  (h.headersAmong start length).foldl (fun m base => m.write base (h.headerAt base).bytes) m

def absorb (h : Heap) (m : Memory) (start length : Nat) : Heap :=
  (h.headersAmong start length).foldl
    (fun h base => h.setHeader base (.ofBytes (m.bytes base Header.byteCount))) h

theorem expose_of_headersAmong_eq_nil {h : Heap} {start length : Nat}
    (hn : h.headersAmong start length = []) (m : Memory) : h.expose m start length = m := by
  simp [expose, hn]

theorem absorb_of_headersAmong_eq_nil {h : Heap} {start length : Nat}
    (hn : h.headersAmong start length = []) (m : Memory) : h.absorb m start length = h := by
  simp [absorb, hn]

theorem headersAmong_zero (h : Heap) (start : Nat) : h.headersAmong start 0 = [] := rfl

theorem headersAmong_of_not_contains {h : Heap} {start : Nat} (hc : h.contains start = false)
    (length : Nat) : h.headersAmong start length = [] := by
  have none : h.resolve? start = none := by simp [resolve?, hc]
  have from_ : h.headersFrom start = start := by simp [headersFrom, none]
  have few : h.slotsFrom (length + Header.byteCount) start (start + length) = [] := by
    simp [Header.byteCount, slotsFrom, none]
  simp [headersAmong, from_, few]

theorem headersAmong_of_resolve? {h : Heap} {start length : Nat} {slot : Slot}
    (hr : h.resolve? start = some slot) (hu : slot.user ≤ start)
    (hf : start + length ≤ min slot.finish (h.start + (slot.region + 1) <<< h.shift)) :
    h.headersAmong start length = [] := by
  have hb : Header.byteCount ≤ headerSize := by decide
  simp only [Slot.user, Slot.finish] at hu hf
  unfold headersAmong
  split
  · rfl
  · have long : ¬ slot.size < Header.byteCount := by omega
    have from_ : h.headersFrom start = start := by simp [headersFrom, hr, long]
    have rest (most : Nat) : h.slotsFrom most
        (min slot.finish (h.start + (slot.region + 1) <<< h.shift)) (start + length) = [] := by
      cases most with
      | zero => rfl
      | succ n => exact if_pos hf
    have one (most : Nat) : h.slotsFrom (most + 1) start (start + length) = [slot] := by
      rw [slotsFrom, if_neg (by omega)]
      simp only [hr, rest]
    obtain ⟨most, more⟩ : ∃ n, length + Header.byteCount = n + 1 := ⟨_, rfl⟩
    rw [from_, more, one]
    simp
    omega

end TypedHeap.Heap
