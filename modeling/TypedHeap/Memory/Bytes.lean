/-! # Arrays of bytes

Which bytes an array holds is said by a function from places to bytes. Parts and concatenations of
arrays hold the bytes of the functions that belong to them.
-/

namespace TypedHeap

/-- The array has `n` bytes, and `f` says which. -/
structure Lists (bytes : ByteArray) (n : Nat) (f : Nat → UInt8) : Prop where
  size_eq : bytes.size = n
  getElem_eq : ∀ i (h : i < bytes.size), bytes[i] = f i

namespace Lists

theorem congr {bytes : ByteArray} {n : Nat} {f g : Nat → UInt8} (h : Lists bytes n f)
    (same : ∀ i < n, f i = g i) : Lists bytes n g where
  size_eq := h.size_eq
  getElem_eq i hi := (h.getElem_eq i hi).trans (same i (h.size_eq ▸ hi))

theorem append {b c : ByteArray} {m n : Nat} {f g : Nat → UInt8} (hb : Lists b m f)
    (hc : Lists c n g) : Lists (b ++ c) (m + n) fun i => if i < m then f i else g (i - m) where
  size_eq := by rw [ByteArray.size_append, hb.size_eq, hc.size_eq]
  getElem_eq i hi := by
    rw [ByteArray.size_append, hb.size_eq, hc.size_eq] at hi
    by_cases low : i < m
    · rw [if_pos low, ByteArray.getElem_append_left (hb.size_eq ▸ low), hb.getElem_eq]
    · rw [if_neg low, ByteArray.getElem_append_right (by rw [hb.size_eq]; omega), hc.getElem_eq,
        hb.size_eq]

theorem extract {b : ByteArray} {n stop : Nat} {f : Nat → UInt8} (h : Lists b n f) (start : Nat)
    (hs : stop ≤ n) : Lists (b.extract start stop) (stop - start) fun i => f (start + i) where
  size_eq := by rw [ByteArray.size_extract, h.size_eq, Nat.min_eq_left hs]
  getElem_eq i hi := by rw [ByteArray.getElem_extract, h.getElem_eq]

theorem extract_add {b : ByteArray} {length start n : Nat} {f : Nat → UInt8}
    (h : Lists b length f) (hs : 0 < n → start + n ≤ length) :
    Lists (b.extract start (start + n)) n fun i => f (start + i) where
  size_eq := by rw [ByteArray.size_extract, h.size_eq]; omega
  getElem_eq i hi := by rw [ByteArray.getElem_extract, h.getElem_eq]

end Lists

def repeated (n : Nat) (value : UInt8) : ByteArray := ⟨Array.replicate n value⟩

theorem lists_repeated (n : Nat) (value : UInt8) : Lists (repeated n value) n fun _ => value where
  size_eq := by simp [repeated, ByteArray.size]
  getElem_eq i hi := by simp [repeated, ByteArray.getElem_eq_getElem_data]

theorem lists_toByteArray (values : List UInt8) :
    Lists values.toByteArray values.length fun i => values.getD i 0 where
  size_eq := by simp
  getElem_eq i hi := by
    have : i < values.length := by simpa using hi
    simp [this]

end TypedHeap
