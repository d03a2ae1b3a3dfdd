import TypedHeap.Memory.Bytes

/-! # Tiles

A tile holds a fixed number of consecutive bytes. Ranges of it are read and replaced as a whole, and
told by their runs of equal bytes.
-/

namespace TypedHeap

/-! ## Runs -/

structure Run where
  value : UInt8
  length : Nat
  deriving DecidableEq

def Run.join (r : Run) (rest : List Run) : List Run :=
  if r.length = 0 then rest
  else
    match rest with
    | next :: others =>
        if next.value = r.value then ⟨r.value, r.length + next.length⟩ :: others else r :: rest
    | [] => [r]

/-! ## Tiles -/

def tileSize : Nat := 4096

structure Tile where
  bytes : ByteArray
  size_bytes : bytes.size = tileSize

namespace Tile

def even (value : UInt8) : Tile :=
  ⟨repeated tileSize value, (lists_repeated tileSize value).size_eq⟩

def ofBytes (bytes : ByteArray) : Tile :=
  if h : bytes.size = tileSize then ⟨bytes, h⟩ else even 0

def byte (t : Tile) (i : Nat) : UInt8 := if h : i < t.bytes.size then t.bytes[i] else 0

def splice (t : Tile) (start : Nat) (values : ByteArray) : Tile :=
  ofBytes (t.bytes.extract 0 start ++ values ++ t.bytes.extract (start + values.size) tileSize)

theorem lists_bytes (t : Tile) : Lists t.bytes tileSize t.byte where
  size_eq := t.size_bytes
  getElem_eq _ h := (dif_pos h).symm

theorem byte_eq {t : Tile} {f : Nat → UInt8} (h : Lists t.bytes tileSize f) {i : Nat}
    (hi : i < tileSize) : t.byte i = f i := by
  have hs : i < t.bytes.size := by rw [h.size_eq]; exact hi
  exact (dif_pos hs).trans (h.getElem_eq i hs)

theorem byte_even (value : UInt8) {i : Nat} (hi : i < tileSize) : (even value).byte i = value :=
  byte_eq (t := even value) (lists_repeated tileSize value) hi

theorem byte_ofBytes {bytes : ByteArray} {f : Nat → UInt8} (h : Lists bytes tileSize f) {i : Nat}
    (hi : i < tileSize) : (ofBytes bytes).byte i = f i := by
  rw [ofBytes, dif_pos h.size_eq]
  exact byte_eq (t := ⟨bytes, h.size_eq⟩) h hi

theorem byte_splice (t : Tile) {start n : Nat} {values : ByteArray} {f : Nat → UInt8}
    (h : Lists values n f) (fits : start + n ≤ tileSize) {i : Nat} (hi : i < tileSize) :
    (t.splice start values).byte i =
      if start ≤ i ∧ i < start + n then f (i - start) else t.byte i := by
  have front := t.lists_bytes.extract 0 (show start ≤ tileSize by omega)
  have back := t.lists_bytes.extract (start + n) (Nat.le_refl tileSize)
  have all := (front.append h).append back
  rw [show start - 0 + n + (tileSize - (start + n)) = tileSize by omega] at all
  rw [splice, h.size_eq, byte_ofBytes all hi]
  simp only [Nat.sub_zero, Nat.zero_add]
  by_cases low : i < start
  · rw [if_pos (by omega), if_pos low, if_neg (by omega)]
  · by_cases high : i < start + n
    · rw [if_pos high, if_neg low, if_pos (by omega)]
    · rw [if_neg high, if_neg (by omega)]
      congr 1
      omega

def isFilled (t : Tile) (value : UInt8) (start : Nat) : Nat → Bool
  | 0 => true
  | n + 1 => t.byte (start + n) == value && t.isFilled value start n

theorem byte_of_isFilled {t : Tile} {value : UInt8} {start n : Nat}
    (h : t.isFilled value start n = true) {i : Nat} (hi : i < n) : t.byte (start + i) = value := by
  induction n with
  | zero => omega
  | succ n ih =>
      simp only [isFilled, Bool.and_eq_true, beq_iff_eq] at h
      by_cases last : i = n
      · exact last ▸ h.1
      · exact ih h.2 (by omega)

/-- The runs of the `n` bytes from `start` on, in front of those that follow. -/
def runs (t : Tile) (start : Nat) : Nat → List Run → List Run
  | 0, rest => rest
  | n + 1, rest => t.runs start n (Run.join ⟨t.byte (start + n), 1⟩ rest)

end Tile

end TypedHeap
