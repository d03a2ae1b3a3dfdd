import TypedHeap.Memory.Tile
import TypedHeap.Word

/-! # Extents

An extent of height `h` holds the bytes of `2 ^ h` neighbouring tiles, found by their places in it.
They are all equal, or the extent is a tile or has two halves, so long ranges of equal bytes take
no room. A range of `n` places that starts in the lower half leaves it after `span h - start`
places; the rest of it lies in the upper half.
-/

namespace TypedHeap

structure Ink where
  length : Nat
  value : Nat → UInt8
  /-- The `n` bytes from a place on. -/
  slice : Nat → Nat → ByteArray
  /-- A test of the `n` bytes from a place on that only equal ones pass. -/
  isEven : Nat → Nat → Bool
  lists_slice : ∀ {start n : Nat}, start + n ≤ length →
    Lists (slice start n) n fun i => value (start + i)
  value_of_isEven : ∀ {start n : Nat}, isEven start n = true →
    ∀ i < n, value (start + i) = value start

namespace Ink

def constant (length : Nat) (value : UInt8) : Ink where
  length
  value _ := value
  slice _ n := repeated n value
  isEven _ _ := true
  lists_slice _ := lists_repeated _ value
  value_of_isEven _ _ _ := rfl

def ofLists {bytes : ByteArray} {n : Nat} {f : Nat → UInt8} (h : Lists bytes n f) : Ink where
  length := n
  value := f
  slice start n := bytes.extract start (start + n)
  isEven _ _ := false
  lists_slice fits := h.extract_add fun _ => fits
  value_of_isEven := nofun

end Ink

inductive Extent : Nat → Type where
  | even {h : Nat} (value : UInt8) : Extent h
  | tile (t : Tile) : Extent 0
  | halves {h : Nat} (lower upper : Extent h) : Extent (h + 1)

namespace Extent

instance {h : Nat} : Inhabited (Extent h) := ⟨even 0⟩

def span (height : Nat) : Nat := tileSize <<< height

theorem span_eq (height : Nat) : span height = tileSize * 2 ^ height := Nat.shiftLeft_eq ..

theorem span_succ (height : Nat) : span (height + 1) = span height + span height := by
  rw [span_eq, span_eq, Nat.pow_succ, ← Nat.mul_assoc, Nat.mul_two]

def byte : {h : Nat} → Extent h → Nat → UInt8
  | _, even value, _ => value
  | _, tile t, i => t.byte i
  | h + 1, halves lower upper, i =>
      if i < span h then lower.byte i else upper.byte (i - span h)

def toTile : Extent 0 → Tile
  | even value => .even value
  | tile t => t

def lower {h : Nat} : Extent (h + 1) → Extent h
  | even value => even value
  | halves lower _ => lower

def upper {h : Nat} : Extent (h + 1) → Extent h
  | even value => even value
  | halves _ upper => upper

def join {h : Nat} : Extent h → Extent h → Extent (h + 1)
  | even v, even w => if v = w then even v else halves (even v) (even w)
  | lower, upper => halves lower upper

/-- Write the `n` bytes of `ink` behind the first `k` to the places from `start` on. -/
def overwrite (ink : Ink) : {h : Nat} → Extent h → Nat → Nat → Nat → Extent h
  | h, e, k, start, n =>
      if n = 0 then e
      else if start = 0 && n = span h && ink.isEven k n then even (ink.value k)
      else
        match h with
        | 0 => tile (e.toTile.splice start (ink.slice k n))
        | h + 1 =>
            let below := min n (span h - start)
            join (overwrite ink e.lower k start below)
              (overwrite ink e.upper (k + below) (start - span h) (n - below))

def slice : {h : Nat} → Extent h → Nat → Nat → ByteArray → ByteArray
  | _, even value, _, n, before => before ++ repeated n value
  | _, tile t, start, n, before => before ++ t.bytes.extract start (start + n)
  | h + 1, halves lower upper, start, n, before =>
      if n = 0 then before
      else
        let below := min n (span h - start)
        upper.slice (start - span h) (n - below) (lower.slice start below before)

def isFilled (value : UInt8) : {h : Nat} → Extent h → Nat → Nat → Bool
  | _, even v, _, n => n = 0 || v = value
  | _, tile t, start, n => t.isFilled value start n
  | h + 1, halves lower upper, start, n =>
      if n = 0 then true
      else
        let below := min n (span h - start)
        lower.isFilled value start below && upper.isFilled value (start - span h) (n - below)

def runs : {h : Nat} → Extent h → Nat → Nat → List Run → List Run
  | _, even value, _, n, rest => Run.join ⟨value, n⟩ rest
  | _, tile t, start, n, rest => t.runs start n rest
  | h + 1, halves lower upper, start, n, rest =>
      if n = 0 then rest
      else
        let below := min n (span h - start)
        lower.runs start below (upper.runs (start - span h) (n - below) rest)

theorem byte_toTile (e : Extent 0) {i : Nat} (hi : i < tileSize) : e.toTile.byte i = e.byte i := by
  cases e with
  | even v => exact Tile.byte_even v hi
  | tile t => rfl

theorem byte_lower {h : Nat} (e : Extent (h + 1)) {i : Nat} (hi : i < span h) :
    e.lower.byte i = e.byte i := by
  cases e with
  | even v => rfl
  | halves l u => simp [lower, byte, hi]

theorem byte_upper {h : Nat} (e : Extent (h + 1)) {i : Nat} (hi : span h ≤ i) :
    e.upper.byte (i - span h) = e.byte i := by
  cases e with
  | even v => rfl
  | halves l u => simp [upper, byte, Nat.not_lt.mpr hi]

theorem byte_join {h : Nat} (l u : Extent h) (i : Nat) :
    (join l u).byte i = if i < span h then l.byte i else u.byte (i - span h) := by
  unfold join
  split
  · split
    · next same => simp [byte, same]
    · rfl
  · rfl

/-- Writing changes the places written to and no others. -/
theorem byte_overwrite (ink : Ink) {h : Nat} (e : Extent h) {k start n : Nat}
    (enough : k + n ≤ ink.length) (fits : 0 < n → start + n ≤ span h) {i : Nat} (hi : i < span h) :
    (overwrite ink e k start n).byte i =
      if start ≤ i ∧ i < start + n then ink.value (k + (i - start)) else e.byte i := by
  induction h generalizing k start n i with
  | zero =>
      rw [overwrite]
      split
      · rw [if_neg (by omega)]
      · split
        · next whole =>
            simp only [Bool.and_eq_true, decide_eq_true_eq] at whole
            rw [if_pos (by omega), byte, ink.value_of_isEven whole.2 _ (by omega)]
        · rw [byte, Tile.byte_splice _ (ink.lists_slice enough) (fits (by omega)) hi,
            byte_toTile e hi]
  | succ h ih =>
      rw [overwrite]
      split
      · rw [if_neg (by omega)]
      · split
        · next whole =>
            simp only [Bool.and_eq_true, decide_eq_true_eq, Nat.succ_eq_add_one] at whole
            rw [if_pos (by omega), byte, ink.value_of_isEven whole.2 _ (by omega)]
        · rw [span_succ] at fits hi
          simp only [byte_join]
          split
          · next low =>
              rw [ih _ (by omega) (by omega) low, byte_lower e low]
              split <;> split <;> first | rfl | omega
          · next high =>
              rw [ih _ (by omega) (by omega) (by omega), byte_upper e (by omega)]
              split <;> split <;> first | rfl | omega | (congr 1; omega)

theorem byte_of_isFilled {value : UInt8} {h : Nat} {e : Extent h} {start n : Nat}
    (hf : e.isFilled value start n = true) (fits : 0 < n → start + n ≤ span h) {i : Nat}
    (hi : i < n) : e.byte (start + i) = value := by
  induction e generalizing start n i with
  | even v =>
      simp only [isFilled, Bool.or_eq_true, decide_eq_true_eq] at hf
      exact hf.resolve_left (by omega)
  | tile t => exact Tile.byte_of_isFilled hf hi
  | @halves h l u ihl ihu =>
      rw [span_succ] at fits
      rw [isFilled, if_neg (by omega), Bool.and_eq_true] at hf
      rw [byte]
      split
      · exact ihl hf.1 (by omega) (by omega)
      · have := ihu hf.2 (by omega) (i := i - (span h - start)) (by omega)
        rwa [show start - span h + (i - (span h - start)) = start + i - span h by omega] at this

theorem lists_slice {h : Nat} (e : Extent h) (start n : Nat) (fits : 0 < n → start + n ≤ span h)
    {before : ByteArray} {m : Nat} {f : Nat → UInt8} (hb : Lists before m f) :
    Lists (e.slice start n before) (m + n) fun i =>
      if i < m then f i else e.byte (start + (i - m)) := by
  induction e generalizing start n m before f with
  | even v => exact hb.append (lists_repeated n v)
  | tile t => exact hb.append (t.lists_bytes.extract_add fits)
  | @halves h l u ihl ihu =>
      rw [span_succ] at fits
      rw [slice]
      split
      · next none =>
          subst none
          exact hb.congr fun i hi => (if_pos hi).symm
      · have low := ihl start (min n (span h - start)) (by omega) hb
        have all := ihu (start - span h) (n - min n (span h - start)) (by omega) low
        rw [show m + min n (span h - start) + (n - min n (span h - start)) = m + n by omega] at all
        refine all.congr fun i hi => ?_
        simp only [byte]
        split
        · next below =>
            split
            · rfl
            · rw [if_pos (by omega)]
        · next above =>
            rw [if_neg (by omega), if_neg (by omega)]
            congr 1
            omega

end Extent

end TypedHeap
