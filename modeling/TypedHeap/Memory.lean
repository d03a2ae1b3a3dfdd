import TypedHeap.Memory.Extent

/-! # Memory

Every address has a byte, at first zero. A write changes the bytes of its range and no others; a
copy takes the bytes as they were before it, so its two ranges may overlap.
-/

namespace TypedHeap

/-- The bytes of the addresses below the span of an extent; all others are zero. -/
structure Memory where
  height : Nat
  root : Extent height

namespace Memory

def blank : Memory := ⟨0, .even 0⟩

instance : Inhabited Memory := ⟨blank⟩

def byte (m : Memory) (address : Nat) : UInt8 :=
  if address < Extent.span m.height then m.root.byte address else 0

def raise : Nat → Memory → Memory
  | 0, m => m
  | n + 1, m => raise n ⟨m.height + 1, m.root.join (.even 0)⟩

def reaching (m : Memory) (limit : Nat) : Memory :=
  if limit ≤ Extent.span m.height then m else m.raise (limit.log2 + 1 - m.height)

def slice (m : Memory) (start length : Nat) : ByteArray :=
  (m.reaching (start + length)).root.slice start length .empty

def bytes (m : Memory) (start length : Nat) : List UInt8 :=
  let slice := m.slice start length
  List.ofFn fun i : Fin slice.size => slice[i]

/-- The `length` bytes from `start` on as runs, neighbours of different values. -/
def runs (m : Memory) (start length : Nat) : List Run :=
  (m.reaching (start + length)).root.runs start length []

def isEven (m : Memory) (start length : Nat) : Bool :=
  start + length ≤ Extent.span m.height && m.root.isFilled (m.byte start) start length

def overwrite (m : Memory) (ink : Ink) (start : Nat) : Memory :=
  let m := m.reaching (start + ink.length)
  { m with root := m.root.overwrite ink 0 start ink.length }

def set (m : Memory) (start length : Nat) (value : UInt8) : Memory :=
  m.overwrite (.constant length value) start

def write (m : Memory) (start : Nat) (values : List UInt8) : Memory :=
  m.overwrite (.ofLists (lists_toByteArray values)) start

def covers (start length address : Nat) : Bool := start ≤ address && address < start + length

/-! ## What the operations do to each byte -/

theorem byte_blank (address : Nat) : blank.byte address = 0 := by
  simp [byte, blank, Extent.byte]

theorem byte_raise (n : Nat) (m : Memory) (address : Nat) :
    (m.raise n).byte address = m.byte address := by
  induction n generalizing m with
  | zero => rfl
  | succ n ih =>
      rw [raise, ih]
      simp only [byte, Extent.byte_join, Extent.span_succ]
      by_cases low : address < Extent.span m.height
      · rw [if_pos (by omega), if_pos low, if_pos low]
      · rw [if_neg low, if_neg low]
        split <;> rfl

theorem byte_reaching (m : Memory) (limit address : Nat) :
    (m.reaching limit).byte address = m.byte address := by
  unfold reaching
  split
  · rfl
  · exact byte_raise _ m address

theorem height_raise (n : Nat) (m : Memory) : (m.raise n).height = m.height + n := by
  induction n generalizing m with
  | zero => rfl
  | succ n ih =>
      rw [raise, ih]
      exact Nat.succ_add_eq_add_succ ..

theorem le_span_reaching (m : Memory) (limit : Nat) :
    limit ≤ Extent.span (m.reaching limit).height := by
  unfold reaching
  split
  · assumption
  · rw [Extent.span_eq, height_raise]
    have below : limit < 2 ^ (limit.log2 + 1) := Nat.lt_log2_self
    have raised : 2 ^ (limit.log2 + 1) ≤ 2 ^ (m.height + (limit.log2 + 1 - m.height)) :=
      Nat.pow_le_pow_right (by decide) (by omega)
    have tiles : 1 ≤ tileSize := by decide
    exact Nat.le_trans (Nat.le_of_lt (Nat.lt_of_lt_of_le below raised)) (Nat.le_mul_of_pos_left _ tiles)

theorem byte_overwrite (m : Memory) (ink : Ink) (start address : Nat) :
    (m.overwrite ink start).byte address =
      if covers start ink.length address then ink.value (address - start) else m.byte address := by
  have high := m.le_span_reaching (start + ink.length)
  rw [← m.byte_reaching (start + ink.length) address]
  unfold overwrite
  generalize m.reaching (start + ink.length) = m at high ⊢
  simp only [byte, covers, Bool.and_eq_true, decide_eq_true_eq]
  by_cases low : address < Extent.span m.height
  · rw [if_pos low, if_pos low, Extent.byte_overwrite _ _ (by omega) (by omega) low, Nat.zero_add]
  · rw [if_neg low, if_neg low, if_neg (by omega)]

theorem byte_set (m : Memory) (start length : Nat) (value : UInt8) (a : Nat) :
    (m.set start length value).byte a = if covers start length a then value else m.byte a :=
  byte_overwrite ..

theorem byte_write (m : Memory) (start : Nat) (values : List UInt8) (a : Nat) :
    (m.write start values).byte a =
      if covers start values.length a then values.getD (a - start) 0 else m.byte a :=
  byte_overwrite ..

theorem byte_of_isEven {m : Memory} {start length : Nat} (h : m.isEven start length = true) {i : Nat}
    (hi : i < length) : m.byte (start + i) = m.byte start := by
  simp only [isEven, Bool.and_eq_true, decide_eq_true_eq] at h
  rw [byte, if_pos (by omega)]
  exact Extent.byte_of_isFilled h.2 (by omega) hi

/-! ## Ranges -/

theorem lists_slice (m : Memory) (start length : Nat) :
    Lists (m.slice start length) length fun i => m.byte (start + i) := by
  have high := m.le_span_reaching (start + length)
  have empty : Lists .empty 0 fun _ => 0 := ⟨rfl, nofun⟩
  have all := (m.reaching (start + length)).root.lists_slice start length (fun _ => high) empty
  rw [Nat.zero_add] at all
  refine all.congr fun i hi => ?_
  rw [if_neg (Nat.not_lt_zero i), ← m.byte_reaching (start + length), byte, if_pos (by omega)]
  rfl

def taken (m : Memory) (source length : Nat) : Ink where
  length
  value i := m.byte (source + i)
  slice start n := m.slice (source + start) n
  isEven start n := m.isEven (source + start) n
  lists_slice {start n} _ := by
    simpa only [Nat.add_assoc] using m.lists_slice (source + start) n
  value_of_isEven h i hi := by rw [← Nat.add_assoc]; exact byte_of_isEven h hi

def move (m : Memory) (target source length : Nat) : Memory :=
  m.overwrite ((m.reaching (source + length)).taken source length) target

theorem byte_move (m : Memory) (target source length a : Nat) :
    (m.move target source length).byte a =
      if covers target length a then m.byte (source + (a - target)) else m.byte a := by
  simp only [move, byte_overwrite, taken, byte_reaching]

end Memory

end TypedHeap
