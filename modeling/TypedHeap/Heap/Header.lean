import TypedHeap.Reference
import TypedHeap.Word

/-! # Slot headers

Every slot starts with a header of 48 bytes, and the object follows it. A header is six words.
Memory starts as zeros, so a header of zeros was never claimed.
-/

namespace TypedHeap

def headerSize : Nat := 48

inductive Phase where
  | unused
  | allocated
  | freed
  deriving DecidableEq, Inhabited

namespace Phase

def ofWord? : Nat → Option Phase
  | 0 => some unused
  | 1 => some allocated
  | 2 => some freed
  | _ => none

def word : Phase → Nat
  | unused => 0
  | allocated => 1
  | freed => 2

def name : Phase → String
  | unused => "Unused"
  | allocated => "Allocated"
  | freed => "Freed"

end Phase

/-- The number of the current allocation of a slot. It grows with every claim and resize, so a
pointer taken under another number is stale. -/
abbrev Epoch := Nat

def epochText (e : Epoch) : String := "e" ++ toString e

structure Header where
  stamp : Nat
  state : Nat
  /-- The reference to the type of the object. -/
  owner : Nat
  size : Nat
  epoch : Epoch
  /-- The reference to the chain with the tags of the slot, zero as long as there is none. -/
  cache : Nat
  deriving DecidableEq, Inhabited

namespace Header

def validStamp : Nat := 0x4FEBF99B

def blank : Header := ⟨0, 0, 0, 0, 0, 0⟩

def isSane (h : Header) : Bool := h.stamp = validStamp

def phase (h : Header) : Option Phase := Phase.ofWord? h.state

def isBlank (h : Header) : Bool := h.state = Phase.unused.word

def isAllocated (h : Header) : Bool := h.state = Phase.allocated.word

def isLive (h : Header) : Bool := h.isSane && h.isAllocated

def nextEpoch (h : Header) : Checked Epoch := Word.add? h.epoch 1

def claim (h : Header) (owner size : Nat) (epoch : Epoch) : Header :=
  ⟨validStamp, Phase.allocated.word, owner, size, epoch, h.cache⟩

/-- End the allocation of the slot, or say which phase it was found in. -/
def release (h : Header) : Except (Option Phase) Header :=
  if h.isAllocated then .ok { h with state := Phase.freed.word } else .error h.phase

/-- End it in one step that nothing can come between: the state word is exchanged if it is that of a
slot in use. -/
def releaseAtOnce (h : Header) : Except (Option Phase) Header :=
  match Word.exchange h.state Phase.allocated.word Phase.freed.word with
  | .ok state => .ok { h with state }
  | .error found => .error (Phase.ofWord? found)

def releaseBy (h : Header) (alone : Bool) : Except (Option Phase) Header :=
  if alone then h.release else h.releaseAtOnce

def retire (h : Header) : Header := { h with owner := Reference.freeMemory }

/-- Give the object another size. Older pointers to it become stale. The epoch is counted up in one
step, which wraps. -/
def resize (h : Header) (size : Nat) : Header := { h with size, epoch := Word.wrap (h.epoch + 1) }

theorem isLive_claim (h : Header) (owner size : Nat) (epoch : Epoch) :
    (h.claim owner size epoch).isLive = true := by
  simp [claim, isLive, isSane, isAllocated]

theorem release_of_isAllocated {h : Header} (ha : h.isAllocated = true) :
    h.release = .ok { h with state := Phase.freed.word } := if_pos ha

/-- The one step ends an allocation as the two do. -/
theorem releaseAtOnce_eq (h : Header) : h.releaseAtOnce = h.release := by
  unfold releaseAtOnce release Word.exchange
  by_cases ha : h.isAllocated = true
  · rw [if_pos ha, if_pos (of_decide_eq_true ha)]
  · rw [if_neg ha, if_neg fun heq => ha (decide_eq_true heq)]
    rfl

theorem releaseBy_eq (h : Header) (alone : Bool) : h.releaseBy alone = h.release := by
  cases alone with
  | true => rfl
  | false => exact h.releaseAtOnce_eq

def clobber (h : Header) (stamp : Nat) : Header := { h with stamp }

/-! ## Headers as bytes -/

def words (h : Header) : List (Nat × Nat) :=
  [(4, h.stamp), (4, h.state), (8, h.owner), (8, h.size), (8, h.epoch), (8, h.cache)]

/-- The bytes that a header takes up of the `headerSize` bytes in front of an object. -/
def byteCount : Nat := 40

def bytes (h : Header) : List UInt8 := h.words.flatMap fun w => Word.littleEndian w.1 w.2

def ofBytes (bs : List UInt8) : Header :=
  let word (start width : Nat) : Nat := Word.ofLittleEndian ((bs.drop start).take width)
  ⟨word 0 4, word 4 4, word 8 8, word 16 8, word 24 8, word 32 8⟩

theorem length_bytes (h : Header) : h.bytes.length = byteCount := by
  simp [bytes, words, Word.length_littleEndian, byteCount]

def Fits (h : Header) : Prop := ∀ w ∈ h.words, w.2 < 256 ^ w.1

/-- A header whose fields fit is read back from its bytes. -/
theorem ofBytes_bytes {h : Header} (fits : h.Fits) : ofBytes h.bytes = h := by
  obtain ⟨stamp, state, owner, size, epoch, cache⟩ := h
  simp only [Fits, words, List.mem_cons, List.not_mem_nil, or_false, forall_eq_or_imp,
    forall_eq] at fits
  obtain ⟨h0, h1, h2, h3, h4, h5⟩ := fits
  have word {width n : Nat} (hn : n < 256 ^ width) :
      Word.ofLittleEndian (Word.littleEndian width n) = n := by
    rw [Word.ofLittleEndian_littleEndian, Nat.mod_eq_of_lt hn]
  simp [ofBytes, bytes, words, List.drop_append, List.take_of_length_le,
    List.drop_eq_nil_of_le, word h0, word h1, word h2, word h3, word h4, word h5]

end Header

end TypedHeap
