import TypedHeap.Guard.Basic
import TypedHeap.Heap.Overlay

/-! # Raw access

Reads and writes of bytes wherever they lie. Those of headers are reached like all others.
-/

namespace TypedHeap.Guard

/-- Change the `length` bytes from `start` on, the memory being given with their present values. -/
def changeBytes (g : Guard) (start length : Nat) (change : Memory → Memory) : Guard :=
  let memory := change (g.heap.expose g.memory start length)
  { g with memory, heap := g.heap.absorb memory start length }

def setBytes (g : Guard) (start length : Nat) (value : UInt8) : Guard :=
  g.changeBytes start length (·.set start length value)

def writeBytes (g : Guard) (start : Nat) (values : List UInt8) : Guard :=
  g.changeBytes start values.length (·.write start values)

def copyBytes (g : Guard) (target source length : Nat) : Guard :=
  g.changeBytes target length fun m =>
    (g.heap.expose m source length).move target source length

def clear (g : Guard) (start length : Nat) (wanted : Bool) : Guard :=
  if wanted then g.setBytes start length 0 else g

def runs (g : Guard) (start length : Nat) : List Run :=
  (g.heap.expose g.memory start length).runs start length

/-! ## Headers at any address

An address can be put back into a region that is not the base of a slot. When it is handed out
again, its header lies among the bytes of other objects. That of a slot which is shorter than a
header lies among those of the slots around it.
-/

def header? (g : Guard) (region base : Nat) : Option Header :=
  if g.heap.hasHeader base then g.heap.header? region base
  else
    ((g.heap.region? region).filter (·.readable base)).map fun _ =>
      .ofBytes ((g.heap.expose g.memory base Header.byteCount).bytes base Header.byteCount)

def writeHeader (g : Guard) (base : Nat) (header : Header) : Guard :=
  if g.heap.hasHeader base then g.setHeader base header else g.writeBytes base header.bytes

def putHeader (g : Guard) (base : Nat) (header : Header) : Guard :=
  { g with heap := g.heap.forgetTags header }.writeHeader base header

theorem putHeader_of_hasHeader {g : Guard} {base : Nat} (hh : g.heap.hasHeader base = true)
    (header : Header) : g.putHeader base header = g.renew base header := by
  have : (g.heap.forgetTags header).hasHeader base = true := hh
  simp [putHeader, writeHeader, this, setHeader, renew, Heap.renew]

/-- Without a header in its range, a change is one of the memory alone. -/
theorem changeBytes_of_headersAmong_eq_nil {g : Guard} {start length : Nat}
    (hn : g.heap.headersAmong start length = []) (change : Memory → Memory) :
    g.changeBytes start length change = { g with memory := change g.memory } := by
  simp [changeBytes, Heap.expose_of_headersAmong_eq_nil hn,
    Heap.absorb_of_headersAmong_eq_nil hn]

end TypedHeap.Guard
