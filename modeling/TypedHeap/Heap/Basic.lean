import Std.Data.TreeMap
import TypedHeap.Bounds
import TypedHeap.Cache.Chain
import TypedHeap.Config
import TypedHeap.Heap.Region

/-! # The heap

One aligned range of addresses cut into windows of equal size, one for each size class. The class
of an address is its distance from the start divided by the window size, and its slot follows by
one more division; no table is searched.
-/

namespace TypedHeap

/-- The slot in which an address lies. -/
structure Slot where
  region : Nat
  base : Nat
  size : Nat
  deriving DecidableEq

namespace Slot

def user (s : Slot) : Nat := s.base + headerSize

def finish (s : Slot) : Nat := s.base + s.size

def inHeader (s : Slot) (address : Nat) : Bool := address < s.user

def object (s : Slot) (size : Nat) : Bounds := ⟨s.user, s.user + size⟩

end Slot

structure Heap where
  range : Reservation
  shift : Nat
  classes : SizeClasses
  regions : List Region
  headers : Std.TreeMap Nat Header
  /-- The chains of tags, by the references of headers to them. -/
  chains : Std.TreeMap Nat Cache.Chain

inductive HeapError where
  | config (e : ConfigError)
  | reserve
  /-- There is no answer: the program stops. -/
  | fault (f : ArithmeticFault)
  deriving DecidableEq

def HeapError.message : HeapError → String
  | .config e => e.message
  | .reserve => "could not reserve the heap"
  | .fault f => f.message

namespace Heap

/-- A heap for a configuration, where the reserved span lies at `raw`. If the configuration asks
for random starts, region `i` leaves out its first `skips i` slots, modulo 16. -/
def create (config : Config) (raw : Nat) (skips : Nat → Nat) : Except HeapError Heap :=
  match config.validate with
  | .error e => .error (.config e)
  | .ok _ =>
      let classes := SizeClasses.forRegion config.regionSize
      let size := classes.length <<< config.regionShift
      match Reservation.reserve (fun _ => some raw) size config.regionSize with
      | .error (.fault f) => .error (.fault f)
      | .error _ => .error .reserve
      | .ok range =>
          let skip (i : Nat) := if config.aslr then skips i % Region.skipLimit else 0
          .ok {
            range
            shift := config.regionShift
            classes
            regions := classes.toList.map fun c =>
              Region.create range.start config.regionShift (skip c.index) c
            headers := {}
            chains := {} }

def start (h : Heap) : Nat := h.range.start

def contains (h : Heap) (address : Nat) : Bool := h.range.contains address

def region? (h : Heap) (index : Nat) : Option Region := h.regions[index]?

def mostObject (h : Heap) : Nat := h.classes.largestSize - headerSize

def classFor? (h : Heap) (size : Nat) : Option SizeClass := h.classes.select? (size + headerSize)

def resolve? (h : Heap) (address : Nat) : Option Slot :=
  if h.contains address then
    let index := (address - h.start) >>> h.shift
    (h.region? index).map fun r => ⟨index, r.baseOf address, r.size⟩
  else none

def isCarved (h : Heap) (s : Slot) : Bool :=
  (h.region? s.region).any fun r => r.first ≤ s.base && s.base < r.next

/-- Whether a slot starts at an address that is long enough for the bytes of its header. The slots
of the least classes are shorter, so that the headers of neighbours share bytes. -/
def hasHeader (h : Heap) (address : Nat) : Bool :=
  (h.resolve? address).any fun s => s.base = address && Header.byteCount ≤ s.size

/-- What the header of a slot holds, whether or not it can be read. -/
def headerAt (h : Heap) (base : Nat) : Header := h.headers.getD base .blank

def header? (h : Heap) (region base : Nat) : Option Header :=
  match h.region? region with
  | none => none
  | some r => if r.readable base then some (h.headerAt base) else none

def claimed? (h : Heap) (s : Slot) : Option Header :=
  (h.header? s.region s.base).filter fun header => !header.isBlank

def live? (h : Heap) (s : Slot) : Option Header :=
  (h.header? s.region s.base).filter Header.isLive

def setHeader (h : Heap) (base : Nat) (header : Header) : Heap :=
  { h with headers := h.headers.insert base header }

def chainOf (h : Heap) (header : Header) : Cache.Chain := h.chains.getD header.cache .empty

def forgetTags (h : Heap) (header : Header) : Heap :=
  { h with chains := h.chains.modify header.cache Cache.Chain.reset }

/-- Give the slot at `base` a header, and forget the tags that it leads to. -/
def renew (h : Heap) (base : Nat) (header : Header) : Heap :=
  (h.forgetTags header).setHeader base header

/-- Keep a tag for a granule of the slot at `base`, if it is one that can have a tag. The first
tag starts a chain. -/
def keepTag (h : Heap) (base granule : Nat) (tag : Cache.Tag) : Heap :=
  if (Cache.Chain.split? granule).isNone then h
  else
    let header := h.headerAt base
    let cache := if header.cache = 0 then Reference.chain h.chains.size else header.cache
    let chain := (h.chains.getD cache .empty).store granule tag
    { h with chains := h.chains.insert cache chain }.setHeader base { header with cache }

def take (h : Heap) (region : Nat) (refusal : Option String) : Region.Taken × Heap :=
  match h.region? region with
  | none => (.exhausted, h)
  | some r =>
      let (taken, r) := r.take refusal
      (taken, { h with regions := h.regions.set region r })

def putBack (h : Heap) (region base : Nat) : Heap :=
  { h with regions := h.regions.modify region (·.putBack base) }

def reclaimSize : Nat := 3 * pageSize

def reclaimed? (h : Heap) (region base : Nat) : Option (Nat × Nat) :=
  match h.region? region with
  | none => none
  | some r =>
      if reclaimSize ≤ r.size then some (base + headerSize, r.size - headerSize) else none

end Heap

end TypedHeap
