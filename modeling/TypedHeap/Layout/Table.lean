import TypedHeap.Layout.Entry
import TypedHeap.Word

/-! # Layout tables

A layout table is an open-addressed hash table of entries. An entry stands in one of the
`probeLimit` places that start at its key, and so does the search for it.
-/

namespace TypedHeap.Layout

def probeLimit : Nat := 8

def mostBits : Nat := 20

def probeKey (seed expected : TypeHash) (offset : UInt64) : UInt64 :=
  TypeHash.mix (seed.word ^^^ (expected.word <<< 29 ||| expected.word >>> 35) ^^^
    offset * 0x9E3779B97F4A7C15)

def probes (key : UInt64) (capacity : Nat) : List Nat :=
  (List.range probeLimit).map fun i => (key.toNat + i) % capacity

inductive Lookup where
  | hit (slot : Nat) (entry : Entry)
  /-- The search met a free place. -/
  | miss
  /-- All places held other entries. -/
  | probeLimit
  deriving DecidableEq

structure Table where
  seed : TypeHash
  slots : Array Entry

namespace Table

def capacity (t : Table) : Nat := t.slots.size

/-- The places in which an object of type `hash` at `offset` may stand. -/
def probesFor (seed hash : TypeHash) (offset capacity : Nat) : List Nat :=
  probes (probeKey seed hash offset.toUInt64) capacity

def at? (slots : Array Entry) (slot : Nat) : Entry := slots.getD slot .empty

/-- Put an entry into the first free one of its places. -/
def place? (seed : TypeHash) (slots : Array Entry) (e : Entry) : Option (Array Entry) :=
  ((probesFor seed e.hash e.offset slots.size).find? fun slot => (at? slots slot).isEmpty).map
    fun slot => slots.setIfInBounds slot e

def fill? (seed : TypeHash) (entries : List Entry) (bits : Nat) : Option Table :=
  (entries.foldlM (place? seed) (Array.replicate (2 ^ bits) Entry.empty)).map (Table.mk seed)

/-- The smallest table, of at least twice as many places as entries, that can hold them. -/
def build? (seed : TypeHash) (entries : List Entry) : Option Table :=
  (List.range' 1 mostBits).findSome? fun bits =>
    if 2 * entries.length ≤ 2 ^ bits then fill? seed entries bits else none

def none (seed : TypeHash) : Table := ⟨seed, #[.empty]⟩

def search (slots : Array Entry) (expected : TypeHash) (offset : Nat) : List Nat → Lookup
  | [] => .probeLimit
  | slot :: others =>
      let e := at? slots slot
      if e.isFor expected offset then .hit slot e
      else if e.isEmpty then .miss
      else search slots expected offset others

def lookup (t : Table) (expected : TypeHash) (offset : Nat) : Lookup :=
  if expected = .nil then .miss
  else search t.slots expected offset (probesFor t.seed expected offset t.capacity)

def entry? (t : Table) (slot : Nat) : Option Entry :=
  t.slots[slot]?.filter (!·.isEmpty)

/-- All entries, in the order of their places. -/
def entries (t : Table) : List Entry := t.slots.toList.filter (!·.isEmpty)

end Table

end TypedHeap.Layout
