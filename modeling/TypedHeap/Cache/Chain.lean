import TypedHeap.Cache.Tag

/-! # Cache chains

The tags of one slot, in lines of 14 that are added on demand. Tag `i` of line `j` is for the
bytes of granule `14 * j + i` of one element of the slot's type.
-/

namespace TypedHeap.Cache

def granuleSize : Nat := 8

def tagsPerLine : Nat := 14

/-- The most lines of a chain. Granules behind them are never remembered. -/
def mostLines : Nat := 64

def granuleOf (offset : Nat) : Nat := offset / granuleSize

abbrev Line := List Tag

def freshLine : Line := List.replicate tagsPerLine .unknown

structure Chain where
  lines : List Line
  deriving DecidableEq, Inhabited

namespace Chain

def empty : Chain := ⟨[]⟩

def split? (granule : Nat) : Option (Nat × Nat) :=
  let line := granule / tagsPerLine
  if line < mostLines then some (line, granule % tagsPerLine) else none

def load (c : Chain) (granule : Nat) : Tag :=
  match split? granule with
  | none => .unknown
  | some (line, place) => ((c.lines[line]?).bind (·[place]?)).getD .unknown

def storeAt (tag : Tag) (place : Nat) : Nat → List Line → List Line
  | 0, [] => [freshLine.set place tag]
  | 0, l :: ls => l.set place tag :: ls
  | line + 1, [] => freshLine :: storeAt tag place line []
  | line + 1, l :: ls => l :: storeAt tag place line ls

def store (c : Chain) (granule : Nat) (tag : Tag) : Chain :=
  match split? granule with
  | none => c
  | some (line, place) => ⟨storeAt tag place line c.lines⟩

def reset (c : Chain) : Chain := ⟨c.lines.map fun l => l.map fun _ => .unknown⟩

def release (_ : Chain) : Chain := empty

def length (c : Chain) : Nat := c.lines.length

/-- The bytes of an element that chains have tags for. -/
def span : Nat := mostLines * tagsPerLine * granuleSize

theorem load_empty (granule : Nat) : empty.load granule = .unknown := by
  unfold load
  cases split? granule with
  | none => rfl
  | some place => rfl

theorem split?_isSome_iff (offset : Nat) :
    (split? (granuleOf offset)).isSome = true ↔ offset < span := by
  have hspan : span = 64 * (14 * 8) := rfl
  simp only [split?, granuleOf, Nat.div_div_eq_div_mul, granuleSize, tagsPerLine, mostLines]
  split
  · simp only [Option.isSome_some, true_iff]
    omega
  · simp only [Option.isSome_none, Bool.false_eq_true, false_iff]
    omega

/-! ## Chains of full lines -/

def Full (c : Chain) : Prop := ∀ l ∈ c.lines, l.length = tagsPerLine

theorem full_empty : empty.Full := nofun

theorem full_reset {c : Chain} (hc : c.Full) : c.reset.Full := by
  intro l hl
  obtain ⟨l', hl', rfl⟩ := List.mem_map.mp hl
  rw [List.length_map, hc l' hl']

theorem length_of_mem_storeAt {tag : Tag} {place line : Nat} {lines : List Line}
    (hlines : ∀ l ∈ lines, l.length = tagsPerLine) :
    ∀ l ∈ storeAt tag place line lines, l.length = tagsPerLine := by
  have hfresh : freshLine.length = tagsPerLine := List.length_replicate
  induction line generalizing lines with
  | zero =>
      cases lines with
      | nil => simpa [storeAt] using hfresh
      | cons first rest => simpa [storeAt] using hlines
  | succ line ih =>
      cases lines with
      | nil => exact List.forall_mem_cons.mpr ⟨hfresh, ih nofun⟩
      | cons first rest =>
          obtain ⟨hfirst, hrest⟩ := List.forall_mem_cons.mp hlines
          exact List.forall_mem_cons.mpr ⟨hfirst, ih hrest⟩

theorem full_store {c : Chain} (hc : c.Full) (granule : Nat) (tag : Tag) :
    (c.store granule tag).Full := by
  unfold store
  split
  · exact hc
  · exact length_of_mem_storeAt hc

theorem getElem?_storeAt_self {tag : Tag} {place line : Nat} {lines : List Line}
    (hlines : ∀ l ∈ lines, l.length = tagsPerLine) (hplace : place < tagsPerLine) :
    ((storeAt tag place line lines)[line]?).bind (·[place]?) = some tag := by
  induction line generalizing lines with
  | zero =>
      cases lines with
      | nil => simp [storeAt, freshLine, hplace]
      | cons first rest => simp [storeAt, hlines first List.mem_cons_self, hplace]
  | succ line ih =>
      cases lines with
      | nil => exact ih nofun
      | cons first rest => exact ih (List.forall_mem_cons.mp hlines).2

theorem load_store_self {c : Chain} (hc : c.Full) {granule : Nat}
    (hspan : (split? granule).isSome = true) (tag : Tag) :
    (c.store granule tag).load granule = tag := by
  obtain ⟨⟨line, place⟩, hsplit⟩ := Option.isSome_iff_exists.mp hspan
  have hplace : place < tagsPerLine := by
    simp only [split?] at hsplit
    split at hsplit
    · obtain ⟨_, rfl⟩ := Prod.mk.inj (Option.some.inj hsplit)
      exact Nat.mod_lt _ (by decide)
    · cases hsplit
  simp only [load, store, hsplit, getElem?_storeAt_self hc hplace, Option.getD_some]

end Chain

end TypedHeap.Cache
