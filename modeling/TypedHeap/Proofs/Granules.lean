import TypedHeap.Cache.Chain

/-! # What a chain remembers

A chain grows one line at a time, but nothing of that shows: it gives each granule of its span the tag
that was last put there since everything was forgotten. Its length is that of the furthest granule it
was ever asked to hold, whatever was forgotten since.
-/

namespace TypedHeap.Cache.Chain

def granuleLimit : Nat := mostLines * tagsPerLine

example : granuleLimit = 896 := rfl

inductive Step where
  | store (granule : Nat) (tag : Tag)
  | reset
  | release

def perform (c : Chain) : Step → Chain
  | .store granule tag => c.store granule tag
  | .reset => c.reset
  | .release => c.release

/-- The chain that was empty before the steps of `past`, the latest of which comes first. -/
def after : List Step → Chain
  | [] => empty
  | s :: past => (after past).perform s

/-- The tag last put at a granule, unless tags were forgotten since. -/
def lastStored? (granule : Nat) : List Step → Option Tag
  | [] => none
  | .store g tag :: past => if g = granule then some tag else lastStored? granule past
  | .reset :: _ => none
  | .release :: _ => none

/-- The granules that were stored since the lines were last given back. -/
def storedSinceRelease : List Step → List Nat
  | [] => []
  | .store g _ :: past => g :: storedSinceRelease past
  | .reset :: past => storedSinceRelease past
  | .release :: _ => []

/-- `n` lines are what the granules of `granules` need, those without a place left out. -/
structure Spans (granules : List Nat) (n : Nat) : Prop where
  covers : ∀ g ∈ granules, g < granuleLimit → g / tagsPerLine < n
  reached : n = 0 ∨ ∃ g ∈ granules, g < granuleLimit ∧ n = g / tagsPerLine + 1

/-- `c` is the map that the steps of `past` make, and no longer than they need. -/
structure Remembers (past : List Step) (c : Chain) : Prop where
  load_eq : ∀ g, c.load g =
    if g < granuleLimit then (lastStored? g past).getD .unknown else .unknown
  others_kept : ∀ g tag other, other ≠ g → (c.store g tag).load other = c.load other
  spans : Spans (storedSinceRelease past) c.length
  reset_length : c.reset.length = c.length
  length_le : c.length ≤ mostLines

/-! ## Places -/

theorem split?_of_lt {granule : Nat} (h : granule < granuleLimit) :
    split? granule = some (granule / tagsPerLine, granule % tagsPerLine) :=
  if_pos (Nat.div_lt_of_lt_mul (Nat.mul_comm mostLines _ ▸ h))

theorem split?_of_le {granule : Nat} (h : granuleLimit ≤ granule) : split? granule = none :=
  if_neg (Nat.not_lt.mpr ((Nat.le_div_iff_mul_le (by decide)).mpr h))

theorem split?_inj {g other : Nat} {place : Nat × Nat} (hg : split? g = some place)
    (hother : split? other = some place) : g = other := by
  simp only [split?, Option.ite_none_right_eq_some, Option.some.injEq] at hg hother
  obtain ⟨-, rfl⟩ := hg
  obtain ⟨hline, hplace⟩ := Prod.mk.inj hother.2
  rw [← Nat.div_add_mod g tagsPerLine, ← Nat.div_add_mod other tagsPerLine, hline, hplace]

theorem load_of_le (c : Chain) {granule : Nat} (h : granuleLimit ≤ granule) :
    c.load granule = .unknown := by
  rw [load, split?_of_le h]

theorem store_of_le (c : Chain) {granule : Nat} (h : granuleLimit ≤ granule) (tag : Tag) :
    c.store granule tag = c := by
  rw [store, split?_of_le h]

/-! ## One store, one reset -/

def tagAt (lines : List Line) (line place : Nat) : Tag :=
  ((lines[line]?).bind (·[place]?)).getD .unknown

theorem getElem?_freshLine (place : Nat) : (freshLine[place]?).getD .unknown = .unknown := by
  rw [freshLine, List.getElem?_replicate]
  split <;> rfl

theorem tagAt_storeAt_of_ne {tag : Tag} {place line : Nat} {lines : List Line} {line' place' : Nat}
    (hne : ¬(line' = line ∧ place' = place)) :
    tagAt (storeAt tag place line lines) line' place' = tagAt lines line' place' := by
  -- A line that is added reads as the missing line did, so the cases differ in the lines only.
  induction line generalizing lines line' with
  | zero =>
      cases line' with
      | zero =>
          have hplace : place ≠ place' := fun heq => hne ⟨rfl, heq.symm⟩
          cases lines with
          | nil => simpa [tagAt, storeAt, List.getElem?_set_ne hplace] using getElem?_freshLine place'
          | cons first rest => simp [tagAt, storeAt, List.getElem?_set_ne hplace]
      | succ line' => cases lines <;> rfl
  | succ line ih =>
      cases line' with
      | zero =>
          cases lines with
          | nil => simpa [tagAt, storeAt] using getElem?_freshLine place'
          | cons first rest => rfl
      | succ line' =>
          have hrest : ¬(line' = line ∧ place' = place) := fun heq => hne ⟨by rw [heq.1], heq.2⟩
          cases lines with
          | nil => exact ih hrest
          | cons first rest => exact ih hrest

theorem load_store_of_ne (c : Chain) {g other : Nat} (hne : other ≠ g) (tag : Tag) :
    (c.store g tag).load other = c.load other := by
  cases hother : split? other with
  | none => simp only [load, hother]
  | some place' =>
      cases hg : split? g with
      | none => simp only [store, hg]
      | some place =>
          simp only [load, store, hother, hg]
          refine tagAt_storeAt_of_ne fun heq => hne (split?_inj hother ?_)
          rw [hg, Prod.ext heq.1 heq.2]

theorem load_reset (c : Chain) (granule : Nat) : c.reset.load granule = .unknown := by
  cases hsplit : split? granule with
  | none => simp only [load, hsplit]
  | some place =>
      simp only [load, reset, hsplit, List.getElem?_map]
      cases c.lines[place.1]? with
      | none => rfl
      | some tags =>
          simp only [Option.map_some, Option.bind_some, List.getElem?_map]
          cases tags[place.2]? <;> rfl

theorem length_storeAt (tag : Tag) (place line : Nat) (lines : List Line) :
    (storeAt tag place line lines).length = max lines.length (line + 1) := by
  induction line generalizing lines with
  | zero => cases lines <;> simp [storeAt]
  | succ line ih => cases lines <;> simp [storeAt, ih]

theorem length_store (c : Chain) {granule : Nat} (h : granule < granuleLimit) (tag : Tag) :
    (c.store granule tag).length = max c.length (granule / tagsPerLine + 1) := by
  simp only [store, split?_of_lt h, length, length_storeAt]

theorem length_reset (c : Chain) : c.reset.length = c.length := List.length_map _

/-! ## Lengths that are needed -/

theorem spans_nil : Spans [] 0 := ⟨nofun, .inl rfl⟩

theorem Spans.of_le {granules : List Nat} {n : Nat} (h : Spans granules n) {g : Nat}
    (hg : granuleLimit ≤ g) : Spans (g :: granules) n where
  covers := List.forall_mem_cons.mpr ⟨fun hlt => absurd hlt (Nat.not_lt.mpr hg), h.covers⟩
  reached := h.reached.imp_right fun ⟨g', hg', hlast⟩ => ⟨g', .tail _ hg', hlast⟩

theorem Spans.of_lt {granules : List Nat} {n : Nat} (h : Spans granules n) {g : Nat}
    (hg : g < granuleLimit) : Spans (g :: granules) (max n (g / tagsPerLine + 1)) where
  covers := List.forall_mem_cons.mpr
    ⟨fun _ => Nat.lt_of_lt_of_le (Nat.lt_succ_self _) (Nat.le_max_right _ _),
      fun g' hg' hlt => Nat.lt_of_lt_of_le (h.covers g' hg' hlt) (Nat.le_max_left _ _)⟩
  reached := by
    rcases Nat.le_total n (g / tagsPerLine + 1) with hle | hle
    · exact .inr ⟨g, .head _, hg, Nat.max_eq_right hle⟩
    · rw [Nat.max_eq_left hle]
      exact h.reached.imp_right fun ⟨g', hg', hlast⟩ => ⟨g', .tail _ hg', hlast⟩

theorem Spans.le_mostLines {granules : List Nat} {n : Nat} (h : Spans granules n) :
    n ≤ mostLines := by
  rcases h.reached with rfl | ⟨g, -, hg, rfl⟩
  · exact Nat.zero_le _
  · exact Nat.div_lt_of_lt_mul (Nat.mul_comm mostLines _ ▸ hg)

/-! ## Runs -/

theorem full_after (past : List Step) : (after past).Full := by
  induction past with
  | nil => exact full_empty
  | cons s past ih =>
      cases s with
      | store g tag => exact full_store ih g tag
      | reset => exact full_reset ih
      | release => exact full_empty

theorem load_after (past : List Step) {g : Nat} (hg : g < granuleLimit) :
    (after past).load g = (lastStored? g past).getD .unknown := by
  induction past with
  | nil => exact load_empty g
  | cons s past ih =>
      cases s with
      | store g' tag =>
          by_cases heq : g' = g
          · subst heq
            have hsplit : (split? g').isSome = true := by rw [split?_of_lt hg, Option.isSome_some]
            rw [lastStored?, if_pos rfl]
            exact load_store_self (full_after past) hsplit tag
          · rw [lastStored?, if_neg heq, ← ih]
            exact load_store_of_ne _ (Ne.symm heq) tag
      | reset => exact load_reset _ g
      | release => exact load_empty g

theorem spans_after (past : List Step) : Spans (storedSinceRelease past) (after past).length := by
  induction past with
  | nil => exact spans_nil
  | cons s past ih =>
      cases s with
      | store g tag =>
          rcases Nat.lt_or_ge g granuleLimit with hg | hg
          · rw [after, perform, length_store _ hg]
            exact ih.of_lt hg
          · rw [after, perform, store_of_le _ hg]
            exact ih.of_le hg
      | reset =>
          rw [after, perform, length_reset]
          exact ih
      | release => exact spans_nil

example (tag : Tag) : (after [.reset, .store 71 tag, .store 3 tag]).length = 6 := rfl

/-- Whatever a chain went through, it is the map of the tags stored since they were last forgotten, a
store touches no other granule, and its lines are those that the granules stored since they were last
given back need. -/
theorem remembers_after (past : List Step) : Remembers past (after past) where
  load_eq g := by
    split
    case isTrue hg => exact load_after past hg
    case isFalse hg => exact load_of_le _ (Nat.not_lt.mp hg)
  others_kept _ tag _ hne := load_store_of_ne _ hne tag
  spans := spans_after past
  reset_length := length_reset _
  length_le := (spans_after past).le_mostLines

end TypedHeap.Cache.Chain
