import TypedHeap.Proofs.Division
import TypedHeap.Proofs.Layouts

/-! # Folded offsets

An offset beyond the first object of an array comes down to one within it, and an offset into a
flexible array to one within the first element. The machine arithmetic does that exactly, unless the
offset lies in front of the array: a type may be declared with a flexible array that starts behind
its end, and the bytes between belong to no element.
-/

namespace TypedHeap

namespace TypeRecord

variable {r : TypeRecord} {offset : Nat}

/-- The offset lies behind the first object, and there are elements for it to lie in. -/
def Reduces (r : TypeRecord) (offset : Nat) : Prop := r.size ≤ offset ∧ r.elementSize ≠ 0

theorem fold_of_not_reduces (h : ¬ r.Reduces offset) : r.fold offset = .ok offset := by
  unfold Reduces at h
  exact if_pos (by omega)

theorem Reduces.div_eq (h : r.Reduces offset) (hoffset : offset < 2 ^ 31) :
    (Reciprocal.ofDivisor r.elementSize).div (offset - r.elementStart) =
      (offset - r.elementStart) / r.elementSize :=
  Reciprocal.div_ofDivisor_of_lt (Nat.pos_of_ne_zero h.2) (by omega)

theorem Reduces.fold_eq (h : r.Reduces offset) (hstart : r.elementStart ≤ offset)
    (hoffset : offset < 2 ^ 31) :
    r.fold offset = .ok (r.elementStart + (offset - r.elementStart) % r.elementSize) := by
  have hle := Nat.mod_le (offset - r.elementStart) r.elementSize
  have hword : offset < Word.limit := by
    unfold Word.limit
    omega
  have hrem := Reciprocal.rem_of_div (h.div_eq hoffset) (by omega)
  obtain ⟨hsize, hpos⟩ := h
  simp only [fold, if_neg (show ¬(offset < r.size ∨ r.elementSize = 0) by omega),
    Word.sub?_of_le hstart, hrem, bind, Except.bind]
  exact Word.add?_of_lt (by omega)

theorem Reduces.fold_of_lt (h : r.Reduces offset) (hlt : offset < r.elementStart) :
    r.fold offset = .error .subtraction := by
  obtain ⟨hsize, hpos⟩ := h
  simp only [fold, if_neg (show ¬(offset < r.size ∨ r.elementSize = 0) by omega), Word.sub?,
    if_neg (Nat.not_le.mpr hlt), bind, Except.bind]

/-- The offset comes down to `n`, as integer arithmetic has it: in the first element, no further than it
was, and for good. -/
structure FoldsTo (r : TypeRecord) (offset n : Nat) : Prop where
  fold_eq : r.fold offset = .ok n
  eq_self : ¬ r.Reduces offset → n = offset
  eq_mod : r.Reduces offset →
    (n : Int) = r.elementStart + ((offset : Int) - r.elementStart) % r.elementSize
  within : r.Reduces offset → r.elementStart ≤ n ∧ n < r.elementStart + r.elementSize
  le : n ≤ offset
  again : r.fold n = .ok n

/-- Neither difference on the way takes more off than is there, and the offset is folded. -/
structure FoldsExactly (r : TypeRecord) (offset : Nat) : Prop where
  start_le : r.Reduces offset → r.elementStart ≤ offset
  multiple_le : r.Reduces offset →
    (Reciprocal.ofDivisor r.elementSize).div (offset - r.elementStart) * r.elementSize ≤
      offset - r.elementStart
  folds : ∃ n, r.FoldsTo offset n

theorem fold_again (hstart : r.elementStart ≤ offset) (hoffset : offset < 2 ^ 31) :
    r.fold (r.elementStart + (offset - r.elementStart) % r.elementSize) =
      .ok (r.elementStart + (offset - r.elementStart) % r.elementSize) := by
  by_cases hagain : r.Reduces (r.elementStart + (offset - r.elementStart) % r.elementSize)
  · have hle := Nat.mod_le (offset - r.elementStart) r.elementSize
    rw [hagain.fold_eq (by omega) (by omega), Nat.add_sub_cancel_left, Nat.mod_mod]
  · exact fold_of_not_reduces hagain

/-- Folding is exact unless the offset is reduced although it lies in front of the elements. -/
theorem foldsExactly_iff_start_le (hoffset : offset < 2 ^ 31) :
    r.FoldsExactly offset ↔ (r.Reduces offset → r.elementStart ≤ offset) := by
  refine ⟨FoldsExactly.start_le, fun hstart => ?_⟩
  by_cases h : r.Reduces offset
  · have hle := Nat.mod_le (offset - r.elementStart) r.elementSize
    have hlt := Nat.mod_lt (offset - r.elementStart) (Nat.pos_of_ne_zero h.2)
    have hstart := hstart h
    refine ⟨fun _ => hstart, fun _ => ?_,
      r.elementStart + (offset - r.elementStart) % r.elementSize, ?_⟩
    · rw [h.div_eq hoffset]
      exact Nat.div_mul_le_self _ _
    · constructor
      case fold_eq => exact h.fold_eq hstart hoffset
      case eq_self => exact absurd h
      case eq_mod =>
        intro _
        push_cast [hstart]
        rfl
      case within => omega
      case le => omega
      case again => exact fold_again hstart hoffset
  · have hfold := fold_of_not_reduces h
    exact ⟨hstart, (absurd · h), offset, hfold, fun _ => rfl, (absurd · h), (absurd · h), Nat.le_refl _,
      hfold⟩

end TypeRecord

namespace Catalog

variable {c : Catalog} {registry : Registry} {record : TypeRecord} {hash : TypeHash}
  {d : Declaration} {f : Field}

/-- The type that the record is of ends in the flexible array `f`. -/
def HasFlexible (c : Catalog) (record : TypeRecord) (f : Field) : Prop :=
  ∃ t d, c.Knows t ∧ Describes t record ∧ t.declaration = some d ∧ d.flexible = some f

theorem elementStart_of_recordOf {shapes : Shapes} (h : c.recordOf shapes d = .ok record) :
    record.elementStart = (d.flexible.map (·.offset)).getD 0 := by
  obtain ⟨_, _, flexible, _, _, _, _, _, hlast, _, _, rfl⟩ := recordOf_eq_ok h
  cases hflexible : d.flexible with
  | none =>
      simp only [layFlexible, hflexible] at hlast
      obtain ⟨rfl, _⟩ := Prod.mk.inj (Except.ok.inj hlast)
      rfl
  | some f =>
      obtain ⟨_, _, _, rfl, _⟩ := appends_flexible hflexible hlast
      rfl

theorem HasFlexible.elementStart_eq (h : c.HasFlexible record f) (built : c.build = .ok registry)
    (hfind : registry.find? hash = some record) : record.elementStart = f.offset := by
  obtain ⟨t, d, known, hdescribes, declared, last⟩ := h
  obtain ⟨shapes, records, hbuilt⟩ := build_eq_ok built
  cases known with
  | builtin => cases declared
  | @declared d' coercion listed _ =>
      obtain rfl := Option.some.inj declared
      rw [← Registry.hash_of_find? hfind, hdescribes.hash_eq] at hfind
      rw [elementStart_of_recordOf (hbuilt.recordOf_of_find? listed hfind), last]
      rfl

theorem elementStart_eq_zero (built : c.build = .ok registry)
    (hfind : registry.find? hash = some record) (hnone : ∀ f, ¬ c.HasFlexible record f) :
    record.elementStart = 0 := by
  obtain ⟨shapes, records, hbuilt⟩ := build_eq_ok built
  rcases Registry.mem_of_find? hfind with rfl | hmem
  · rfl
  · rcases hbuilt.origin_of_mem hmem with ⟨b, _, rfl⟩ | ⟨d, hd, hrecord⟩
    · rfl
    · rw [elementStart_of_recordOf hrecord]
      cases hflexible : d.flexible with
      | none => rfl
      | some f =>
          obtain ⟨coercion, hcoercion, hdescribes⟩ := hbuilt.describes hd hrecord
          exact absurd ⟨_, d, .declared hd hcoercion, hdescribes, rfl, hflexible⟩ (hnone f)

/-- In every registry, the offsets below `2 ^ 26` are folded exactly, but for those that a type with
a flexible array leaves between its end and the start of the array. -/
theorem folds_exactly_iff (built : c.build = .ok registry)
    (hfind : registry.find? hash = some record) {offset : Nat} (hoffset : offset < 2 ^ 26) :
    record.FoldsExactly offset ↔
      ∀ f, c.HasFlexible record f → record.Reduces offset → f.offset ≤ offset := by
  rw [TypeRecord.foldsExactly_iff_start_le (by omega)]
  by_cases hflexible : ∃ f, c.HasFlexible record f
  · obtain ⟨f, hf⟩ := hflexible
    have hstart := hf.elementStart_eq built hfind
    refine ⟨fun h g hg hreduces => ?_, fun h hreduces => hstart ▸ h f hf hreduces⟩
    exact (hg.elementStart_eq built hfind).symm ▸ h hreduces
  · have hnone := not_exists.mp hflexible
    have hstart := elementStart_eq_zero built hfind hnone
    exact ⟨fun _ f hf => absurd hf (hnone f), fun _ _ => by omega⟩

def pixel : Declaration := (Declaration.ofSize "struct pixel" 3).withArray "rgb" "int8_t" 0 3

def image : Declaration :=
  ((Declaration.ofSize "struct image" 4).withField "count" "int32_t" 0).withFlexible "pixels"
    "struct pixel" 100

def imaged : Catalog := ⟨NameHasher.spread, [pixel, image]⟩

def imagedRegistry : Registry := imaged.build.toOption.get (by decide +kernel)

theorem imaged_build : imaged.build = .ok imagedRegistry := ok_get (by decide +kernel)

def imageRecord : TypeRecord :=
  (imagedRegistry.find? (image.typeHash NameHasher.spread)).get (by decide +kernel)

theorem find?_imageRecord :
    imagedRegistry.find? (image.typeHash NameHasher.spread) = some imageRecord :=
  (Option.some_get _).symm

/-- The second byte of the second pixel. -/
theorem pixel_folds_exactly :
    imaged.build = .ok imagedRegistry ∧
      imagedRegistry.find? (image.typeHash NameHasher.spread) = some imageRecord ∧
      imageRecord.FoldsExactly 104 ∧ imageRecord.FoldsTo 104 101 := by
  have hexact : imageRecord.FoldsExactly 104 := by
    refine (folds_exactly_iff imaged_build find?_imageRecord (by decide)).mpr fun f hf _ => ?_
    rw [← hf.elementStart_eq imaged_build find?_imageRecord]
    decide +kernel
  have hfold : imageRecord.fold 104 = .ok 101 := by decide +kernel
  obtain ⟨n, hfolds⟩ := hexact.folds
  obtain rfl := Except.ok.inj (hfold.symm.trans hfolds.fold_eq)
  exact ⟨imaged_build, find?_imageRecord, hexact, hfolds⟩

/-- Offset 50 lies between the end of the type and its pixels. Nothing can be subtracted from it, and the
program stops. -/
theorem gap_misfolded :
    imaged.build = .ok imagedRegistry ∧
      imagedRegistry.find? (image.typeHash NameHasher.spread) = some imageRecord ∧
      imageRecord.Reduces 50 ∧ imageRecord.elementStart = 100 ∧ imageRecord.elementSize = 3 ∧
      imageRecord.fold 50 = .error .subtraction ∧ ¬ imageRecord.FoldsExactly 50 := by
  have hbetween : imageRecord.size ≤ 50 ∧ imageRecord.elementSize ≠ 0 := by decide +kernel
  have hreduces : imageRecord.Reduces 50 := hbetween
  have hstart : imageRecord.elementStart = 100 := by decide +kernel
  refine ⟨imaged_build, find?_imageRecord, hreduces, hstart, by decide +kernel,
    hreduces.fold_of_lt (by omega), fun hexact => ?_⟩
  have hle := hexact.start_le hreduces
  omega

end Catalog

end TypedHeap
