import Mathlib.Data.List.Nodup
import TypedHeap.Proofs.Filling
import TypedHeap.Registry

/-! # Built-in types

What holds of the built-in types whatever function hashes their names, as long as it keeps them apart:
none has the hash of an empty place, each has a table, and each that is coerced is so to another one.
-/

namespace TypedHeap

open Layout (Entry probeLimit)

/-- A function that mixes the characters of a name one after another keeps the built-in types apart. -/
def NameHasher.spread : NameHasher where
  hash name := name.toList.foldl (fun hash c => TypeHash.mix (hash + c.toNat.toUInt64)) 0
  distinct := by decide +kernel

namespace Builtin

variable {b : Builtin}

theorem hash_of_given {given : TypeHash} (h : b.givenHash = some given) (hashName : String → UInt64) :
    b.hash hashName = given := by
  rw [hash, h, Option.getD_some]

theorem hash_ne_nil (hashName : String → UInt64) (hb : b ∈ all) : b.hash hashName ≠ .nil := by
  have hreal : ∀ b ∈ all, b.givenHash ≠ some .nil := by decide
  cases hgiven : b.givenHash with
  | none =>
      rw [hash, hgiven, Option.getD_none]
      exact TypeHash.ofName_ne_nil hashName b.name
  | some given =>
      rw [hash_of_given hgiven]
      exact fun hnil => hreal b hb (hnil ▸ hgiven)

theorem coercion_ne_nil : ∀ b ∈ all, b.coercion ≠ some .nil := by decide

/-- A built-in type is coerced to another one of its size, which has a given hash. -/
theorem coercion_listed : ∀ b ∈ all, ∀ hash ∈ b.coercion,
    ∃ b' ∈ all, b'.givenHash = some hash ∧ b'.size = b.size ∧ b' ≠ b := by
  have hnames : ∀ b ∈ all, ∀ hash ∈ b.coercion,
      ∃ b' ∈ all, b'.givenHash = some hash ∧ b'.size = b.size ∧ b'.name ≠ b.name := by decide
  intro b hb hash hcoercion
  obtain ⟨b', hb', hgiven, hsize, hname⟩ := hnames b hb hash hcoercion
  exact ⟨b', hb', hgiven, hsize, fun heq => hname (congrArg name heq)⟩

theorem hash_ne_free (hasher : NameHasher) (hb : b ∈ all) : b.hash hasher ≠ .free :=
  fun hfree => (List.nodup_cons.mp hasher.distinct).1 (hfree ▸ List.mem_map_of_mem hb)

theorem coercion_ne_hash (hasher : NameHasher) (hb : b ∈ all) : b.coercion ≠ some (b.hash hasher) := by
  intro hcoercion
  obtain ⟨b', hb', hgiven, -, hne⟩ := coercion_listed b hb _ hcoercion
  have hnodup := (List.nodup_cons.mp hasher.distinct).2
  exact hne (List.inj_on_of_nodup_map hnodup hb' hb (hash_of_given hgiven hasher))

/-! ## Tables -/

theorem selfEntries_ne_nil (hashName : String → UInt64) (hb : b ∈ all) :
    ∀ e ∈ TypeRecord.selfEntries (b.hash hashName) b.coercion, e.hash ≠ .nil := by
  intro e he
  obtain ⟨hash, hhash, rfl⟩ := List.mem_map.mp he
  rcases List.mem_cons.mp hhash with rfl | hcoercion
  · exact hash_ne_nil hashName hb
  · exact fun hnil => coercion_ne_nil b hb (Option.mem_toList.mp (hnil ▸ hcoercion))

theorem build?_eq (hashName : String → UInt64) (hb : b ∈ all) :
    Layout.Table.build? (b.hash hashName) (TypeRecord.selfEntries (b.hash hashName) b.coercion) =
      some (b.record hashName).table := by
  have hfew : 2 * (TypeRecord.selfEntries (b.hash hashName) b.coercion).length ≤ probeLimit := by
    cases b.coercion <;> simp [TypeRecord.selfEntries, probeLimit]
  have hsome : (Layout.Table.build? (b.hash hashName)
      (TypeRecord.selfEntries (b.hash hashName) b.coercion)).isSome = true :=
    Layout.Table.build?_isSome hfew (selfEntries_ne_nil hashName hb)
  obtain ⟨table, htable⟩ := Option.isSome_iff_exists.mp hsome
  rw [htable, record, TypeRecord.primitive, htable]
  rfl

end Builtin

end TypedHeap
