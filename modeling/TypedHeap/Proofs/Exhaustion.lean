import TypedHeap.Proofs.Records

/-! # Searches that give up

A table that was built holds every entry within reach of its key, but this does not bound how many
taken places follow each other. A search for a pair that is absent gives up after eight of them
although the table has free places. So giving up says that the pair is absent, and it takes a type
of at least eight entries.
-/

namespace TypedHeap.Layout.Table

variable {seed hash : TypeHash} {slots slots' : Array Entry} {entries : List Entry} {t : Table}
  {offset place : Nat}

/-! ## What is known of a search that gives up -/

theorem search_eq_probeLimit_iff {places : List Nat} :
    search slots hash offset places = .probeLimit ↔
      ∀ q ∈ places, (at? slots q).isEmpty = false ∧ (at? slots q).isFor hash offset = false := by
  induction places with
  | nil => simp [search]
  | cons q places ih =>
      simp only [search, List.forall_mem_cons]
      split
      · next hfor => simp [hfor]
      · split
        · next hempty => simp [hempty]
        · next hfor hempty => simp [hfor, hempty, ih]

theorem lookup_ne_probeLimit (hb : build? seed entries = some t)
    (hne : ∀ e ∈ entries, e.hash ≠ .nil) (hd : Distinct entries) {e : Entry} (he : e ∈ entries) :
    t.lookup e.hash e.offset ≠ .probeLimit := by
  obtain ⟨hseed, hf⟩ := build?_filled hne hb
  have hfor : e.isFor e.hash e.offset = true := by simp [Entry.isFor]
  have hfound := lookup_of_mem hseed hf hd he hfor
  intro hlimit
  rw [hlimit] at hfound
  cases hfound

theorem probeLimit_le_length (hb : build? seed entries = some t)
    (hne : ∀ e ∈ entries, e.hash ≠ .nil)
    (htaken : ∀ q ∈ probesFor t.seed hash offset t.capacity, (t.entry? q).isSome) :
    probeLimit ≤ entries.length := by
  obtain ⟨hhalf, hpos⟩ := two_mul_length_le_capacity hb
  let first := (List.range (min probeLimit t.capacity)).map fun i =>
    ((probeKey t.seed hash offset.toUInt64).toNat + i) % t.capacity
  have hfirst : first.length ≤ t.entries.length := by
    refine length_le_entries (nodup_probes _ (Nat.min_le_right ..)) fun q hq => htaken q ?_
    obtain ⟨i, hi, rfl⟩ := List.mem_map.mp hq
    have hlt := List.mem_range.mp hi
    exact List.mem_map.mpr ⟨i, List.mem_range.mpr (by omega), rfl⟩
  rw [(entries_build?_perm hb hne).length_eq, List.length_map, List.length_range] at hfirst
  omega

theorem forall_mem_probesFor {capacity : Nat} {P : Nat → Prop} :
    (∀ q ∈ probesFor seed hash offset capacity, P q) ↔
      ∀ i < probeLimit, P (((probeKey seed hash offset.toUInt64).toNat + i) % capacity) := by
  simp [probesFor, probes]

/-- A search in a built table gives up just if the pair is absent and all its places are taken. -/
theorem lookup_eq_probeLimit_iff (hb : build? seed entries = some t)
    (hne : ∀ e ∈ entries, e.hash ≠ .nil) (hd : Distinct entries) :
    t.lookup hash offset = .probeLimit ↔
      hash ≠ .nil ∧ (offset, hash) ∉ entries.map (fun e => (e.offset, e.hash)) ∧
        ∀ q ∈ probesFor t.seed hash offset t.capacity, (t.entry? q).isSome := by
  constructor
  · intro hlimit
    have habsent : (offset, hash) ∉ entries.map (fun e => (e.offset, e.hash)) := fun hmem => by
      obtain ⟨e, he, hkey⟩ := List.mem_map.mp hmem
      obtain ⟨rfl, rfl⟩ := Prod.mk.inj hkey
      exact lookup_ne_probeLimit hb hne hd he hlimit
    unfold lookup at hlimit
    split at hlimit
    · cases hlimit
    · next hnil =>
      have htaken := search_eq_probeLimit_iff.mp hlimit
      exact ⟨hnil, habsent, fun q hq => entry?_isSome_iff.mpr (htaken q hq).1⟩
  · rintro ⟨hnil, habsent, htaken⟩
    rw [lookup, if_neg hnil]
    refine search_eq_probeLimit_iff.mpr fun q hq => ?_
    have hfull := entry?_isSome_iff.mp (htaken q hq)
    refine ⟨hfull, Bool.eq_false_iff.mpr fun hfor => habsent ?_⟩
    obtain ⟨rfl, rfl⟩ := Entry.isFor_iff.mp hfor
    exact List.mem_map_of_mem ((build?_filled hne hb).2.only q hfull)

end TypedHeap.Layout.Table

namespace TypedHeap.TypeRecord

open Layout (Entry probeLimit probeKey)
open Layout.Table (build? distinct_iff_nodup lookup_eq_probeLimit_iff)

/-- A search in a built table gives up just if the pair is absent and its eight places are taken,
which cannot be in a table of fewer than eight entries. All other searches hit or miss. -/
theorem gives_up_iff {record : TypeRecord} {seed : TypeHash} {entries : List Entry}
    (hb : build? seed entries = some record.table) (hne : ∀ e ∈ entries, e.hash ≠ .nil)
    (hkeys : (entries.map fun e => (e.offset, e.hash)).Nodup) (hash : TypeHash) (offset : Nat) :
    (record.lookup hash offset = .probeLimit ↔
      hash ≠ .nil ∧ (offset, hash) ∉ entries.map (fun e => (e.offset, e.hash)) ∧
        ∀ i < probeLimit, (record.table.entry?
          (((probeKey seed hash offset.toUInt64).toNat + i) % record.table.capacity)).isSome) ∧
      (record.lookup hash offset = .probeLimit → probeLimit ≤ entries.length) := by
  have hseed : record.table.seed = seed := (Layout.Table.build?_filled hne hb).1
  have hiff : record.table.lookup hash offset = .probeLimit ↔ _ :=
    lookup_eq_probeLimit_iff hb hne (distinct_iff_nodup.mpr hkeys)
  refine ⟨?_, fun hlimit => Layout.Table.probeLimit_le_length hb hne (hiff.mp hlimit).2.2⟩
  rw [lookup, hiff, hseed, Layout.Table.forall_mem_probesFor]

def label : Declaration :=
  { Declaration.ofSize "struct label" 8 with hash := some 1, secondary := some 0x68c }.withArray
    "text" "int8_t" 0 7

def labelEntries : List Entry :=
  .self ⟨1⟩ ::
    (List.range 7).flatMap (Catalog.elementEntries "text" ⟨.int8, 1, none, none⟩ 0 7)

def labelTable : Layout.Table :=
  (build? ⟨0x68c⟩ labelEntries).get (by decide +kernel)

theorem build?_label : build? ⟨0x68c⟩ labelEntries = some labelTable := by
  rw [labelTable, Option.some_get]

def labelRecord : TypeRecord :=
  .ofParts ⟨1⟩ (.primitive "struct label" 8) none labelTable none

/-- The eight entries stand next to each other, and the search for a byte in the padding starts at the
first of them. That for a byte behind the label starts at a free place. -/
theorem label_gives_up :
    build? ⟨0x68c⟩ labelEntries = some labelRecord.table ∧
      (∀ e ∈ labelEntries, e.hash ≠ .nil) ∧
      (labelEntries.map fun e => (e.offset, e.hash)).Nodup ∧
      labelRecord.lookup .int8 7 = .probeLimit ∧ probeLimit ≤ labelEntries.length ∧
      labelRecord.lookup .int8 8 ≠ .probeLimit := by
  have hne : ∀ e ∈ labelEntries, e.hash ≠ .nil := by decide
  have hkeys : (labelEntries.map fun e => (e.offset, e.hash)).Nodup := by decide
  have hlimit : labelRecord.lookup .int8 7 = .probeLimit :=
    (gives_up_iff build?_label hne hkeys .int8 7).1.mpr (by decide +kernel)
  refine ⟨build?_label, hne, hkeys, hlimit,
    (gives_up_iff build?_label hne hkeys .int8 7).2 hlimit, fun hnext => ?_⟩
  exact absurd ((gives_up_iff build?_label hne hkeys .int8 8).1.mp hnext) (by decide +kernel)

/-- The registry accepts the label, and a search in its table for a byte in the padding ends neither in
a hit nor in a miss. -/
theorem label_probes_exhausted :
    ¬ (∀ (seed : TypeHash) (entries : List Entry) (t : Layout.Table),
      (entries.map fun e => (e.offset, e.hash)).Nodup → (∀ e ∈ entries, e.hash ≠ .nil) →
        build? seed entries = some t → ∀ hash offset, t.lookup hash offset ≠ .probeLimit) ∧
      ((Catalog.build ⟨NameHasher.spread, [label]⟩).toOption.bind (·.findName? "struct label")).map
        (·.lookup .int8 7) = some .probeLimit := by
  refine ⟨fun hnever => ?_, by decide +kernel⟩
  exact hnever _ _ _ (by decide) (by decide) build?_label .int8 7 (by decide +kernel)

end TypedHeap.TypeRecord
