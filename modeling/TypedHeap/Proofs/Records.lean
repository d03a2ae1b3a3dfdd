import TypedHeap.Proofs.Builtins
import TypedHeap.Proofs.Checks
import TypedHeap.Proofs.Placement

/-! # Records of declarations

A record finds what its entries say: the first of them for a type and an offset, although entries
that come later for the same type and offset are left out of its table.
-/

namespace TypedHeap

open Layout (Entry)
open Layout.Table (Distinct)

theorem Layout.Entry.isFor_iff {e : Entry} {hash : TypeHash} {offset : Nat} :
    e.isFor hash offset = true ↔ e.hash = hash ∧ e.offset = offset := by
  simp [isFor]

namespace Catalog

/-! ## The first of each -/

namespace Kept

def Tracks (k : Kept) : Prop :=
  ∀ hash offset, hash ∈ k.seen.getD offset [] ↔ ∃ e ∈ k.entries.toList, e.isFor hash offset = true

theorem add_eq (k : Kept) (e : Entry) :
    k.add e = if e.hash ∈ k.seen.getD e.offset [] then k
      else ⟨k.entries.push e, k.seen.insert e.offset (e.hash :: k.seen.getD e.offset [])⟩ := by
  simp [add]

theorem tracks_add {k : Kept} (hk : k.Tracks) (e : Entry) : (k.add e).Tracks := by
  intro hash offset
  rw [add_eq]
  split
  · exact hk hash offset
  · simp only [Std.TreeMap.getD_insert, Array.toList_push, List.mem_append, List.mem_singleton,
      or_and_right, exists_or, exists_eq_left, Layout.Entry.isFor_iff, Nat.compare_eq_eq]
    split
    · next heq =>
      subst heq
      rw [List.mem_cons, hk hash e.offset]
      simp only [Layout.Entry.isFor_iff, and_true]
      exact ⟨fun h => h.symm.imp id Eq.symm, fun h => h.symm.imp Eq.symm id⟩
    · next hne =>
      rw [hk hash offset]
      simp only [Layout.Entry.isFor_iff, hne, and_false, or_false]

theorem entries_add {k : Kept} (hk : k.Tracks) (e : Entry) :
    (∃ x ∈ k.entries.toList, x.isFor e.hash e.offset = true) ∧ k.add e = k ∨
      (∀ x ∈ k.entries.toList, x.isFor e.hash e.offset = false) ∧
        (k.add e).entries.toList = k.entries.toList ++ [e] := by
  by_cases hseen : e.hash ∈ k.seen.getD e.offset []
  · exact .inl ⟨(hk e.hash e.offset).mp hseen, by rw [add_eq, if_pos hseen]⟩
  · refine .inr ⟨fun x hx => ?_, by rw [add_eq, if_neg hseen, Array.toList_push]⟩
    rw [Bool.eq_false_iff]
    exact fun hfor => hseen ((hk e.hash e.offset).mpr ⟨x, hx, hfor⟩)

/-- What is kept of a list finds what the list does, and has no entry twice and none of its own. -/
theorem foldl_add {es : List Entry} {k : Kept} (hk : k.Tracks) (hd : Distinct k.entries.toList) :
    Distinct (es.foldl add k).entries.toList ∧
      (∀ e ∈ (es.foldl add k).entries.toList, e ∈ k.entries.toList ++ es) ∧
      ∀ hash offset, (es.foldl add k).entries.toList.find? (·.isFor hash offset) =
        (k.entries.toList ++ es).find? (·.isFor hash offset) := by
  induction es generalizing k with
  | nil => simp [hd]
  | cons e es ih =>
      rw [List.foldl_cons]
      rcases entries_add hk e with ⟨⟨x, hx, hfor⟩, hadd⟩ | ⟨hnone, hadd⟩
      · obtain ⟨hd', hmem, hfind⟩ := ih hk hd
        rw [hadd]
        refine ⟨hd', fun y hy => ?_, fun hash offset => ?_⟩
        · rcases List.mem_append.mp (hmem y hy) with hin | hin
          · exact List.mem_append_left _ hin
          · exact List.mem_append_right _ (List.mem_cons_of_mem _ hin)
        · rw [hfind, List.find?_append, List.find?_append]
          cases hkept : k.entries.toList.find? (·.isFor hash offset) with
          | some y => rfl
          | none =>
              -- one of the same key was kept, so what is left out is never the first
              have hnot : ¬ e.isFor hash offset = true := fun hsame => by
                obtain ⟨rfl, rfl⟩ := Layout.Entry.isFor_iff.mp hsame
                exact List.find?_eq_none.mp hkept x hx hfor
              simp [hnot]
      · have hdadd : Distinct (k.add e).entries.toList := by
          rw [hadd]
          refine List.pairwise_append.mpr ⟨hd, List.pairwise_singleton _ _, fun x hx y hy => ?_⟩
          obtain rfl := List.mem_singleton.mp hy
          intro hash offset hxfor
          rw [Bool.eq_false_iff]
          intro hyfor
          obtain ⟨rfl, rfl⟩ := Layout.Entry.isFor_iff.mp hyfor
          exact nomatch hxfor.symm.trans (hnone x hx)
        obtain ⟨hd', hmem, hfind⟩ := ih (tracks_add hk e) hdadd
        rw [hadd, List.append_assoc, List.singleton_append] at hmem hfind
        exact ⟨hd', hmem, hfind⟩

end Kept

theorem find?_firstOfEach (entries : Array Entry) :
    Distinct (firstOfEach entries) ∧ (∀ e ∈ firstOfEach entries, e ∈ entries.toList) ∧
      ∀ hash offset, (firstOfEach entries).find? (·.isFor hash offset) =
        entries.toList.find? (·.isFor hash offset) := by
  have htracks : Kept.Tracks ⟨#[], {}⟩ := fun hash offset => by simp
  have hfold := @Kept.foldl_add entries.toList _ htracks List.Pairwise.nil
  rw [firstOfEach, ← Array.foldl_toList]
  simpa using hfold

end Catalog

/-! ## What a record finds -/

namespace TypeRecord

/-- The record answers as a search of the entries does, from the front. -/
structure Indexes (record : TypeRecord) (es : List Entry) : Prop where
  lookup_eq (hash : TypeHash) (offset : Nat) :
    (record.lookup hash offset).found? = es.find? (·.isFor hash offset)
  entry_eq {place : Nat} {e : Entry} : record.table.entry? place = some e →
    es.find? (·.isFor e.hash e.offset) = some e

variable {record : TypeRecord} {es : List Entry}

theorem indexes_of_build? {seed : TypeHash} (hb : Layout.Table.build? seed es = some record.table)
    (hne : ∀ e ∈ es, e.hash ≠ .nil) (hd : Distinct es) : record.Indexes es := by
  refine ⟨Layout.Table.lookup_build? hb hne hd, fun {place e} he => ?_⟩
  have hmem := Layout.Table.mem_of_entry hb hne he
  have hfor : e.isFor e.hash e.offset = true := Layout.Entry.isFor_iff.mpr ⟨rfl, rfl⟩
  cases hfind : es.find? (·.isFor e.hash e.offset) with
  | none => exact absurd hfor (List.find?_eq_none.mp hfind e hmem)
  | some x =>
      have hx := List.find?_some hfind
      exact congrArg some (hd.eq_of_isFor (List.mem_of_find?_eq_some hfind) hmem hx hfor)

/-- A record is an exact map of the types and offsets of the entries that its table was built from:
each of them is found within the places probed for it, nothing else is found, and the table holds
each once. -/
theorem lookup_exact {seed : TypeHash} (hb : Layout.Table.build? seed es = some record.table)
    (hne : ∀ e ∈ es, e.hash ≠ .nil) (hkeys : (es.map fun e => (e.offset, e.hash)).Nodup) :
    (∀ e ∈ es, ∃ i < Layout.probeLimit, ∃ place,
      place = ((Layout.probeKey seed e.hash e.offset.toUInt64).toNat + i) % record.table.capacity ∧
        record.lookup e.hash e.offset = .hit place e ∧ record.table.entry? place = some e) ∧
      (∀ hash offset, (offset, hash) ∉ es.map (fun e => (e.offset, e.hash)) →
        ∀ place e, record.lookup hash offset ≠ .hit place e) ∧
      record.table.entries.Perm es := by
  obtain ⟨hseed, hfilled⟩ := Layout.Table.build?_filled hne hb
  have hd : Distinct es := Layout.Table.distinct_iff_nodup.mpr hkeys
  refine ⟨fun e he => ?_, fun hash offset habsent place e hhit => ?_,
    Layout.Table.entries_build?_perm hb hne⟩
  · have hfor : e.isFor e.hash e.offset = true := Layout.Entry.isFor_iff.mpr ⟨rfl, rfl⟩
    obtain ⟨place, hhit⟩ := Layout.Lookup.found?_eq_some_iff.mp
      (Layout.Table.lookup_of_mem hseed hfilled hd he hfor)
    obtain ⟨i, hi, hplace⟩ := Layout.Table.probe_of_lookup hhit
    rw [hseed] at hplace
    exact ⟨i, hi, place, hplace, hhit, Layout.Table.entry?_of_lookup hhit⟩
  · obtain ⟨hmem, hfor⟩ := Layout.Table.mem_of_lookup hfilled
      (Layout.Lookup.found?_eq_some_iff.mpr ⟨place, hhit⟩)
    obtain ⟨rfl, rfl⟩ := Layout.Entry.isFor_iff.mp hfor
    exact habsent (List.mem_map_of_mem hmem)

def crossing : List Entry := [⟨some "first", 0, ⟨1⟩, ⟨0, 4⟩⟩, ⟨none, 4, ⟨2⟩, ⟨0, 4⟩⟩]

def crossingTable : Layout.Table :=
  (Layout.Table.build? ⟨0x25⟩ crossing).get (by decide +kernel)

theorem build?_crossing : Layout.Table.build? ⟨0x25⟩ crossing = some crossingTable := by
  rw [crossingTable, Option.some_get]

def crossingRecord : TypeRecord :=
  .ofParts ⟨3⟩ (.primitive "pair" 8) none crossingTable none

theorem crossing_exact :
    Layout.Table.build? ⟨0x25⟩ crossing = some crossingRecord.table ∧
      (∀ e ∈ crossing, e.hash ≠ .nil) ∧ (crossing.map fun e => (e.offset, e.hash)).Nodup ∧
      (∃ place, crossingRecord.lookup ⟨2⟩ 4 = .hit place ⟨none, 4, ⟨2⟩, ⟨0, 4⟩⟩) ∧
      (∀ place e, crossingRecord.lookup ⟨2⟩ 0 ≠ .hit place e) ∧
      crossingRecord.table.entries.Perm crossing := by
  have hne : ∀ e ∈ crossing, e.hash ≠ .nil := by decide
  have hkeys : (crossing.map fun e => (e.offset, e.hash)).Nodup := by decide
  have hbuild : Layout.Table.build? ⟨0x25⟩ crossing = some crossingRecord.table :=
    build?_crossing
  obtain ⟨hfound, habsent, hperm⟩ := lookup_exact hbuild hne hkeys
  obtain ⟨_, _, place, _, hhit, _⟩ := hfound _ (List.mem_cons_of_mem _ List.mem_cons_self)
  exact ⟨hbuild, hne, hkeys, ⟨place, hhit⟩, habsent _ _ (by decide), hperm⟩

theorem Indexes.congr {es' : List Entry} (h : record.Indexes es)
    (heq : ∀ hash offset, es.find? (·.isFor hash offset) = es'.find? (·.isFor hash offset)) :
    record.Indexes es' :=
  ⟨fun hash offset => (h.lookup_eq hash offset).trans (heq hash offset),
    fun he => (heq _ _).symm.trans (h.entry_eq he)⟩

theorem Indexes.recall? (h : record.Indexes es) {cache : Cache.Chain} {expected : TypeHash}
    {offset : Nat} {e : Entry} (hr : record.recall? cache expected offset = some e) :
    es.find? (·.isFor expected offset) = some e := by
  unfold TypeRecord.recall? at hr
  split at hr
  · cases hr
  · obtain ⟨hentry, hfor⟩ := Option.filter_eq_some_iff.mp hr
    obtain ⟨rfl, rfl⟩ := Layout.Entry.isFor_iff.mp hfor
    exact h.entry_eq hentry

/-- Tags or not, the first entry for the type counts, or else that for its coercion. -/
theorem Indexes.entryFor? (h : record.Indexes es) (registry : Registry) (cache : Cache.Chain)
    (expected : TypeHash) (offset : Nat) :
    registry.entryFor? record cache expected offset =
      (es.find? (·.isFor expected offset)).or
        (((registry.find? expected).bind (·.coercion)).bind fun coerced =>
          es.find? (·.isFor coerced offset)) := by
  simp only [Registry.entryFor?, h.lookup_eq]
  cases hr : record.recall? cache expected offset with
  | none => rfl
  | some e => rw [h.recall? hr, Option.some_or, Option.some_or]

theorem distinct_selfEntries {hash : TypeHash} {coercion : Option TypeHash}
    (hne : coercion ≠ some hash) : Distinct (selfEntries hash coercion) := by
  cases coercion with
  | none => exact List.pairwise_singleton _ _
  | some c =>
      refine List.pairwise_pair.mpr fun h offset hfor => ?_
      obtain ⟨rfl, _⟩ := Layout.Entry.isFor_iff.mp hfor
      rw [Bool.eq_false_iff]
      exact fun hc => hne (congrArg some (Layout.Entry.isFor_iff.mp hc).1)

end TypeRecord

theorem Builtin.distinct_selfEntries (hasher : NameHasher) {b : Builtin} (hb : b ∈ all) :
    Distinct (TypeRecord.selfEntries (b.hash hasher) b.coercion) :=
  TypeRecord.distinct_selfEntries (coercion_ne_hash hasher hb)

end TypedHeap
