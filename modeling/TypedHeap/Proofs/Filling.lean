import Mathlib.Data.List.Perm.Subperm
import TypedHeap.Proofs.Probing

/-! # Tables of few entries

Half of the places of a table are free, but this alone does not say that an entry finds one among its
eight probes. As long as fewer than eight places are taken it does, for whatever keys the seed and the
hashes give.
-/

namespace TypedHeap.Layout.Table

variable {seed hash : TypeHash} {slots slots' : Array Entry} {entries : List Entry} {t : Table}
  {offset place : Nat}

/-! ## How many places are taken -/

theorem entry?_isSome_iff : (t.entry? place).isSome ↔ (at? t.slots place).isEmpty = false := by
  rw [at?, Array.getD_eq_getD_getElem?, entry?]
  cases t.slots[place]? with
  | none => simp [Entry.isEmpty, Entry.empty]
  | some e => cases h : e.isEmpty <;> simp [h]

theorem lt_of_taken (h : (t.entry? place).isSome) : place < t.slots.size := by
  obtain ⟨e, he⟩ := Option.isSome_iff_exists.mp h
  obtain ⟨hlt, _⟩ := Array.getElem?_eq_some_iff.mp (Option.filter_eq_some_iff.mp he).1
  exact hlt

theorem size_of_fill (hfill : entries.foldlM (place? seed) slots = some slots') :
    slots'.size = slots.size := by
  induction entries generalizing slots with
  | nil =>
      obtain rfl := Option.some.inj hfill
      rfl
  | cons e entries ih =>
      rw [List.foldlM_cons] at hfill
      obtain ⟨next, hplace, hrest⟩ := Option.bind_eq_some_iff.mp hfill
      obtain ⟨_, _, rfl⟩ := Option.map_eq_some_iff.mp hplace
      rw [ih hrest, Array.size_setIfInBounds]

theorem two_mul_length_le_capacity (hb : build? seed entries = some t) :
    2 * entries.length ≤ t.capacity ∧ 0 < t.capacity := by
  obtain ⟨bits, _, hfill⟩ := List.exists_of_findSome?_eq_some hb
  split at hfill
  · next hroom =>
    obtain ⟨slots, hslots, rfl⟩ := Option.map_eq_some_iff.mp hfill
    have hsize := size_of_fill hslots
    rw [Array.size_replicate] at hsize
    rw [capacity, hsize]
    exact ⟨hroom, Nat.two_pow_pos bits⟩
  · cases hfill

theorem length_le_entries {places : List Nat} (hnodup : places.Nodup)
    (htaken : ∀ q ∈ places, (t.entry? q).isSome) : places.length ≤ t.entries.length := by
  have hall : t.slots.toList = (List.range t.slots.size).map (at? t.slots) := by
    apply List.ext_getElem (by simp)
    intro q hq _
    simp [at?, Array.length_toList ▸ hq]
  have hcount : t.entries.length =
      ((List.range t.slots.size).filter fun q => !(at? t.slots q).isEmpty).length := by
    rw [entries, hall, List.filter_map, List.length_map]
    rfl
  rw [hcount]
  apply (hnodup.subperm fun q hq => ?_).length_le
  have htakenq := htaken q hq
  exact List.mem_filter.mpr ⟨List.mem_range.mpr (lt_of_taken htakenq),
    by simpa using entry?_isSome_iff.mp htakenq⟩

theorem nodup_probes (key : UInt64) {n capacity : Nat} (h : n ≤ capacity) :
    ((List.range n).map fun i => (key.toNat + i) % capacity).Nodup := by
  rw [List.Nodup, List.pairwise_map]
  refine List.pairwise_lt_range.imp_of_mem fun {i j} hi hj hlt heq => ?_
  have hmod := Nat.sub_mod_eq_zero_of_mod_eq heq.symm
  rw [Nat.add_sub_add_left, Nat.mod_eq_of_lt] at hmod
  all_goals
    have := List.mem_range.mp hj
    omega

/-! ## Few entries -/

/-- As long as fewer than eight places are taken, one of the probes meets a free one. -/
theorem place?_isSome (hroom : probeLimit ≤ slots.size)
    (hfew : (slots.toList.filter (!·.isEmpty)).length < probeLimit) (e : Entry) :
    (place? seed slots e).isSome = true := by
  rw [place?, Option.isSome_map, List.find?_isSome]
  apply Classical.byContradiction
  intro hnone
  have htaken (q : Nat) (hq : q ∈ probesFor seed e.hash e.offset slots.size) :
      (at? slots q).isEmpty = false :=
    Bool.eq_false_iff.mpr fun hempty => hnone ⟨q, hq, hempty⟩
  have hcount := length_le_entries (t := ⟨seed, slots⟩) (nodup_probes _ hroom)
    fun q hq => entry?_isSome_iff.mpr (htaken q hq)
  rw [List.length_map, List.length_range] at hcount
  exact absurd hcount (Nat.not_le.mpr hfew)

theorem foldlM_place?_isSome (hroom : probeLimit ≤ slots.size)
    (hfew : (slots.toList.filter (!·.isEmpty)).length + entries.length < probeLimit)
    (hne : ∀ e ∈ entries, e.hash ≠ .nil) : (entries.foldlM (place? seed) slots).isSome = true := by
  induction entries generalizing slots with
  | nil => rfl
  | cons e entries ih =>
      obtain ⟨hreal, hothers⟩ := List.forall_mem_cons.mp hne
      rw [List.length_cons] at hfew
      have hsome : (place? seed slots e).isSome = true := place?_isSome hroom (by omega) e
      obtain ⟨next, hplace⟩ := Option.isSome_iff_exists.mp hsome
      have hfull : e.isEmpty = false := by simpa [Entry.isEmpty] using hreal
      obtain ⟨hsize, hperm⟩ := place?_perm (by omega) hfull hplace
      have hlength := hperm.length_eq
      rw [List.length_cons] at hlength
      rw [List.foldlM_cons, hplace]
      exact ih (by omega) (by omega) hothers

theorem fill?_isSome {bits : Nat} (hroom : probeLimit ≤ 2 ^ bits)
    (hfew : entries.length < probeLimit) (hne : ∀ e ∈ entries, e.hash ≠ .nil) :
    (fill? seed entries bits).isSome = true := by
  have hnone : (Array.replicate (2 ^ bits) Entry.empty).toList.filter (!·.isEmpty) = [] := by
    simp [Entry.isEmpty, Entry.empty]
  rw [fill?, Option.isSome_map]
  refine foldlM_place?_isSome (by rwa [Array.size_replicate]) ?_ hne
  rwa [hnone, List.length_nil, Nat.zero_add]

theorem fill?_of_build?_eq_none (hbuild : build? seed entries = Option.none)
    (hroom : 2 * entries.length ≤ 2 ^ mostBits) : fill? seed entries mostBits = Option.none := by
  have hlast := List.findSome?_eq_none_iff.mp hbuild mostBits (by decide)
  rwa [if_pos hroom] at hlast

theorem build?_isSome (hfew : 2 * entries.length ≤ probeLimit) (hne : ∀ e ∈ entries, e.hash ≠ .nil) :
    (build? seed entries).isSome = true := by
  rw [build?, List.findSome?_isSome_iff]
  refine ⟨3, by decide, ?_⟩
  rw [if_pos (show 2 * entries.length ≤ 2 ^ 3 from hfew)]
  have hlimit : probeLimit = 8 := rfl
  exact fill?_isSome (by decide) (by omega) hne

end TypedHeap.Layout.Table
