import TypedHeap.Proofs.Congruence
import TypedHeap.Proofs.Custody

/-! # Guards that differ in their tags

Two guards are alike if they agree in all but what their chains hold and the counters that tell how
types were found. No operation can tell them apart: it answers the same, and leaves guards that are
alike again.
-/

namespace TypedHeap

def Counter.TellsWay : Counter → Prop
  | fastTypeChecks | slowTypeChecks | registryLookups | probeLimitMisses => True
  | _ => False

namespace Heap

/-- The heaps differ at most in the tags that their chains hold, and null refers to no chain. -/
structure Alike (h h' : Heap) : Prop where
  range_eq : h'.range = h.range
  shift_eq : h'.shift = h.shift
  classes_eq : h'.classes = h.classes
  regions_eq : h'.regions = h.regions
  headerAt_eq (a : Nat) : h'.headerAt a = h.headerAt a
  mem_chains_iff (reference : Nat) : reference ∈ h'.chains ↔ reference ∈ h.chains
  size_chains_eq : h'.chains.size = h.chains.size
  null : 0 ∉ h.chains

theorem alike_refl {h : Heap} (null : 0 ∉ h.chains) : h.Alike h :=
  ⟨rfl, rfl, rfl, rfl, fun _ => rfl, fun _ => Iff.rfl, rfl, null⟩

namespace Alike

variable {h h' : Heap}

theorem sameSlots (ha : h.Alike h') : h.SameSlots h' :=
  ⟨ha.range_eq, ha.shift_eq, ha.classes_eq, ha.regions_eq, ha.headerAt_eq⟩

/-! ## What is written to the heaps -/

theorem contains_chains_eq (ha : h.Alike h') (reference : Nat) :
    h'.chains.contains reference = h.chains.contains reference := by
  rw [Bool.eq_iff_iff, ← Std.TreeMap.mem_iff_contains, ← Std.TreeMap.mem_iff_contains,
    ha.mem_chains_iff]

theorem withRegions (ha : h.Alike h') (regions : List Region) :
    ({ h with regions } : Heap).Alike { h' with regions } :=
  { ha with regions_eq := rfl, headerAt_eq := ha.headerAt_eq }

theorem putBack (ha : h.Alike h') (i base : Nat) :
    (h.putBack i base).Alike (h'.putBack i base) := by
  unfold Heap.putBack
  rw [ha.regions_eq]
  exact ha.withRegions _

theorem setHeader (ha : h.Alike h') (base : Nat) (header : Header) :
    (h.setHeader base header).Alike (h'.setHeader base header) := by
  refine { ha with headerAt_eq := fun a => ?_ }
  rw [headerAt_setHeader, headerAt_setHeader, ha.headerAt_eq]

theorem forgetTags (ha : h.Alike h') (header : Header) :
    (h.forgetTags header).Alike (h'.forgetTags header) := by
  refine { ha with headerAt_eq := ha.headerAt_eq, mem_chains_iff := fun reference => ?_,
                   size_chains_eq := ?_, null := ?_ }
  · simp only [Heap.forgetTags, Std.TreeMap.mem_modify, ha.mem_chains_iff]
  · simp only [Heap.forgetTags, Std.TreeMap.size_modify, ha.size_chains_eq]
  · simp only [Heap.forgetTags, Std.TreeMap.mem_modify, ha.null, not_false_eq_true]

theorem renew (ha : h.Alike h') (base : Nat) (header : Header) :
    (h.renew base header).Alike (h'.renew base header) := (ha.forgetTags header).setHeader base header

theorem keepTag (ha : h.Alike h') (base granule : Nat) (tag : Cache.Tag) :
    (h.keepTag base granule tag).Alike (h'.keepTag base granule tag) := by
  unfold Heap.keepTag
  split
  · exact ha
  · simp only [ha.headerAt_eq, ha.size_chains_eq]
    apply Alike.setHeader
    refine { ha with headerAt_eq := ha.headerAt_eq, mem_chains_iff := fun reference => ?_,
                     size_chains_eq := ?_, null := ?_ }
    · simp only [Std.TreeMap.mem_insert, ha.mem_chains_iff]
    · simp only [Std.TreeMap.size_insert, ha.contains_chains_eq, ha.size_chains_eq]
    · rw [Std.TreeMap.mem_insert, Nat.compare_eq_eq]
      intro hzero
      rcases hzero with hcache | hmem
      · split at hcache
        · exact Reference.chain_ne_zero _ hcache
        · next hne => exact hne hcache
      · exact ha.null hmem

theorem keepTag_right (ha : h.Alike h') {base : Nat} (hm : (h.headerAt base).cache ∈ h.chains)
    (granule : Nat) (tag : Cache.Tag) : h.Alike (h'.keepTag base granule tag) := by
  have hlinked : (h.headerAt base).cache ≠ 0 := fun hzero => ha.null (hzero ▸ hm)
  unfold Heap.keepTag
  split
  · exact ha
  · simp only [ha.headerAt_eq, if_neg hlinked]
    refine { ha with headerAt_eq := fun a => ?_, mem_chains_iff := fun reference => ?_,
                     size_chains_eq := ?_ }
    · rw [headerAt_setHeader]
      split
      · next heq => rw [heq]
      · exact ha.headerAt_eq a
    · show reference ∈ h'.chains.insert _ _ ↔ _
      rw [Std.TreeMap.mem_insert, Nat.compare_eq_eq, ha.mem_chains_iff]
      exact ⟨fun hor => hor.elim (fun heq => heq ▸ hm) id, .inr⟩
    · show (h'.chains.insert _ _).size = _
      rw [Std.TreeMap.size_insert, ha.contains_chains_eq, if_pos (Std.TreeMap.mem_iff_contains.mp hm),
        ha.size_chains_eq]

end Alike

end Heap

namespace Guard

/-- The guards know the types of `registry`, and differ at most in the tags of their chains and in
what they counted of the ways of type checks. -/
structure Alike (registry : Registry) (g g' : Guard) : Prop where
  known : g.registry = registry
  registry_eq : g'.registry = g.registry
  config_eq : g'.config = g.config
  heap : g.heap.Alike g'.heap
  large_eq : g'.large = g.large
  memory_eq : g'.memory = g.memory
  journal_eq : g'.journal = g.journal
  halted_eq : g'.halted = g.halted
  tally_eq {c : Counter} (other : ¬ c.TellsWay) : g'.tally.get c = g.tally.get c

inductive Matches {α : Type} (registry : Registry) : α × Guard → α × Guard → Prop where
  | intro {answer : α} {g g' : Guard} (alike : g.Alike registry g') :
      Matches registry (answer, g) (answer, g')

theorem alike_refl {g : Guard} (null : 0 ∉ g.heap.chains) : g.Alike g.registry g :=
  ⟨rfl, rfl, rfl, Heap.alike_refl null, rfl, rfl, rfl, rfl, fun _ => rfl⟩

namespace Alike

variable {registry : Registry} {g g' : Guard}

theorem withHeap (ha : g.Alike registry g') {h h' : Heap} (hh : h.Alike h') :
    ({ g with heap := h } : Guard).Alike registry { g' with heap := h' } := { ha with heap := hh }

/-! ## Counting and writing -/

theorem bump (ha : g.Alike registry g') (c : Counter) :
    (g.bump c).Alike registry (g'.bump c) := by
  unfold Guard.bump counts
  rw [ha.halted_eq, ha.config_eq]
  split
  · exact ha
  · refine { ha with config_eq := rfl, halted_eq := rfl, tally_eq := fun other => ?_ }
    rw [Tally.get_countOnce, Tally.get_countOnce, ha.tally_eq other]

theorem get_bump_of_tellsWay {c d : Counter} (way : c.TellsWay) (other : ¬ d.TellsWay) (g : Guard) :
    (g.bump c).tally.get d = g.tally.get d :=
  g.get_bump_of_ne fun heq => other (heq ▸ way)

theorem bump_left (ha : g.Alike registry g') {c : Counter} (way : c.TellsWay) :
    (g.bump c).Alike registry g' := by
  rw [bump_eq]
  refine { ha with tally_eq := fun other => ?_ }
  rw [get_bump_of_tellsWay way other, ha.tally_eq other]

theorem bump_right (ha : g.Alike registry g') {c : Counter} (way : c.TellsWay) :
    g.Alike registry (g'.bump c) := by
  rw [bump_eq]
  refine { ha with tally_eq := fun other => ?_ }
  rw [get_bump_of_tellsWay way other, ha.tally_eq other]

theorem write (ha : g.Alike registry g') (line : Line) :
    (g.write line).Alike registry (g'.write line) := by
  unfold Guard.write
  rw [ha.halted_eq, ha.journal_eq]
  split
  · exact ha
  · exact { ha with journal_eq := rfl, halted_eq := rfl }

theorem trace (ha : g.Alike registry g') (line : Line) :
    (g.trace line).Alike registry (g'.trace line) := by
  unfold Guard.trace
  rw [ha.config_eq]
  split
  · exact ha.write line
  · exact ha

theorem halt (ha : g.Alike registry g') (line : Line) :
    (g.halt line).Alike registry (g'.halt line) := { ha.write line with halted_eq := rfl }

theorem report (ha : g.Alike registry g') (v : Violation) :
    (g.report v).Alike registry (g'.report v) := by
  have hw := (ha.bump v.fault.counter).write (.violation v)
  unfold Guard.report
  simp only [hw.config_eq]
  split
  · exact hw.halt .stopping
  · exact hw

end Alike

/-- No operation tells guards that are alike apart. -/
theorem congruence_alike (registry : Registry) : Congruence (Alike registry) where
  registry_eq ha := ha.registry_eq
  slots ha := ha.heap.sameSlots
  large_eq ha := ha.large_eq
  memory_eq ha := ha.memory_eq
  withRegions ha regions := ha.withHeap (ha.heap.withRegions regions)
  setHeader ha base header := ha.withHeap (ha.heap.setHeader base header)
  forgetTags ha header := ha.withHeap (ha.heap.forgetTags header)
  remember ha base granule tag := ha.withHeap (ha.heap.keepTag base granule tag)
  withLarge ha _ := { ha with large_eq := rfl }
  withMemory ha _ := { ha with memory_eq := rfl }
  note ha n := by
    cases n with
    | count c _ => exact ha.bump c
    | line l _ => exact ha.write l
    | trace l _ => exact ha.trace l
    | violation v => exact ha.report v
    | stop l _ => exact ha.halt l

end Guard

end TypedHeap
