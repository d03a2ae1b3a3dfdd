import TypedHeap.Proofs.SubObjects

/-! # Elements of flexible arrays

The layout of a type counts one element of its flexible array. An offset from the size of the type
on is folded into that element, so every element that starts there is found as the first one is. An
offset below the size is not: a later element that starts there, where the type ends in padding, is
found only if something else of its type lies at the same offset.
-/

namespace TypedHeap

open Layout (Entry)

/-- The element `k` of the flexible array of a type of `size` bytes is the first one, or does not
start below the size of the type. -/
def Field.Wraps (f : Field) (size elementSize k : Nat) : Prop :=
  k = 0 ∨ size ≤ f.offset + k * elementSize

/-- The offset of an element of a flexible array is folded to that of the first one, but for those
below the size of the type. -/
theorem TypeRecord.fold_flexible {record : TypeRecord} {k : Nat} (hpos : 0 < record.elementSize)
    (hbound : record.elementStart + k * record.elementSize < 2 ^ 26) :
    record.fold (record.elementStart + k * record.elementSize) =
      .ok (if record.elementStart + k * record.elementSize < record.size then
        record.elementStart + k * record.elementSize
      else record.elementStart) := by
  by_cases hbelow : record.elementStart + k * record.elementSize < record.size
  · rw [if_pos hbelow]
    exact fold_of_not_reduces fun h => absurd h.1 (Nat.not_le_of_lt hbelow)
  · have hreduces : record.Reduces (record.elementStart + k * record.elementSize) :=
      ⟨Nat.le_of_not_lt hbelow, Nat.ne_of_gt hpos⟩
    rw [if_neg hbelow, hreduces.fold_eq (Nat.le_add_right ..) (by omega), Nat.add_sub_cancel_left,
      Nat.mul_mod_left, Nat.add_zero]

/-- What holds of the first element of a flexible array holds of the folded offset of another one if
that wraps, or else if it holds of its own offset. -/
theorem TypeRecord.exists_fold_flexible {record : TypeRecord} {f : Field} {k : Nat}
    (hstart : record.elementStart = f.offset) (hpos : 0 < record.elementSize)
    (hbound : f.offset + k * record.elementSize < 2 ^ 26) :
    ∃ n, record.fold (f.offset + k * record.elementSize) = .ok n ∧
      ∀ P : Nat → Prop, P f.offset →
        (P n ↔ f.Wraps record.size record.elementSize k ∨
          P (f.offset + k * record.elementSize)) := by
  rw [← hstart] at hbound ⊢
  refine ⟨_, fold_flexible hpos hbound, fun P hfirst => ?_⟩
  unfold Field.Wraps
  rw [← hstart]
  split
  · next hbelow =>
    refine ⟨.inr, fun h => ?_⟩
    rcases h with (rfl | hwraps) | hthere
    · rw [Nat.zero_mul, Nat.add_zero]
      exact hfirst
    · omega
    · exact hthere
  · next hbehind => exact ⟨fun _ => .inl (.inr (Nat.le_of_not_lt hbehind)), fun _ => hfirst⟩

namespace Guard

open Catalog (Target)

variable {g : Guard} {c : Catalog} {t target : Target} {d : Declaration} {f : Field} {s : Slot}
  {header : Header} {p : Pointer} {expected : TypeHash} {registry : Registry}

theorem Stores.found_eq_nil_iff (hs : g.Stores s header t) (hr : g.Reachable) {record : TypeRecord}
    (hfind : g.registry.find? t.hash = some record) {raw offset : Nat}
    (haddress : p.address = s.user + raw) (hin : p.address < s.finish)
    (hfresh : p.isStale header.epoch = false) (hfold : record.fold raw = .ok offset)
    (expected : TypeHash) :
    (∃ b, (g.checkPointer p expected).1 = .ok b) ∧
    (g.found p expected = [] ↔ expected = .int8 ∨ (g.registry.entryFor? record
      (g.heap.chainOf header) expected offset).isSome = true) := by
  rw [found_eq hr.halted_eq, checkPointer_bounds, Option.toList_eq_nil_iff]
  by_cases hbyte : expected = .int8
  · rw [hbyte, hs.judge_int8 hr (by omega) hin hfresh]
    exact ⟨⟨_, rfl⟩, fun _ => .inl rfl, fun _ => rfl⟩
  · rw [hs.judge_ofOffset hr hfind haddress hin hfresh hbyte hfold]
    rcases Verdict.ofOffset_cases g.registry s header.size (g.heap.chainOf header) record
        p.address expected offset with ⟨x, hx, hpasses, hbounds⟩ | ⟨hnone, hfails, hbounds⟩
    · rw [hpasses, hx]
      exact ⟨⟨_, hbounds⟩, fun _ => .inr rfl, fun _ => rfl⟩
    · rw [hfails, hnone]
      exact ⟨⟨_, hbounds⟩, nofun, fun h => absurd h (by simp [hbyte])⟩

/-- The offset of an element of a flexible array is folded, and it is looked up with success iff the
element wraps, or something of its type lies at its offset by the declarations anyway. A check of an
element that lies in an object in use comes to an end, and passes iff the element wraps, or bytes are
checked for, or something that passes for its type lies there. -/
theorem flexible_element_found_iff (built : c.build = .ok registry) (known : c.Knows t)
    (declared : t.declaration = some d) (last : d.flexible = some f)
    (named : c.resolve d.name f.typeName = .ok target) (hpos : 0 < target.size) :
    ∃ record, registry.find? t.hash = some record ∧
      ∀ k, f.offset + k * target.size < 2 ^ 26 →
        (∃ n, record.fold (f.offset + k * target.size) = .ok n ∧
          ((∃ place e, record.lookup target.hash n = .hit place e) ↔
            f.Wraps t.size target.size k ∨
              ∃ o, c.Occurs t target.hash (f.offset + k * target.size) o)) ∧
        ∀ g : Guard, g.Reachable → g.registry = registry → ∀ s header p, g.Stores s header t →
          p.address = s.user + (f.offset + k * target.size) →
          f.offset + k * target.size + target.size ≤ header.size →
          p.isStale header.epoch = false →
          (∃ b, (g.checkPointer p target.hash).1 = .ok b) ∧
          (g.found p target.hash = [] ↔ f.Wraps t.size target.size k ∨ target.hash = .int8 ∨
            c.Admits t target.hash (f.offset + k * target.size)) := by
  obtain ⟨record, os, hfind, hos, htabulates, hstart, hstride, hsize⟩ :=
    Catalog.record_of_flexible built known declared last named
  have hfirst : c.Occurs t target.hash f.offset (.flexible f d.fields.length target) :=
    ⟨.flexible declared last named, List.mem_cons_self, rfl⟩
  rw [← hstride] at hpos
  refine ⟨record, hfind, fun k hk => ?_⟩
  rw [← hstride] at hk ⊢
  rw [← hsize]
  obtain ⟨n, hfold, hiff⟩ := TypeRecord.exists_fold_flexible hstart hpos hk
  refine ⟨⟨n, hfold, ?_⟩, ?_⟩
  · rw [htabulates.hit_iff hos]
    exact hiff (fun offset => ∃ o, c.Occurs t target.hash offset o) ⟨_, hfirst⟩
  · intro g hr hregistry s header p hs haddress hin hfresh
    subst hregistry
    have hend := (hs.spans hr).1
    obtain ⟨hreturns, hfound⟩ :=
      hs.found_eq_nil_iff hr hfind haddress (by omega) hfresh hfold target.hash
    refine ⟨hreturns, ?_⟩
    rw [hfound, htabulates.entryFor?_isSome_iff hos built,
      hiff (c.Admits t target.hash) ⟨_, _, .inl rfl, hfirst⟩]
    exact or_left_comm

end Guard

namespace Catalog

/-- Three steps, or more, of which the first two start in the padding of the type. -/
def run : Declaration :=
  (((Declaration.ofSize "struct run" 16).withField "start" "double" 0).withField "count" "int32_t"
    8).withFlexible "steps" "int16_t" 12

def runType : Target := ⟨run.typeHash NameHasher.spread, 16, none, some run⟩

def running : Catalog := ⟨NameHasher.spread, [run]⟩

def runningRegistry : Registry := running.build.toOption.get (by decide +kernel)

theorem running_build : running.build = .ok runningRegistry := ok_get (by decide +kernel)

theorem running_knows : running.Knows runType := .declared List.mem_cons_self rfl

theorem running_resolve :
    running.resolve run.name "int16_t" = .ok ⟨.ofName NameHasher.spread "int16_t", 2, none, none⟩ := rfl

end Catalog

namespace Guard

open Catalog (run runType running runningRegistry running_build running_knows running_resolve)

def unused : Guard :=
  (create ⟨false, false, false, false, 20, false⟩ runningRegistry 0x100000
    fun _ => 0).toOption.get (by decide +kernel)

theorem created_unused : create ⟨false, false, false, false, 20, false⟩ runningRegistry 0x100000
    (fun _ => 0) = .ok unused := rfl

def stepped : Guard := unused.perform (.allocate 24 (.ofName NameHasher.spread "struct run") .opening)

theorem run_stepped :
    unused.Run [.allocate 24 (.ofName NameHasher.spread "struct run") .opening] stepped :=
  .step (by decide +kernel) (by decide +kernel) (.done stepped)

theorem reachable_stepped : stepped.Reachable :=
  .of created_unused (by decide +kernel) run_stepped

theorem stepped_registry : stepped.registry = runningRegistry := by
  rw [run_stepped.registry_eq (create_kept created_unused).1, (create_kept created_unused).2.1]

theorem stepped_stores : ∃ header, stepped.Stores ⟨4, 0x500000, 80⟩ header runType ∧
    header.size = 24 := by
  have hres : stepped.heap.resolve? 0x500030 = some ⟨4, 0x500000, 80⟩ := by decide +kernel
  obtain ⟨r, hslot, _⟩ := reachable_stepped.kept.framed.resolve?_eq_some_iff.mp hres
  have hfields : (stepped.heap.live? ⟨4, 0x500000, 80⟩).map (fun h => (h.owner, h.size)) =
      some (stepped.registry.reference runType.hash, 24) := by decide +kernel
  obtain ⟨header, hl, hfields⟩ := Option.map_eq_some_iff.mp hfields
  obtain ⟨howner, hsize⟩ := Prod.mk.inj hfields
  exact ⟨header, ⟨⟨r, hslot⟩, hl, howner⟩, hsize⟩

/-- The third step starts where the type ends. -/
theorem third_step_found : running.build = .ok runningRegistry ∧ running.Knows runType ∧
    stepped.Reachable ∧ (∃ header, stepped.Stores ⟨4, 0x500000, 80⟩ header runType) ∧
      stepped.found (.untracked 0x500040) (.ofName NameHasher.spread "int16_t") = [] := by
  obtain ⟨header, hs, hsize⟩ := stepped_stores
  obtain ⟨record, _, hfound⟩ :=
    flexible_element_found_iff running_build running_knows rfl rfl running_resolve (by decide)
  refine ⟨running_build, running_knows, reachable_stepped, ⟨header, hs⟩, ?_⟩
  have hpasses := (hfound 2 (by decide)).2 stepped reachable_stepped stepped_registry _ header
    (.untracked 0x500040) hs rfl (by rw [hsize]; decide) rfl
  exact hpasses.2.mpr (.inl (.inr (by decide)))

/-- The second step starts in the padding of the type, and is not found. -/
theorem second_step_missed : running.build = .ok runningRegistry ∧ running.Knows runType ∧
    runType.declaration = some run ∧ run.flexible = some ⟨"steps", "int16_t", 12, 0⟩ ∧
      running.resolve run.name "int16_t" = .ok ⟨.ofName NameHasher.spread "int16_t", 2, none, none⟩ ∧
      (runningRegistry.find? runType.hash).map (fun record =>
        (record.fold (12 + 1 * 2)).map (record.lookup (.ofName NameHasher.spread "int16_t"))) =
          some (.ok .miss) ∧
      stepped.Reachable ∧
      (∃ header, stepped.Stores ⟨4, 0x500000, 80⟩ header runType ∧ header.size = 24) ∧
      stepped.found (.untracked (0x500030 + (12 + 1 * 2))) (.ofName NameHasher.spread "int16_t") =
        [.type 0x50003E "int16_t" "struct run.steps[1]"] :=
  ⟨running_build, running_knows, rfl, rfl, running_resolve, by decide +kernel, reachable_stepped,
    stepped_stores, by decide +kernel⟩

end Guard

end TypedHeap
