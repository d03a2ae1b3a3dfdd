import TypedHeap.Proofs.Folding
import TypedHeap.Proofs.Runs

/-! # Sub-objects

A check of a pointer into an object passes iff an object of the expected type, or of the type that
it is coerced to, lies there by the declaration of the object's type. It answers the range of the
field around it.
-/

namespace TypedHeap

/-- Where an offset into an object comes to lie in its first element. -/
def Catalog.Target.fold (t : Target) (raw : Nat) : Nat := if t.size = 0 then raw else raw % t.size

theorem Catalog.Target.fold_le (t : Target) (raw : Nat) : t.fold raw ≤ raw := by
  unfold fold
  split
  · exact Nat.le_refl raw
  · exact Nat.mod_le raw t.size

theorem TypeRecord.fold_of_stride {record : TypeRecord} {t : Catalog.Target}
    (hstart : record.elementStart = 0) (hstride : record.elementSize = t.size)
    (hsize : record.size = t.size) {raw : Nat} (hraw : raw < 2 ^ 31) :
    record.fold raw = .ok (t.fold raw) := by
  rw [Catalog.Target.fold]
  by_cases hreduces : record.Reduces raw
  · have hne := hstride ▸ hreduces.2
    rw [hreduces.fold_eq (hstart ▸ Nat.zero_le raw) hraw, hstart, hstride, Nat.zero_add,
      Nat.sub_zero, if_neg hne]
  · rw [fold_of_not_reduces hreduces]
    by_cases hzero : t.size = 0
    · rw [if_pos hzero]
    · have hfirst : raw < t.size := by
        rw [Reduces, hsize, hstride] at hreduces
        omega
      rw [if_neg hzero, Nat.mod_eq_of_lt hfirst]

theorem Bounds.intersect_clamped (start finish : Nat) {b : Bounds} (hordered : b.lower ≤ b.upper)
    (hlast : b.upper ≤ Word.last) :
    (⟨min start Word.last, min finish Word.last⟩ : Bounds).intersect b =
      (⟨start, finish⟩ : Bounds).intersect b := by
  simp only [intersect, emptyAt]
  split
  · split
    · rw [mk.injEq]
      omega
    · rw [mk.injEq]
      omega
  · split
    · rw [mk.injEq]
      omega
    · rw [mk.injEq]
      omega

namespace Occurrence

/-- What a check allows of an object in the element at `element`, if `whole` are the bytes of the
allocation around it. -/
def bounds (element : Nat) (whole : Bounds) (o : Occurrence) : Bounds :=
  match o.field with
  | none => whole
  | some (start, finish) => (⟨element + start, element + finish⟩ : Bounds).intersect whole

/-- The reach of an object covers the range of its field in the element around the address. -/
theorem intersect_reach (o : Occurrence) {address : Nat} {b : Bounds}
    (hoffset : o.offset ≤ address) (hordered : b.lower ≤ b.upper) (hlast : b.upper ≤ Word.last)
    (hbelow : address ≤ b.lower + 2 ^ 34) (habove : b.upper ≤ address + 2 ^ 34) :
    (Bounds.around address o.reach).intersect b = o.bounds (address - o.offset) b := by
  cases hfield : o.field with
  | none =>
      have hlower : Bounds.clampedAt address (-Reach.halfWidth) ≤ b.lower := by
        simp only [Bounds.clampedAt, Reach.halfWidth]
        omega
      have hupper : b.upper ≤ Bounds.clampedAt address Reach.halfWidth := by
        simp only [Bounds.clampedAt, Reach.halfWidth]
        omega
      simp only [reach, bounds, hfield, Reach.wide, Bounds.around, Bounds.intersect,
        Nat.max_eq_right hlower, Nat.min_eq_right hupper, if_pos hordered]
  | some range =>
      obtain ⟨start, finish⟩ := range
      have hstart : ((address : Int) + ((start : Int) - o.offset)).toNat =
          address - o.offset + start := by omega
      have hfinish : ((address : Int) + ((finish : Int) - o.offset)).toNat =
          address - o.offset + finish := by omega
      simp only [reach, bounds, hfield, Bounds.around, Bounds.clampedAt, hstart, hfinish]
      exact Bounds.intersect_clamped _ _ hordered hlast

end Occurrence

namespace Guard

variable {g : Guard} {s : Slot} {header : Header} {t : Catalog.Target} {p : Pointer}
  {expected : TypeHash}

/-- An object of the type is in use in the slot, under `header`. -/
structure Stores (g : Guard) (s : Slot) (header : Header) (t : Catalog.Target) : Prop where
  slot : ∃ r, g.heap.IsSlot s r
  live : g.heap.live? s = some header
  typed : header.owner = g.registry.reference t.hash

theorem Reachable.stores (hr : g.Reachable) {a : Nat} (hres : g.heap.resolve? a = some s)
    (howner : (g.heap.live? s).map (·.owner) = some (g.registry.reference t.hash)) :
    ∃ header, g.Stores s header t := by
  obtain ⟨r, hslot, _⟩ := hr.kept.framed.resolve?_eq_some_iff.mp hres
  obtain ⟨header, hlive, htyped⟩ := Option.map_eq_some_iff.mp howner
  exact ⟨header, ⟨r, hslot⟩, hlive, htyped⟩

/-- The object and the rest of its slot lie in the address space, within the reach of whole
objects. -/
theorem Stores.spans (hs : g.Stores s header t) (hr : g.Reachable) :
    s.user + header.size ≤ s.finish ∧ s.finish ≤ Word.last ∧ s.finish < s.user + 2 ^ 31 := by
  have k := hr.kept
  obtain ⟨r, hslot⟩ := hs.slot
  obtain ⟨hu, _⟩ := k.inUse_of_live hslot hs.live
  obtain ⟨hcarves, _⟩ := (k.live?_eq_some_iff hslot).mp hs.live
  have hsound := k.framed.sound hslot.region_eq
  have hfits := hu.size_le
  have hsize := hslot.size_eq
  have hlargest := hsound.size_le
  have hpos := hsound.size_pos
  have hend : s.base + r.size ≤ r.windowEnd :=
    calc s.base + r.size ≤ r.next := hsound.carved_finish_le hcarves
      _ ≤ r.finish := hsound.next_le
      _ ≤ r.windowEnd := hsound.finish_le
  have hstart := hcarves.1.1
  have hlast : g.heap.contains (s.finish - 1) = true := by
    apply k.framed.contains_of_mem hslot.region_eq
    all_goals
      unfold Slot.finish
      omega
  have hrange := ((Reservation.contains_iff ..).mp hlast).2
  have hfinish := hr.finish_lt
  simp only [Slot.user, Slot.finish, SizeClass.largest, Word.last, Heap.start] at *
  omega

theorem Stores.judge_eq (hs : g.Stores s header t) (hr : g.Reachable) {record : TypeRecord}
    (hfind : g.registry.find? t.hash = some record) (hlow : s.user ≤ p.address)
    (hhigh : p.address < s.finish) (hfresh : p.isStale header.epoch = false)
    (hexpected : expected ≠ .int8) :
    g.judge p expected =
      .ofType g.registry s header.size (g.heap.chainOf header) record p.address expected := by
  have k := hr.kept
  obtain ⟨r, hslot⟩ := hs.slot
  have hres := k.framed.resolve?_of_carved (k.carved_of_live hslot hs.live) hlow hhigh
  have hreferred : g.registry.referred? header.owner = some record := by
    rw [hs.typed, Registry.referred?_reference, hfind]
  exact PointsInto.judge_eq ⟨hres, hs.live, hreferred⟩ k hlow hfresh hexpected

theorem Stores.judge_int8 (hs : g.Stores s header t) (hr : g.Reachable) (hlow : s.user ≤ p.address)
    (hhigh : p.address < s.finish) (hfresh : p.isStale header.epoch = false) :
    g.judge p .int8 = .pass [.charTypeChecks] (s.object header.size) := by
  have k := hr.kept
  obtain ⟨r, hslot⟩ := hs.slot
  have hres := k.framed.resolve?_of_carved (k.carved_of_live hslot hs.live) hlow hhigh
  have hheader : ¬ s.inHeader p.address = true := by simpa [Slot.inHeader] using hlow
  rw [judge_of_live k hslot hres hs.live, hfresh, if_neg Bool.false_ne_true, Verdict.ofLive]
  simp only [if_neg hheader, if_true]

theorem Stores.judge_ofOffset (hs : g.Stores s header t) (hr : g.Reachable) {record : TypeRecord}
    (hfind : g.registry.find? t.hash = some record) {raw offset : Nat}
    (haddress : p.address = s.user + raw) (hin : p.address < s.finish)
    (hfresh : p.isStale header.epoch = false) (hexpected : expected ≠ .int8)
    (hfold : record.fold raw = .ok offset) :
    g.judge p expected = .ofOffset g.registry s header.size (g.heap.chainOf header) record
      p.address expected offset := by
  have hraw : p.address - s.user = raw := by omega
  rw [hs.judge_eq hr hfind (by omega) hin hfresh hexpected]
  exact Verdict.ofType_of_fold (hraw.symm ▸ hfold)

/-- In every reachable state, a check of a pointer into an object of a type that has no flexible
array passes iff the declarations place an object of the expected type, or of its coercion, at the
offset in the element. It allows the field around the object picked; or else it reports one type
error and allows nothing. -/
theorem checkPointer_decides_spots (hr : g.Reachable) {c : Catalog}
    (built : c.build = .ok g.registry) (known : c.Knows t) (rigid : t.Rigid)
    (hs : g.Stores s header t) {raw : Nat} (haddress : p.address = s.user + raw)
    (hin : p.address < s.finish) (hfresh : p.isStale header.epoch = false)
    (hexpected : expected ≠ .int8) :
    (g.found p expected = [] ↔ c.Admits t expected (t.fold raw)) ∧
    (c.Admits t expected (t.fold raw) → ∃ hash o, c.Picks t expected (t.fold raw) hash o ∧
      (∀ hash' other, c.Picks t expected (t.fold raw) hash' other → other = o) ∧
      (g.checkPointer p expected).1 =
        .ok (o.bounds (p.address - t.fold raw) (s.object header.size))) ∧
    (¬ c.Admits t expected (t.fold raw) → ∃ text, g.found p expected =
        [.type p.address (g.registry.nameOf expected) text] ∧
      (g.checkPointer p expected).1 = .ok (.emptyAt p.address)) := by
  obtain ⟨record, os, hfind, hos, htabulates, hstart, hstride, hsize⟩ :=
    Catalog.record_of_rigid built known rigid
  obtain ⟨hfits, hlast, hreach⟩ := hs.spans hr
  have hle := t.fold_le raw
  have hraw : raw < 2 ^ 31 := by omega
  have hfold := TypeRecord.fold_of_stride hstart hstride hsize hraw
  have hcases := Verdict.ofOffset_cases g.registry s header.size (g.heap.chainOf header) record
    p.address expected (t.fold raw)
  rw [found_eq hr.halted_eq, checkPointer_bounds,
    hs.judge_ofOffset hr hfind haddress hin hfresh hexpected hfold]
  rcases htabulates.entryFor?_cases hos built (g.heap.chainOf header) expected (t.fold raw) with
    ⟨hash, o, hpicks, hentry⟩ | ⟨hnone, hentry⟩
  · rcases hcases with ⟨e, he, hviolation, hbounds⟩ | ⟨hmissing, _⟩
    · obtain rfl := Option.some.inj (hentry.symm.trans he)
      have hoffset := hpicks.foremost.occurs.offset_eq
      rw [hviolation, hbounds]
      refine ⟨⟨fun _ => hpicks.admits, fun _ => rfl⟩,
        fun _ => ⟨hash, o, hpicks, fun _ _ hother => hpicks.unique built hother, ?_⟩,
        fun hnot => absurd hpicks.admits hnot⟩
      rw [← hoffset]
      refine congrArg Except.ok (o.intersect_reach (by omega) (Nat.le_add_right ..) ?_ ?_ ?_)
      all_goals
        simp only [Slot.object]
        omega
    · exact absurd (hentry.symm.trans hmissing) (Option.some_ne_none _)
  · rcases hcases with ⟨e, he, _⟩ | ⟨_, hviolation, hbounds⟩
    · exact absurd (he.symm.trans hentry) (Option.some_ne_none _)
    · rw [hviolation, hbounds]
      exact ⟨⟨fun hpass => absurd hpass (List.cons_ne_nil _ _), fun hadmits => absurd hadmits hnone⟩,
        fun hadmits => absurd hadmits hnone, fun _ => ⟨_, rfl, rfl⟩⟩

end Guard

namespace Catalog

def pair : Declaration :=
  ((Declaration.ofSize "struct pair" 12).withField "n" "int32_t" 0).withArray "data" "int32_t" 4 2

def outer : Declaration :=
  ((Declaration.ofSize "struct outer" 32).withField "d" "double" 0).withArray "p" "struct pair" 8 2

def outerType : Target := ⟨outer.typeHash NameHasher.spread, 32, none, some outer⟩

def nested : Catalog := ⟨NameHasher.spread, [pair, outer]⟩

def nestedRegistry : Registry := nested.build.toOption.get (by decide +kernel)

theorem nested_build : nested.build = .ok nestedRegistry := ok_get (by decide +kernel)

theorem nested_knows : nested.Knows outerType :=
  .declared (List.mem_cons_of_mem _ List.mem_cons_self) rfl

theorem rigid_outerType : outerType.Rigid := by
  rintro d ⟨⟩
  rfl

theorem nested_admits : nested.Admits outerType (.ofName NameHasher.spread "int32_t") 24 := by
  have hpair : nested.resolve outer.name "struct pair" =
      .ok ⟨pair.typeHash NameHasher.spread, 12, none, some pair⟩ := rfl
  have hint : nested.resolve pair.name "int32_t" =
      .ok ⟨.ofName NameHasher.spread "int32_t", 4, some .sharedInt32, none⟩ := rfl
  have hinner : nested.Places pair _ := .element (i := 1) (k := 0) rfl hint (by decide)
  have houter : nested.Places outer _ := .within (i := 1) (k := 1) rfl hpair (by decide) rfl hinner
  exact ⟨_, _, .inl rfl, .part ⟨outer, rfl, houter⟩, List.mem_cons_self, rfl⟩

end Catalog

namespace Guard

open Catalog (nested nestedRegistry outerType)

def vacant : Guard :=
  (create ⟨false, false, false, false, 20, false⟩ nestedRegistry 0x100000
    fun _ => 0).toOption.get (by decide +kernel)

theorem created_vacant : create ⟨false, false, false, false, 20, false⟩ nestedRegistry 0x100000
    (fun _ => 0) = .ok vacant := rfl

def filled : Guard := vacant.perform (.allocate 64 (.ofName NameHasher.spread "struct outer") .opening)

theorem run_filled :
    vacant.Run [.allocate 64 (.ofName NameHasher.spread "struct outer") .opening] filled :=
  .step (by decide +kernel) (by decide +kernel) (.done filled)

theorem reachable_filled : filled.Reachable := .of created_vacant (by decide +kernel) run_filled

theorem filled_build : Catalog.nested.build = .ok filled.registry := by
  rw [run_filled.registry_eq (create_kept created_vacant).1, (create_kept created_vacant).2.1]
  exact Catalog.nested_build

theorem filled_decides_spots :
    nested.build = .ok filled.registry ∧ nested.Knows outerType ∧ outerType.Rigid ∧
      (∃ header, filled.Stores ⟨6, 0x700000, 112⟩ header outerType) ∧
      nested.Admits outerType (.ofName NameHasher.spread "int32_t") (outerType.fold 56) ∧
      filled.found (.untracked 0x700068) (.ofName NameHasher.spread "int32_t") = [] := by
  have hres : filled.heap.resolve? 0x700030 = some ⟨6, 0x700000, 112⟩ := by decide +kernel
  obtain ⟨r, hslot, _⟩ := reachable_filled.kept.framed.resolve?_eq_some_iff.mp hres
  have howner : (filled.heap.live? ⟨6, 0x700000, 112⟩).map (·.owner) =
      some (filled.registry.reference outerType.hash) := by decide +kernel
  obtain ⟨header, hlive, htyped⟩ := Option.map_eq_some_iff.mp howner
  have hs : filled.Stores ⟨6, 0x700000, 112⟩ header outerType := ⟨⟨r, hslot⟩, hlive, htyped⟩
  have haddress : (Pointer.untracked 0x700068).address = Slot.user ⟨6, 0x700000, 112⟩ + 56 := rfl
  have hexpected : TypeHash.ofName NameHasher.spread "int32_t" ≠ .int8 := by decide
  obtain ⟨hfound, _⟩ := checkPointer_decides_spots reachable_filled filled_build
    Catalog.nested_knows Catalog.rigid_outerType hs haddress (by decide) rfl hexpected
  exact ⟨filled_build, Catalog.nested_knows, Catalog.rigid_outerType, ⟨header, hs⟩,
    Catalog.nested_admits, hfound.mpr Catalog.nested_admits⟩

end Guard

end TypedHeap
