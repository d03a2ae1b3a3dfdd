import TypedHeap.Proofs.Layouts
import TypedHeap.Proofs.Ownership
import TypedHeap.Proofs.SubObjects

/-! # Room for an object

What a check answers when it passes is never too narrow: wherever an object of the expected type is
found, under its own hash or that of a coercion, the field around it reaches over its whole size. So
an access of that size within the allocation is in bounds. Types are coerced to types of their size
only.
-/

namespace TypedHeap

namespace Bounds

theorem admits_iff {b : Bounds} {address : Nat} {lb ub : Int} :
    b.admits address lb ub = true ↔ (b.lower : Int) ≤ address + lb ∧ address + ub ≤ b.upper := by
  simp [admits]

theorem admits_intersect {b c : Bounds} {address : Nat} {n : Nat}
    (hb : b.admits address 0 n = true) (hc : c.admits address 0 n = true) :
    (b.intersect c).admits address 0 n = true := by
  rw [admits_iff] at *
  have hordered : max b.lower c.lower ≤ min b.upper c.upper := by omega
  simp only [intersect, if_pos hordered]
  omega

theorem admits_around {address n : Nat} {reach : Reach} (hlower : reach.lower ≤ 0)
    (hupper : n ≤ reach.upper) (hlast : address + n ≤ Word.last) :
    (around address reach).admits address 0 n = true := by
  rw [admits_iff]
  simp only [around, clampedAt]
  omega

end Bounds

namespace Reach

def Covers (r : Reach) (n : Nat) : Prop := r.lower ≤ 0 ∧ (n : Int) ≤ r.upper

theorem covers_wide {n : Nat} (hn : n < 2 ^ 31) : wide.Covers n := by
  simp only [Covers, wide, halfWidth]
  omega

end Reach

namespace Catalog

open Layout (Entry)

variable {c : Catalog} {d : Declaration} {t u e : Target} {o : Occurrence} {registry : Registry}
  {record : TypeRecord} {hash : TypeHash}

/-- Every type has the size of the type that it is coerced to. -/
def CoercesEvenly (c : Catalog) : Prop :=
  ∀ t u, c.Knows t → c.Knows u → t.coercion = some u.hash → u.size = t.size

theorem Places.room {p : Part} (h : c.Places d p) :
    p.start ≤ p.offset ∧ p.offset + p.target.size ≤ p.finish := by
  induction h with
  | @element d f i k target _ _ bound =>
      have hlast : (k + 1) * target.size ≤ f.count * target.size := Nat.mul_le_mul_right _ bound
      rw [Nat.succ_mul] at hlast
      simp only [Field.part]
      omega
  | within _ _ _ _ _ ih =>
      simp only [Part.under]
      omega

/-- Around everything that a type contains there is room for it. -/
theorem Contains.room (h : c.Contains t o) : o.reach = .wide ∨ o.reach.Covers o.target.size := by
  cases h with
  | whole => exact .inl rfl
  | part held =>
      obtain ⟨_, _, hplaces⟩ := held
      have hroom := hplaces.room
      refine .inr ⟨?_, ?_⟩ <;> simp only [Occurrence.ofPart, Occurrence.reach] <;> omega
  | flexible => exact .inl rfl
  | within _ _ _ inner =>
      obtain ⟨_, _, hplaces⟩ := inner
      have hroom := hplaces.room
      refine .inr ⟨?_, ?_⟩ <;> simp only [Occurrence.ofPart, Occurrence.reach, Part.under] <;> omega

/-! ## Sizes -/

theorem Built.size_eq {shapes : Shapes} {records : List TypeRecord}
    (h : c.Built shapes records registry) (ht : c.Knows t) (hu : c.Knows u)
    (hash_eq : t.hash = u.hash) : t.size = u.size := by
  obtain ⟨record, _, hfind, hdescribes⟩ := h.find?_of_knows ht
  obtain ⟨record', _, hfind', hdescribes'⟩ := h.find?_of_knows hu
  rw [hash_eq, hfind', Option.some.injEq] at hfind
  rw [← hdescribes.size_eq, ← hdescribes'.size_eq, hfind]

theorem Built.knows_coercion {shapes : Shapes} {records : List TypeRecord}
    (h : c.Built shapes records registry) (ht : c.Knows t) (hcoercion : t.coercion = some hash) :
    ∃ u, c.Knows u ∧ u.hash = hash := by
  cases ht with
  | @builtin b listed =>
      obtain ⟨b', listed', hgiven, _⟩ := Builtin.coercion_listed b listed hash hcoercion
      exact ⟨_, .builtin listed', Builtin.hash_of_given hgiven c.hasher⟩
  | @declared d coercion listed coerced =>
      simp only at hcoercion
      subst hcoercion
      unfold coercionOf at coerced
      split at coerced
      · have hshared := Except.ok.inj coerced
        split at hshared
        · have hlisted : ⟨"<coerced pointer>", 8, some .sharedPointer, none⟩ ∈ Builtin.all := by
            simp [Builtin.all]
          exact ⟨_, .builtin hlisted, Option.some.inj hshared⟩
        · cases hshared
      · split at coerced
        · next d' hd' =>
          have hlisted := (mem_of_find? hd').1
          obtain ⟨_, _, hrecord⟩ := h.recordOf_mem hlisted
          obtain ⟨coercion', hcoercion', _⟩ := h.describes hlisted hrecord
          exact ⟨_, .declared hlisted hcoercion', Option.some.inj (Except.ok.inj coerced)⟩
        · next b _ hb =>
          exact ⟨_, .builtin (List.mem_of_find?_eq_some hb),
            Option.some.inj (Except.ok.inj coerced)⟩
        · cases coerced

/-- An object that passes for one of the type `e`, or of the coercion of that, has its size. -/
theorem CoercesEvenly.size_eq (even : c.CoercesEvenly) {shapes : Shapes}
    {records : List TypeRecord} (h : c.Built shapes records registry) (known : c.Knows e)
    (hu : c.Knows u) (named : hash ∈ u.hashes) (expected : hash = e.hash ∨ e.coercion = some hash) :
    u.size = e.size := by
  rcases List.mem_cons.mp named with rfl | hcoerced
  · rcases expected with heq | hcoercion
    · exact h.size_eq hu known heq
    · exact even e u known hu hcoercion
  · have hu' : u.coercion = some hash := Option.mem_toList.mp hcoerced
    rcases expected with rfl | hcoercion
    · exact (even u e hu known hu').symm
    · obtain ⟨v, hv, rfl⟩ := h.knows_coercion known hcoercion
      exact (even u v hu hv hu').symm.trans (even e v known hv hcoercion)

theorem coercesEvenly_of_records (built : c.build = .ok registry)
    (h : ∀ record ∈ registry.records, ∀ coerced ∈ record.coercion.bind registry.find?,
      coerced.size = record.size) : c.CoercesEvenly := by
  obtain ⟨shapes, records, hbuilt⟩ := build_eq_ok built
  intro t u ht hu hcoercion
  obtain ⟨record, hmem, _, hdescribes⟩ := hbuilt.find?_of_knows ht
  obtain ⟨coerced, _, hfind, hdescribes'⟩ := hbuilt.find?_of_knows hu
  rw [← hdescribes.size_eq, ← hdescribes'.size_eq]
  refine h record hmem coerced ?_
  rw [hdescribes.coercion_eq, hcoercion]
  exact hfind

theorem coercesEvenly_nested : nested.CoercesEvenly :=
  coercesEvenly_of_records nested_build (by decide +kernel)

/-! ## Entries -/

/-- The entry that a check finds reaches over an object of the expected type. -/
theorem covers_of_entryFor? (built : c.build = .ok registry) (even : c.CoercesEvenly)
    (known : c.Knows e) (hr : record ∈ registry.records) {cache : Cache.Chain} {offset : Nat}
    {x : Entry} (hx : registry.entryFor? record cache e.hash offset = some x)
    (hsize : e.size < 2 ^ 31) : x.reach.Covers e.size := by
  obtain ⟨shapes, records, h⟩ := build_eq_ok built
  obtain ⟨t, os, hknown, hos, htabulates⟩ := tabulates_of_mem built hr
  obtain ⟨expected, _, hfind, hdescribes⟩ := h.find?_of_knows known
  obtain ⟨hash, o, hpicks, rfl⟩ := htabulates.picks_of_entryFor? hos built hx
  have hexpected : hash = e.hash ∨ e.coercion = some hash := by
    refine hpicks.hash_eq.imp_right fun hcoerced => ?_
    have hsome := (coerces_iff built).mp hcoerced.1
    rwa [hfind, Option.bind_some, hdescribes.coercion_eq] at hsome
  have hoccurs := hpicks.foremost.occurs
  have hcontained := hoccurs.contained
  have hequal := even.size_eq h known (hcontained.knows hknown) hoccurs.named hexpected
  show o.reach.Covers e.size
  rcases hcontained.room with hwide | hcovers
  · rw [hwide]
    exact Reach.covers_wide hsize
  · rw [← hequal]
    exact hcovers

end Catalog

namespace Guard

open Catalog (Target)

variable {g : Guard} {c : Catalog} {s : Slot} {b : Bounds} {p : Pointer} {expected : TypeHash}

theorem Holds.stores (hh : g.Holds s b) (k : g.heap.Kept g.registry)
    (built : c.build = .ok g.registry) :
    ∃ t, c.Knows t ∧ g.Stores s (g.heap.headerAt s.base) t := by
  obtain ⟨shapes, records, h⟩ := Catalog.build_eq_ok built
  obtain ⟨r, hs, _⟩ := hh.carved
  have hl := hh.live? k
  obtain ⟨owner, howner, href⟩ := (k.inUse_of_live hs hl).1.owned
  obtain ⟨hfind, hfree⟩ := Option.filter_eq_some_iff.mp howner
  rw [Registry.find?, if_neg (of_decide_eq_true hfree)] at hfind
  obtain ⟨t, known, hdescribes⟩ := h.known_of_mem (List.mem_of_find?_eq_some hfind)
  exact ⟨t, known, ⟨r, hs⟩, hl, hdescribes.hash_eq ▸ href⟩

/-- A check of a pointer to `n` bytes of an object passes at foreign memory, which is trusted, or in
the slot of the object. -/
theorem Holds.resolve?_of_judge (hh : g.Holds s b) (k : g.heap.Kept g.registry) {r : Nat}
    (haddress : p.address = b.lower + r) (hin : r ≤ b.length)
    (hpass : (g.judge p expected).violation = none) :
    g.heap.resolve? p.address = none ∨
      g.heap.resolve? p.address = some s ∧ s.user ≤ p.address ∧ p.address < s.finish ∧
        p.isStale (g.heap.headerAt s.base).epoch = false := by
  cases hres : g.heap.resolve? p.address with
  | none => exact .inl rfl
  | some t =>
      obtain ⟨huser, header, hl, hfresh⟩ := live_of_judge k hres hpass
      obtain ⟨q, ht, htlow, hthigh, htend⟩ := k.framed.resolve?_eq_some_iff.mp hres
      have hlive := hh.live? k
      obtain ⟨r', hs, hcarves⟩ := hh.carved
      have hfits := (k.inUse_of_live hs hlive).1.size_le
      have hsize := hs.size_eq
      rw [hh.bounds_eq] at haddress hin
      simp only [Bounds.length, Slot.object, Slot.user] at haddress hin huser
      -- the byte in front of the address lies in both slots
      have hbefore : g.heap.resolve? (p.address - 1) = some s :=
        k.framed.resolve?_of_carves hs hcarves (by unfold headerSize at *; omega)
          (by unfold Slot.finish headerSize at *; omega)
      have hbefore' : g.heap.resolve? (p.address - 1) = some t :=
        k.framed.resolve?_of_mem ht (by unfold headerSize at *; omega) (by omega) (by omega)
      obtain rfl := Option.some.inj (hbefore.symm.trans hbefore')
      obtain rfl := Option.some.inj (hlive.symm.trans hl)
      exact .inr ⟨rfl, huser, hthigh, hfresh⟩

theorem Holds.admits (hh : g.Holds s b) (hr : g.Reachable) (built : c.build = .ok g.registry)
    (even : c.CoercesEvenly) {e : Target} (known : c.Knows e) {r : Nat}
    (haddress : p.address = b.lower + r) (hfits : r + e.size ≤ b.length) {allowed : Bounds}
    (hanswer : (g.judge p e.hash).bounds = .ok allowed)
    (hpass : (g.judge p e.hash).violation = none) : allowed.admits p.address 0 e.size = true := by
  have k := hr.kept
  obtain ⟨t, hknown, hstores⟩ := hh.stores k built
  obtain ⟨hobject, hlast, hspan⟩ := hstores.spans hr
  have hlower : b.lower = s.user := congrArg Bounds.lower hh.bounds_eq
  have hlength : b.length = (g.heap.headerAt s.base).size := by
    rw [hh.bounds_eq]
    exact Nat.add_sub_cancel_left ..
  have hsize : e.size < 2 ^ 31 := by omega
  have hend : p.address + e.size ≤ Word.last := by omega
  have hwhole : (s.object (g.heap.headerAt s.base).size).admits p.address 0 e.size = true := by
    rw [Bounds.admits_iff]
    simp only [Slot.object]
    omega
  -- the end of the object may be foreign memory, where everything is allowed
  rcases hh.resolve?_of_judge k haddress (by omega) hpass with
    hforeign | ⟨_, huser, hfinish, hfresh⟩
  · rw [judge_foreign hforeign] at hanswer
    obtain rfl := Except.ok.inj hanswer
    obtain ⟨hwideLower, hwideUpper⟩ := Reach.covers_wide hsize
    exact Bounds.admits_around hwideLower hwideUpper hend
  · by_cases hbyte : e.hash = .int8
    · rw [hbyte, hstores.judge_int8 hr huser hfinish hfresh] at hanswer
      obtain rfl := Except.ok.inj hanswer
      exact hwhole
    · obtain ⟨shapes, records, h⟩ := Catalog.build_eq_ok built
      obtain ⟨record, hmem, hfind, _⟩ := h.find?_of_knows hknown
      rw [hstores.judge_eq hr hfind huser hfinish hfresh hbyte] at hpass hanswer
      obtain ⟨offset, hfold⟩ := Verdict.fold_of_answer hanswer
      rw [Verdict.ofType_of_fold hfold] at hpass hanswer
      rcases Verdict.ofOffset_cases g.registry s (g.heap.headerAt s.base).size
          (g.heap.chainOf (g.heap.headerAt s.base)) record p.address e.hash offset with
        ⟨x, hx, _, hbounds⟩ | ⟨_, hviolation, _⟩
      · obtain ⟨hxlower, hxupper⟩ := Catalog.covers_of_entryFor? built even known hmem hx hsize
        obtain rfl := Except.ok.inj (hbounds.symm.trans hanswer)
        exact Bounds.admits_intersect (Bounds.admits_around hxlower hxupper hend) hwhole
      · exact absurd (hviolation.symm.trans hpass) (Option.some_ne_none _)

/-- If all types have the size of the type they are coerced to, then whatever a passed check of a
pointer into an object in use answers, an access of the size of the expected type within the object
is not reported. -/
theorem checkBounds_of_passed (hr : g.Reachable) (built : c.build = .ok g.registry)
    (even : c.CoercesEvenly) (hh : g.Holds s b) {e : Target} (known : c.Knows e) {r : Nat}
    (haddress : p.address = b.lower + r) (hfits : r + e.size ≤ b.length) {allowed : Bounds}
    (hanswer : (g.checkPointer p e.hash).1 = .ok allowed) (hpass : g.found p e.hash = []) :
    ((g.checkPointer p e.hash).2.checkBounds allowed p.address 0 e.size).violations =
      g.violations := by
  have hviolation : (g.judge p e.hash).violation = none := by
    rw [found_eq hr.halted_eq] at hpass
    exact Option.toList_eq_nil_iff.mp hpass
  rw [checkPointer_bounds] at hanswer
  have hadmits := hh.admits hr built even known haddress hfits hanswer hviolation
  rw [violations_checkBounds hadmits, violations_checkPointer hr.halted_eq, hviolation]
  exact List.append_nil _

/-- The first element of the array in the fourth pair. -/
theorem filled_passed_check_admits :
    filled.Holds ⟨6, 0x700000, 112⟩ ⟨0x700030, 0x700070⟩ ∧
      (filled.checkPointer (.untracked 0x700068) (.ofName NameHasher.spread "int32_t")).1 =
        .ok ⟨0x700068, 0x700070⟩ ∧
      filled.found (.untracked 0x700068) (.ofName NameHasher.spread "int32_t") = [] ∧
      ((filled.checkPointer (.untracked 0x700068) (.ofName NameHasher.spread "int32_t")).2.checkBounds
        ⟨0x700068, 0x700070⟩ 0x700068 0 4).violations = filled.violations := by
  have k := reachable_filled.kept
  have hres : filled.heap.resolve? 0x700030 = some ⟨6, 0x700000, 112⟩ := by decide +kernel
  obtain ⟨r, hs, _⟩ := k.framed.resolve?_eq_some_iff.mp hres
  have hsize : (filled.heap.live? ⟨6, 0x700000, 112⟩).map (·.size) = some 64 := by
    decide +kernel
  obtain ⟨header, hl, hsize⟩ := Option.map_eq_some_iff.mp hsize
  obtain ⟨hcarves, rfl, hlive⟩ := (k.live?_eq_some_iff hs).mp hl
  have hh : filled.Holds ⟨6, 0x700000, 112⟩ ⟨0x700030, 0x700070⟩ :=
    ⟨⟨r, hs, hcarves⟩, hlive, by rw [hsize]; rfl⟩
  have hanswer : (filled.checkPointer (.untracked 0x700068) (.ofName NameHasher.spread "int32_t")).1 =
    .ok ⟨0x700068, 0x700070⟩ := by decide +kernel
  have hpass : filled.found (.untracked 0x700068) (.ofName NameHasher.spread "int32_t") = [] := by
    decide +kernel
  have known :
      Catalog.nested.Knows ⟨.ofName NameHasher.spread "int32_t", 4, some .sharedInt32, none⟩ :=
    .builtin (b := ⟨"int32_t", 4, none, some .sharedInt32⟩) (by simp [Builtin.all])
  have haddress : (Pointer.untracked 0x700068).address = 0x700030 + 56 := rfl
  have hfits : 56 + 4 ≤ (⟨0x700030, 0x700070⟩ : Bounds).length := by decide
  have hadmits := checkBounds_of_passed reachable_filled filled_build Catalog.coercesEvenly_nested
    hh known (p := .untracked 0x700068) (r := 56) haddress hfits hanswer hpass
  exact ⟨hh, hanswer, hpass, hadmits⟩

end Guard

end TypedHeap
