import TypedHeap.Proofs.Access
import TypedHeap.Proofs.Transparency

/-! # Checks that are repeated

A check that passes is made again. It answers the same, and no table is searched if the first check
was passed by the expected type itself: a tag led to it or was kept. No tag is kept for the type that
it is coerced to, so a check that is passed by that one is searched anew each time.
-/

namespace TypedHeap

/-! ## Tags that were kept -/

namespace Heap

variable {registry : Registry} {h h' : Heap}

def FullChains (h : Heap) : Prop := ∀ reference, (h.chains.getD reference .empty).Full

theorem FullChains.insert (hf : h.FullChains) {chain : Cache.Chain} (hchain : chain.Full)
    (reference : Nat) :
    ({ h with chains := h.chains.insert reference chain } : Heap).FullChains := by
  intro other
  show ((h.chains.insert reference chain).getD other .empty).Full
  rw [Std.TreeMap.getD_insert]
  split
  · exact hchain
  · exact hf other

theorem FullChains.forgetTags (hf : h.FullChains) (header : Header) :
    (h.forgetTags header).FullChains := by
  intro other
  have hother := hf other
  simp only [Heap.forgetTags, Std.TreeMap.getD_modify]
  rw [Std.TreeMap.getD_eq_getD_getElem?] at hother
  split
  · next heq =>
    obtain rfl := Nat.compare_eq_eq.mp heq
    cases hchain : h.chains[header.cache]? with
    | none => exact Cache.Chain.full_empty
    | some chain =>
        rw [hchain] at hother
        exact Cache.Chain.full_reset hother
  · rw [← Std.TreeMap.getD_eq_getD_getElem?] at hother
    exact hother

theorem Move.fullChains {s : Slot} {turn : Turn} (m : Move registry h s turn h')
    (hf : h.FullChains) : h'.FullChains := by
  cases m with
  | tagged granule tag _ =>
      unfold keepTag
      split
      · exact hf
      · exact hf.insert (Cache.Chain.full_store (hf _) granule tag) _
  | claimed _ _ taken =>
      obtain ⟨_, _, rfl⟩ | ⟨_, _, _, _, rfl⟩ := take_cases taken
      all_goals exact hf.forgetTags _
  | resized => exact hf
  | released => exact hf.forgetTags _
  | lost _ _ _ refused =>
      obtain ⟨_, _, rfl⟩ | ⟨_, _, _, _, rfl⟩ := take_cases refused
      all_goals exact hf

theorem load_keepTag (hf : h.FullChains) (base : Nat) {granule : Nat}
    (hspan : (Cache.Chain.split? granule).isSome = true) (tag : Cache.Tag) :
    ((h.keepTag base granule tag).chainOf ((h.keepTag base granule tag).headerAt base)).load
      granule = tag := by
  have hnone : (Cache.Chain.split? granule).isNone = false := by
    rw [← Option.not_isSome, hspan]
    rfl
  simp only [keepTag, hnone, Bool.false_eq_true, if_false, headerAt_setHeader, if_true, chainOf]
  show ((h.chains.insert _ _).getD _ _).load granule = tag
  rw [Std.TreeMap.getD_insert_self]
  exact Cache.Chain.load_store_self (hf _) hspan tag

end Heap

theorem Guard.Reachable.fullChains {g : Guard} (hr : g.Reachable) : g.heap.FullChains := by
  refine hr.preserves (P := Heap.FullChains) Heap.Move.fullChains fun {_ _ h} hcreated reference => ?_
  rw [hcreated.chains_eq, Std.TreeMap.getD_emptyc]
  exact Cache.Chain.full_empty

theorem TypeRecord.recall?_of_load {owner : TypeRecord} {cache : Cache.Chain}
    {expected : TypeHash} {offset place : Nat} {e : Layout.Entry} {tag : Cache.Tag}
    (hload : cache.load (Cache.granuleOf offset) = tag) (htag : Cache.Tag.of? expected place = some tag)
    (hfound : owner.lookup expected offset = .hit place e) :
    owner.recall? cache expected offset = some e := by
  have hplace : tag.slotFor? expected = some place := by
    unfold Cache.Tag.of? at htag
    split at htag
    · obtain rfl := Option.some.inj htag
      simp [Cache.Tag.slotFor?]
    · cases htag
  obtain ⟨_, _, hfor⟩ := Layout.Table.lookup_eq_hit hfound
  simp only [TypeRecord.recall?, hload, hplace, Layout.Table.entry?_of_lookup hfound]
  simp [hfor]

namespace Verdict

variable (registry : Registry) {slot : Slot} (size : Nat) {cache : Cache.Chain}
  {owner : TypeRecord} {address : Nat} {expected : TypeHash} {offset : Nat}

/-- What lets a check pass: the entry of the expected type at the offset, or if there is none, that
of the type that it is coerced to. It stands at `place` of the table. -/
inductive Validates (registry : Registry) (owner : TypeRecord) (expected : TypeHash)
    (offset : Nat) : TypeHash → Nat → Prop where
  | itself {place : Nat} {e : Layout.Entry} (found : owner.lookup expected offset = .hit place e) :
      Validates registry owner expected offset expected place
  | coerced {hash : TypeHash} {place : Nat} {e : Layout.Entry}
      (missed : (owner.lookup expected offset).found? = none)
      (coerces : (registry.find? expected).bind (·.coercion) = some hash)
      (found : owner.lookup hash offset = .hit place e) :
      Validates registry owner expected offset hash place

/-- A verdict that passes by a tag searches no table, -/
theorem ofOffset_recalled {e : Layout.Entry}
    (hrecall : owner.recall? cache expected offset = some e) :
    (ofOffset registry slot size cache owner address expected offset).counters = [.fastTypeChecks] ∧
      (ofOffset registry slot size cache owner address expected offset).tag = none := by
  simp [ofOffset, hrecall, pass]

/-- one that passes by a search for the type keeps a tag, -/
theorem ofOffset_found {place : Nat} {e : Layout.Entry}
    (hrecall : owner.recall? cache expected offset = none)
    (hfound : owner.lookup expected offset = .hit place e) :
    (ofOffset registry slot size cache owner address expected offset).tag =
      slot.tagFor expected offset place := by
  simp [ofOffset, hrecall, hfound]

/-- and one that passes by a search for the coercion keeps none. -/
theorem ofOffset_coerced {hash : TypeHash} {place : Nat} {e : Layout.Entry}
    (hrecall : owner.recall? cache expected offset = none)
    (hmissed : (owner.lookup expected offset).found? = none)
    (hcoerces : (registry.find? expected).bind (·.coercion) = some hash)
    (hfound : owner.lookup hash offset = .hit place e) :
    (ofOffset registry slot size cache owner address expected offset).counters.count
        .registryLookups = 2 ∧
      (ofOffset registry slot size cache owner address expected offset).tag = none := by
  unfold ofOffset
  simp only [hrecall]
  cases hlookup : owner.lookup expected offset with
  | hit place e =>
      rw [hlookup] at hmissed
      cases hmissed
  | miss | probeLimit =>
      simp only [hcoerces, hfound]
      exact ⟨rfl, rfl⟩

theorem searches_iff {es : List Layout.Entry} (hindexes : owner.Indexes es) {hash : TypeHash}
    {place : Nat} (hvalidates : Validates registry owner expected offset hash place)
    (htag : ∀ e, owner.lookup expected offset = .hit place e →
      ∃ x, owner.recall? cache expected offset = some x) :
    (ofOffset registry slot size cache owner address expected offset).counters.count
        .registryLookups = 0 ↔ hash = expected := by
  cases hvalidates with
  | itself found =>
      obtain ⟨x, hrecall⟩ := htag _ found
      rw [(ofOffset_recalled registry size hrecall).1]
      exact ⟨fun _ => rfl, fun _ => rfl⟩
  | coerced missed coerces found =>
      -- a tag leads to an entry of the expected type, and there is none
      have hrecall : owner.recall? cache expected offset = none := by
        rw [hindexes.lookup_eq] at missed
        refine Option.eq_none_iff_forall_ne_some.mpr fun e he => ?_
        exact nomatch missed.symm.trans (hindexes.recall? he)
      rw [(ofOffset_coerced registry size hrecall missed coerces found).1]
      refine ⟨nofun, ?_⟩
      rintro rfl
      rw [found] at missed
      cases missed

/-- What a check answers does not hang on the tags. -/
theorem ofOffset_congr {es : List Layout.Entry} (hindexes : owner.Indexes es)
    (slot : Slot) (address : Nat) (expected : TypeHash) (offset : Nat) (cache cache' : Cache.Chain) :
    (ofOffset registry slot size cache' owner address expected offset).violation =
        (ofOffset registry slot size cache owner address expected offset).violation ∧
      (ofOffset registry slot size cache' owner address expected offset).bounds =
        (ofOffset registry slot size cache owner address expected offset).bounds := by
  have hfirst := ofOffset_cases registry slot size cache owner address expected offset
  have hsecond := ofOffset_cases registry slot size cache' owner address expected offset
  rw [hindexes.entryFor?] at hfirst hsecond
  rcases hfirst with ⟨e, he, hviolation, hbounds⟩ | ⟨hnone, hviolation, hbounds⟩
  · rcases hsecond with ⟨e', he', hviolation', hbounds'⟩ | ⟨hnone', _⟩
    · obtain rfl := Option.some.inj (he.symm.trans he')
      exact ⟨hviolation'.trans hviolation.symm, hbounds'.trans hbounds.symm⟩
    · exact nomatch he.symm.trans hnone'
  · rcases hsecond with ⟨e', he', _⟩ | ⟨_, hviolation', hbounds'⟩
    · exact nomatch hnone.symm.trans he'
    · exact ⟨hviolation'.trans hviolation.symm, hbounds'.trans hbounds.symm⟩

end Verdict

namespace Guard

variable {c : Catalog} {g : Guard} {s : Slot} {header : Header} {owner : TypeRecord} {p : Pointer}
  {expected : TypeHash}

theorem PointsInto.checkPointer (hp : g.PointsInto p.address s header owner)
    (k : g.heap.Kept g.registry) (expected : TypeHash) :
    ∃ header', (g.checkPointer p expected).2.PointsInto p.address s header' owner ∧
      header'.size = header.size ∧ header'.epoch = header.epoch := by
  obtain ⟨_, he⟩ := effect_checkPointer k p expected
  obtain ⟨r, hs, _⟩ := k.framed.resolve?_eq_some_iff.mp hp.resolved
  obtain ⟨header', hl, hsame⟩ := live?_checkPointer k p expected hs hp.live
  obtain ⟨_, _, howner, hsize, hepoch, _⟩ := Header.mk.inj hsame
  refine ⟨header', ⟨?_, hl, ?_⟩, hsize, hepoch⟩
  · exact (he.moves.resolve?_eq k p.address).trans hp.resolved
  · rw [howner]
    exact (congrArg (Registry.referred? · header.owner) he.registry_eq).trans hp.typed

/-- A check that passes is one of an offset of an element, and is validated by an entry of the table
of an object. -/
theorem validates_of_judge (k : g.heap.Kept g.registry) (built : c.build = .ok g.registry)
    (hin : g.heap.contains p.address = true) (hexpected : expected ≠ .int8)
    (hpass : (g.judge p expected).violation = none) {b : Bounds}
    (hanswer : (g.judge p expected).bounds = .ok b) :
    ∃ s header owner offset, g.PointsInto p.address s header owner ∧ s.user ≤ p.address ∧
      p.isStale header.epoch = false ∧ (∃ es, owner.Indexes es) ∧
      owner.fold (p.address - s.user) = .ok offset ∧
      ∃ hash place, Verdict.Validates g.registry owner expected offset hash place := by
  obtain ⟨s, hres⟩ := k.framed.exists_slot_of_contains hin
  obtain ⟨r, hs, _⟩ := k.framed.resolve?_eq_some_iff.mp hres
  obtain ⟨huser, header, hl, hfresh⟩ := live_of_judge k hres hpass
  obtain ⟨owner, howner, hfree⟩ := (k.inUse_of_live hs hl).1.referred
  have hp : g.PointsInto p.address s header owner := ⟨hres, hl, howner⟩
  obtain ⟨es, hindexes⟩ := Catalog.indexes_of_mem built (Registry.mem_of_referred? howner hfree)
  rw [hp.judge_eq k huser hfresh hexpected] at hpass hanswer
  obtain ⟨offset, hfold⟩ := Verdict.fold_of_answer hanswer
  rw [Verdict.ofType_of_fold hfold] at hpass
  refine ⟨s, header, owner, offset, hp, huser, hfresh, ⟨es, hindexes⟩, hfold, ?_⟩
  rcases Verdict.ofOffset_cases g.registry s header.size (g.heap.chainOf header) owner p.address
      expected offset with ⟨e, he, _⟩ | ⟨_, hviolation, _⟩
  · rw [hindexes.entryFor?, ← hindexes.lookup_eq] at he
    rcases Option.or_eq_some_iff.mp he with hself | ⟨hmissed, hcoerced⟩
    · obtain ⟨place, hplace⟩ := Layout.Lookup.found?_eq_some_iff.mp hself
      exact ⟨expected, place, .itself hplace⟩
    · obtain ⟨hash, hcoerces, hfound⟩ := Option.bind_eq_some_iff.mp hcoerced
      rw [← hindexes.lookup_eq] at hfound
      obtain ⟨place, hplace⟩ := Layout.Lookup.found?_eq_some_iff.mp hfound
      exact ⟨hash, place, .coerced hmissed hcoerces hplace⟩
  · exact absurd (hviolation.symm.trans hpass) (Option.some_ne_none _)

/-- After a check that the expected type itself let pass, a tag leads to its entry. -/
theorem PointsInto.recall?_checkPointer (hp : g.PointsInto p.address s header owner)
    (hr : g.Reachable) {offset : Nat}
    (hjudge : g.judge p expected = .ofOffset g.registry s header.size (g.heap.chainOf header) owner
      p.address expected offset) {header' : Header}
    (hp' : (g.checkPointer p expected).2.PointsInto p.address s header' owner) {place : Nat}
    {e : Layout.Entry} (hfound : owner.lookup expected offset = .hit place e)
    (hspan : offset < Cache.Chain.span) (hplace : place < Cache.Tag.slotLimit) :
    ∃ e, owner.recall? ((g.checkPointer p expected).2.heap.chainOf header') expected offset =
      some e := by
  have hheap := (g.sameParts_checkPointer p expected).heap_eq
  have hheader' : (g.checkPointer p expected).2.heap.headerAt s.base = header' :=
    Heap.eq_of_live? hp'.live
  cases hrecall : owner.recall? (g.heap.chainOf header) expected offset with
  | some x =>
      -- nothing was kept, so the tag is still there
      have htag : (g.judge p expected).tag = none := by
        rw [hjudge]
        exact (Verdict.ofOffset_recalled g.registry header.size hrecall).2
      simp only [afterTag, htag] at hheap
      rw [hheap, Heap.eq_of_live? hp.live] at hheader'
      exact ⟨x, by rw [hheap, ← hheader', hrecall]⟩
  | none =>
      have htag : (g.judge p expected).tag = s.tagFor expected offset place := by
        rw [hjudge]
        exact Verdict.ofOffset_found g.registry header.size hrecall hfound
      have hlimit : place + 1 ≤ Cache.Tag.slotLimit := hplace
      simp only [Slot.tagFor, Cache.Tag.of?, if_pos hlimit, Option.map_some] at htag
      simp only [afterTag, htag] at hheap
      have hload := Heap.load_keepTag hr.fullChains s.base
        ((Cache.Chain.split?_isSome_iff _).mpr hspan)
        (.known (Cache.Tag.fingerprint expected) place)
      rw [← hheap, hheader'] at hload
      exact ⟨e, TypeRecord.recall?_of_load hload (if_pos hlimit) hfound⟩

/-- A check of an address in the reserved range that answers and passes is validated by the expected
type itself or by the type that it is coerced to. If it is made again, then it answers the same. It
leaves the count of table searches as it is iff the expected type itself validated the first check,
provided that tags can be kept for the offset and for the place of the entry. -/
theorem repeated_check_recalled_iff (hr : g.Reachable) (built : c.build = .ok g.registry)
    (hin : g.heap.contains p.address = true) (hexpected : expected ≠ .int8) {b : Bounds}
    (hanswer : (g.checkPointer p expected).1 = .ok b) (hpass : g.found p expected = []) :
    ∃ s header owner offset hash place, g.PointsInto p.address s header owner ∧
      owner.fold (p.address - s.user) = .ok offset ∧
      Verdict.Validates g.registry owner expected offset hash place ∧
      (g.checkPointer p expected).2.found p expected = [] ∧
      ((g.checkPointer p expected).2.checkPointer p expected).1 = .ok b ∧
      (offset < Cache.Chain.span → place < Cache.Tag.slotLimit →
        (((g.checkPointer p expected).2.checkPointer p expected).2.tally.get .registryLookups =
          (g.checkPointer p expected).2.tally.get .registryLookups ↔ hash = expected)) := by
  have hviolation : (g.judge p expected).violation = none := by
    rw [found_eq hr.halted_eq] at hpass
    exact Option.toList_eq_nil_iff.mp hpass
  rw [checkPointer_bounds] at hanswer
  obtain ⟨s, header, owner, offset, hp, huser, hfresh, ⟨es, hindexes⟩, hfold, hash, place,
    hvalidates⟩ := validates_of_judge hr.kept built hin hexpected hviolation hanswer
  obtain ⟨header', hp', hsize, hepoch⟩ := hp.checkPointer hr.kept expected
  have hruns : (g.checkPointer p expected).2.halted = false :=
    (halted_checkPointer hviolation).trans hr.halted_eq
  have hr' : (g.checkPointer p expected).2.Reachable :=
    hr.later (.step (e := .check p expected) trivial hruns (.done _))
  have hfresh' : p.isStale header'.epoch = false := hepoch ▸ hfresh
  have hjudge := (hp.judge_eq hr.kept huser hfresh hexpected).trans (Verdict.ofType_of_fold hfold)
  have hjudge' :=
    (hp'.judge_eq hr'.kept huser hfresh' hexpected).trans (Verdict.ofType_of_fold hfold)
  rw [(g.sameParts_checkPointer p expected).registry_eq, hsize] at hjudge'
  obtain ⟨hpass', hbounds⟩ := Verdict.ofOffset_congr g.registry header.size hindexes s p.address
    expected offset (g.heap.chainOf header) ((g.checkPointer p expected).2.heap.chainOf header')
  rw [← hjudge, ← hjudge'] at hpass' hbounds
  have hviolation' := hpass'.trans hviolation
  refine ⟨s, header, owner, offset, hash, place, hp, hfold, hvalidates, ?_, ?_,
    fun hspan hplace => ?_⟩
  · rw [found_eq hruns, hviolation']
    rfl
  · rw [checkPointer_bounds, hbounds, hanswer]
  · rw [get_checkPointer hruns rfl, hviolation', Option.toList_none, List.countP_nil,
      Nat.add_zero, Nat.add_eq_left, hjudge']
    exact Verdict.searches_iff g.registry header.size hindexes hvalidates fun _ found =>
      hp.recall?_checkPointer hr hjudge hp' found hspan hplace

/-- The array element that `tagged` keeps a tag for. -/
theorem filled_repeated_recalled :
    Catalog.nested.build = .ok filled.registry ∧ filled.heap.contains 0x700068 = true ∧
      (filled.checkPointer (.untracked 0x700068) (.ofName NameHasher.spread "int32_t")).1 =
        .ok ⟨0x700068, 0x700070⟩ ∧
      filled.found (.untracked 0x700068) (.ofName NameHasher.spread "int32_t") = [] ∧
      tagged.found (.untracked 0x700068) (.ofName NameHasher.spread "int32_t") = [] ∧
      (tagged.checkPointer (.untracked 0x700068) (.ofName NameHasher.spread "int32_t")).1 =
        .ok ⟨0x700068, 0x700070⟩ ∧
      (tagged.checkPointer (.untracked 0x700068) (.ofName NameHasher.spread "int32_t")).2.tally.get
        .registryLookups = tagged.tally.get .registryLookups := by
  have hin : filled.heap.contains 0x700068 = true := by decide +kernel
  have hanswer : (filled.checkPointer (.untracked 0x700068) (.ofName NameHasher.spread "int32_t")).1 =
    .ok ⟨0x700068, 0x700070⟩ := by decide +kernel
  have hpass : filled.found (.untracked 0x700068) (.ofName NameHasher.spread "int32_t") = [] := by
    decide +kernel
  have hexpected : TypeHash.ofName NameHasher.spread "int32_t" ≠ .int8 := by decide +kernel
  obtain ⟨_, _, _, _, _, _, _, _, _, hagain, hbounds, _⟩ := repeated_check_recalled_iff
    (p := .untracked 0x700068) reachable_filled filled_build hin hexpected hanswer hpass
  exact ⟨filled_build, hin, hanswer, hpass, hagain, hbounds, by decide +kernel⟩

def bytePointer : TypeRecord :=
  Builtin.record NameHasher.spread ⟨"int8_t *", 8, some .int8Pointer, some .sharedPointer⟩

def pointed : Guard := smallest.perform (.allocate 8 .int8Pointer .opening)

/-- The pointer is checked for another one. The check passes by the type that both are coerced to, at
offset 0 and in place 1 of the table, and the second check searches the table again. -/
theorem coerced_check_searched_again :
    pointed.Reachable ∧ (Catalog.empty .spread).build = .ok pointed.registry ∧
      pointed.heap.contains 0x400030 = true ∧ TypeHash.ofName NameHasher.spread "void *" ≠ .int8 ∧
      pointed.found (.untracked 0x400030) (.ofName NameHasher.spread "void *") = [] ∧
      (∃ header, pointed.PointsInto 0x400030 ⟨3, 0x400000, 64⟩ header bytePointer) ∧
      bytePointer.fold (0x400030 - Slot.user ⟨3, 0x400000, 64⟩) = .ok 0 ∧
      0 < Cache.Chain.span ∧ 1 < Cache.Tag.slotLimit ∧
      Verdict.Validates pointed.registry bytePointer (.ofName NameHasher.spread "void *") 0
        .sharedPointer 1 ∧
      ((pointed.checkPointer (.untracked 0x400030) (.ofName NameHasher.spread "void *")).2.checkPointer
          (.untracked 0x400030) (.ofName NameHasher.spread "void *")).2.tally.get .registryLookups =
        (pointed.checkPointer (.untracked 0x400030) (.ofName NameHasher.spread "void *")).2.tally.get
          .registryLookups + 2 := by
  have howner : (pointed.heap.live? ⟨3, 0x400000, 64⟩).map (·.owner) =
      some (pointed.registry.reference .int8Pointer) := by decide +kernel
  obtain ⟨header, hl, hreference⟩ := Option.map_eq_some_iff.mp howner
  have htyped : pointed.registry.referred? header.owner = some bytePointer := by
    rw [hreference, Registry.referred?_reference]
    rfl
  have hcoerces : (pointed.registry.find? (.ofName NameHasher.spread "void *")).bind (·.coercion) =
      some .sharedPointer := by decide +kernel
  have hmissed : (bytePointer.lookup (.ofName NameHasher.spread "void *") 0).found? = none := by
    decide +kernel
  have hfound : bytePointer.lookup .sharedPointer 0 = .hit 1 (.self .sharedPointer) := by
    decide +kernel
  exact ⟨reachable_smallest.later (.step (by decide +kernel) rfl (.done pointed)), rfl,
    by decide +kernel, by decide +kernel, by decide +kernel, ⟨header, by decide +kernel, hl, htyped⟩,
    by decide +kernel, by decide, by decide, .coerced hmissed hcoerces hfound, by decide +kernel⟩

end Guard

end TypedHeap
