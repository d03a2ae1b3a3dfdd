import TypedHeap.Proofs.Operations
import TypedHeap.Proofs.Probing

/-! # What checks find

The verdict on a pointer follows from the slot it resolves to and the header there. Settling it
changes no header but the reference to the tags of that slot.
-/

namespace TypedHeap

/-- The entry for an object of type `expected` at `offset`, or else for one of the type that it
coerces to. -/
def Registry.entryFor? (registry : Registry) (owner : TypeRecord) (cache : Cache.Chain)
    (expected : TypeHash) (offset : Nat) : Option Layout.Entry :=
  (owner.recall? cache expected offset).or
    ((owner.lookup expected offset).found?.or
      (((registry.find? expected).bind (·.coercion)).bind fun coerced =>
        (owner.lookup coerced offset).found?))

namespace Verdict

/-- A verdict on an offset hangs on the entry that is found, whichever way it is found. -/
theorem ofOffset_cases (registry : Registry) (slot : Slot) (size : Nat) (cache : Cache.Chain)
    (owner : TypeRecord) (address : Nat) (expected : TypeHash) (offset : Nat) :
    (∃ e, registry.entryFor? owner cache expected offset = some e ∧
      (ofOffset registry slot size cache owner address expected offset).violation = none ∧
      (ofOffset registry slot size cache owner address expected offset).bounds =
        .ok ((Bounds.around address e.reach).intersect (slot.object size))) ∨
    (registry.entryFor? owner cache expected offset = none ∧
      (ofOffset registry slot size cache owner address expected offset).violation =
        some (.type address (registry.nameOf expected)
          (owner.shape.describe (address - slot.user))) ∧
      (ofOffset registry slot size cache owner address expected offset).bounds =
        .ok (.emptyAt address)) := by
  unfold ofOffset Registry.entryFor?
  simp only
  cases owner.recall? cache expected offset with
  | some e => exact .inl ⟨e, rfl, rfl, rfl⟩
  | none =>
      cases hfirst : owner.lookup expected offset with
      | hit place e => exact .inl ⟨e, rfl, rfl, rfl⟩
      | miss | probeLimit =>
          cases hcoerced : (registry.find? expected).bind (·.coercion) with
          | none => exact .inr ⟨rfl, rfl, rfl⟩
          | some coerced =>
              simp only [Option.bind_some]
              cases hsecond : owner.lookup coerced offset with
              | hit place e => exact .inl ⟨e, rfl, rfl, rfl⟩
              | miss | probeLimit => exact .inr ⟨rfl, rfl, rfl⟩

variable {registry : Registry} {slot : Slot} {size : Nat} {cache : Cache.Chain}
  {owner : TypeRecord} {address : Nat} {expected : TypeHash} {offset : Nat}

theorem ofType_of_fold (hfold : owner.fold (address - slot.user) = .ok offset) :
    ofType registry slot size cache owner address expected =
      ofOffset registry slot size cache owner address expected offset := by
  rw [ofType, hfold]

theorem fold_of_answer {b : Bounds}
    (hanswer : (ofType registry slot size cache owner address expected).bounds = .ok b) :
    ∃ offset, owner.fold (address - slot.user) = .ok offset := by
  cases hfold : owner.fold (address - slot.user) with
  | ok offset => exact ⟨offset, rfl⟩
  | error f =>
      rw [ofType, hfold] at hanswer
      cases hanswer

theorem ofOffset_tag {base granule : Nat} {tag : Cache.Tag}
    (h : (ofOffset registry slot size cache owner address expected offset).tag =
      some (base, granule, tag)) : base = slot.base := by
  unfold ofOffset at h
  simp only at h
  split at h
  · cases h
  · split at h
    · obtain ⟨_, _, heq⟩ := Option.map_eq_some_iff.mp h
      exact (congrArg Prod.fst heq).symm
    · split at h
      · cases h
      · split at h <;> cases h

theorem ofType_tag {base granule : Nat} {tag : Cache.Tag}
    (h : (ofType registry slot size cache owner address expected).tag =
      some (base, granule, tag)) : base = slot.base := by
  unfold ofType at h
  split at h
  · cases h
  · exact ofOffset_tag h

/-- Nothing outside `whole` is allowed, if any byte is. -/
def Confined (v : Verdict) (address : Nat) (whole : Bounds) : Prop :=
  ∀ b, v.bounds = .ok b → b = .emptyAt address ∨ whole.lower ≤ b.lower ∧ b.upper ≤ whole.upper

theorem confined_fail {counters : List Counter} {v : Violation} {whole : Bounds} :
    (fail counters address v).Confined address whole := fun _ h => .inl (Except.ok.inj h).symm

theorem ofOffset_confined :
    (ofOffset registry slot size cache owner address expected offset).Confined address
      (slot.object size) := by
  have hordered : (slot.object size).lower ≤ (slot.object size).upper := Nat.le_add_right ..
  intro b hb
  rcases ofOffset_cases registry slot size cache owner address expected offset with
    ⟨e, _, _, hbounds⟩ | ⟨_, _, hbounds⟩
  · obtain rfl := Except.ok.inj (hbounds.symm.trans hb)
    exact .inr (Bounds.intersect_within _ hordered).2
  · exact .inl (Except.ok.inj (hbounds.symm.trans hb)).symm

theorem ofType_confined :
    (ofType registry slot size cache owner address expected).Confined address
      (slot.object size) := by
  unfold ofType
  split
  · exact nofun
  · exact ofOffset_confined

variable {header : Header} {p : Pointer}

theorem ofLive_confined :
    (ofLive registry slot header cache p expected).Confined p.address
      (slot.object header.size) := by
  unfold ofLive
  simp only
  split
  · exact confined_fail
  · split
    · rintro _ ⟨⟩
      exact .inr ⟨Nat.le_refl _, Nat.le_refl _⟩
    · cases registry.referred? header.owner with
      | none => exact confined_fail
      | some owner =>
          simp only
          split
          · exact confined_fail
          · exact ofType_confined

theorem ofLive_tag {base granule : Nat} {tag : Cache.Tag}
    (h : (ofLive registry slot header cache p expected).tag = some (base, granule, tag)) :
    base = slot.base := by
  unfold ofLive at h
  simp only at h
  split at h
  · cases h
  · split at h
    · cases h
    · split at h
      · cases h
      · split at h
        · cases h
        · exact ofType_tag h

end Verdict

namespace Guard

open Heap (Move)

variable {g : Guard} {p : Pointer} {s : Slot} {r : Region} {header : Header}

/-! ## The verdict, by the state of the slot -/

theorem judge_foreign (hres : g.heap.resolve? p.address = none) (expected : TypeHash) :
    g.judge p expected = .pass [.nonFatTypeChecks] (.wideAround p.address) := by
  simp only [judge, hres]

theorem judge_of_blank (hres : g.heap.resolve? p.address = some s)
    (hc : g.heap.claimed? s = none) (expected : TypeHash) :
    g.judge p expected = .fail [] p.address
      (.type p.address (g.registry.nameOf expected) TypeRecord.freeName) := by
  simp only [judge, hres, hc]

theorem judge_of_retired (hres : g.heap.resolve? p.address = some s)
    (hc : g.heap.claimed? s = some header) (hf : header.Retired) (expected : TypeHash) :
    g.judge p expected = .fail [] p.address
      (.useAfterFree p.address s.user p.epoch header.epoch) := by
  simp [judge, hres, hc, hf.sane, hf.phase_eq]

theorem judge_of_live (k : g.heap.Kept g.registry) (hs : g.heap.IsSlot s r)
    (hres : g.heap.resolve? p.address = some s) (hl : g.heap.live? s = some header)
    (expected : TypeHash) :
    g.judge p expected =
      if p.isStale header.epoch then
        .fail [] p.address (.useAfterFree p.address s.user p.epoch header.epoch)
      else .ofLive g.registry s header (g.heap.chainOf header) p expected := by
  obtain ⟨hcarves, heq, hlive⟩ := (k.live?_eq_some_iff hs).mp hl
  have hc := (k.claimed?_eq_some_iff hs).mpr ⟨hcarves, heq, Heap.ne_blank_of_isLive hlive⟩
  simp [judge, hres, hc, Header.sane_of_isLive hlive, Header.phase_of_isLive hlive,
    Header.allocated_of_isLive hlive]

/-- The address lies in the slot `s`, where `header` is that of an object of the type `owner`. -/
structure PointsInto (g : Guard) (address : Nat) (s : Slot) (header : Header)
    (owner : TypeRecord) : Prop where
  resolved : g.heap.resolve? address = some s
  live : g.heap.live? s = some header
  typed : g.registry.referred? header.owner = some owner

theorem PointsInto.judge_eq {owner : TypeRecord} (hp : g.PointsInto p.address s header owner)
    (k : g.heap.Kept g.registry) (hlow : s.user ≤ p.address)
    (hfresh : p.isStale header.epoch = false) {expected : TypeHash} (hexpected : expected ≠ .int8) :
    g.judge p expected =
      .ofType g.registry s header.size (g.heap.chainOf header) owner p.address expected := by
  obtain ⟨r, hs, _⟩ := k.framed.resolve?_eq_some_iff.mp hp.resolved
  obtain ⟨other, hother, hfree⟩ := (k.inUse_of_live hs hp.live).1.referred
  obtain rfl := Option.some.inj (hp.typed.symm.trans hother)
  have hheader : ¬ s.inHeader p.address = true := by simpa [Slot.inHeader] using hlow
  rw [judge_of_live k hs hp.resolved hp.live, hfresh, if_neg Bool.false_ne_true, Verdict.ofLive]
  simp only [if_neg hheader, if_neg hexpected, hp.typed, if_neg hfree]

/-- A check passes behind the header of an object in use only, and only fresh pointers. -/
theorem live_of_judge (k : g.heap.Kept g.registry) (hres : g.heap.resolve? p.address = some s)
    {expected : TypeHash} (hpass : (g.judge p expected).violation = none) :
    s.user ≤ p.address ∧ ∃ header, g.heap.live? s = some header ∧
      p.isStale header.epoch = false := by
  obtain ⟨r, hs, _⟩ := k.framed.resolve?_eq_some_iff.mp hres
  cases hc : g.heap.claimed? s with
  | none =>
      rw [judge_of_blank hres hc] at hpass
      cases hpass
  | some header =>
      rcases k.claimed?_cases hs hc with ⟨_, hl⟩ | ⟨hf, _⟩
      · rw [judge_of_live k hs hres hl] at hpass
        split at hpass
        · cases hpass
        · next hfresh =>
          unfold Verdict.ofLive at hpass
          simp only at hpass
          split at hpass
          · cases hpass
          · next hheader =>
            simp only [Slot.inHeader, decide_eq_true_eq, Nat.not_lt] at hheader
            exact ⟨hheader, header, hl, Bool.eq_false_iff.mpr hfresh⟩
      · rw [judge_of_retired hres hc hf] at hpass
        cases hpass

/-- What is allowed at an address of the reserved range lies in an object in use. -/
theorem judge_confined (k : g.heap.Kept g.registry)
    (hres : g.heap.resolve? p.address = some s) {expected : TypeHash} {b : Bounds}
    (hb : (g.judge p expected).bounds = .ok b) :
    b = .emptyAt p.address ∨
      ∃ header, g.heap.live? s = some header ∧ (s.object header.size).lower ≤ b.lower ∧
        b.upper ≤ (s.object header.size).upper := by
  obtain ⟨r, hs, _⟩ := k.framed.resolve?_eq_some_iff.mp hres
  cases hc : g.heap.claimed? s with
  | none =>
      rw [judge_of_blank hres hc] at hb
      exact .inl (Except.ok.inj hb).symm
  | some header =>
      rcases k.claimed?_cases hs hc with ⟨_, hl⟩ | ⟨hf, _⟩
      · rw [judge_of_live k hs hres hl] at hb
        split at hb
        · exact .inl (Except.ok.inj hb).symm
        · exact (Verdict.ofLive_confined b hb).imp_right fun hwithin => ⟨header, hl, hwithin⟩
      · rw [judge_of_retired hres hc hf] at hb
        exact .inl (Except.ok.inj hb).symm

theorem judge_tag (k : g.heap.Kept g.registry) {expected : TypeHash} {base granule : Nat}
    {tag : Cache.Tag} (h : (g.judge p expected).tag = some (base, granule, tag)) :
    ∃ s, g.heap.resolve? p.address = some s ∧ base = s.base ∧ g.heap.Carved s ∧
      g.heap.headerAt s.base ≠ .blank := by
  cases hres : g.heap.resolve? p.address with
  | none =>
      rw [judge_foreign hres] at h
      cases h
  | some s =>
      obtain ⟨r, hs, _⟩ := k.framed.resolve?_eq_some_iff.mp hres
      cases hc : g.heap.claimed? s with
      | none =>
          rw [judge_of_blank hres hc] at h
          cases h
      | some header =>
          obtain ⟨hcarves, rfl, hne⟩ := (k.claimed?_eq_some_iff hs).mp hc
          rcases k.claimed?_cases hs hc with ⟨_, hl⟩ | ⟨hf, _⟩
          · rw [judge_of_live k hs hres hl] at h
            split at h
            · cases h
            · exact ⟨s, rfl, Verdict.ofLive_tag h, ⟨r, hs, hcarves⟩, hne⟩
          · rw [judge_of_retired hres hc hf] at h
            cases h

theorem judge_eq_of_sameHeap {g' : Guard} (h : g.SameHeap g') (p : Pointer)
    (expected : TypeHash) : g'.judge p expected = g.judge p expected := by
  simp only [judge, h.heap_eq, h.registry_eq]

/-! ## Settling it -/

theorem silent_checked (g : Guard) (p : Pointer) (expected : TypeHash) :
    g.Silent ((g.bump .typeChecks).trace (.checked p.address (g.registry.nameOf expected))) :=
  (g.silent_bump .typeChecks).trans (silent_trace _ rfl)

theorem checkPointer_bounds (g : Guard) (p : Pointer) (expected : TypeHash) :
    (g.checkPointer p expected).1 = (g.judge p expected).bounds :=
  congrArg Verdict.bounds
    (judge_eq_of_sameHeap (g.silent_checked p expected).toSameParts.sameHeap p expected)

def afterTag (h : Heap) (v : Verdict) : Heap :=
  match v.tag with
  | none => h
  | some (base, granule, tag) => h.keepTag base granule tag

theorem settle_eq (g : Guard) (v : Verdict) :
    g.settle v =
      let tagged : Guard := { v.counters.foldl bump g with heap := afterTag g.heap v }
      match v.violation with
      | none => tagged
      | some violation => tagged.report violation := by
  unfold settle afterTag
  rw [← (silent_bumps v.counters g).heap_eq]
  cases v.tag with
  | none => rfl
  | some kept => rfl

theorem sameParts_settle (g : Guard) (v : Verdict) :
    { g with heap := afterTag g.heap v }.SameParts (g.settle v) := by
  have hbumps := silent_bumps v.counters g
  have htagged : { g with heap := afterTag g.heap v }.SameParts
      { v.counters.foldl bump g with heap := afterTag g.heap v } :=
    ⟨hbumps.config_eq, hbumps.registry_eq, rfl, hbumps.large_eq, hbumps.memory_eq⟩
  rw [settle_eq]
  cases v.violation with
  | none => exact htagged
  | some violation => exact htagged.trans (sameParts_report ..)

theorem violations_settle {g : Guard} (hg : g.halted = false) (v : Verdict) :
    (g.settle v).violations = g.violations ++ v.violation.toList := by
  have hbumps := silent_bumps v.counters g
  let tagged : Guard := { v.counters.foldl bump g with heap := afterTag g.heap v }
  have htagged : tagged.violations = g.violations := hbumps.violations_eq
  have hhalted : tagged.halted = false := hbumps.halted_eq.trans hg
  rw [settle_eq]
  cases v.violation with
  | none => simpa using htagged
  | some violation => exact (violations_report hhalted violation).trans (by rw [htagged]; rfl)

theorem halted_checkPointer {expected : TypeHash} (hpass : (g.judge p expected).violation = none) :
    (g.checkPointer p expected).2.halted = g.halted := by
  have hchecked := g.silent_checked p expected
  have hjudge := judge_eq_of_sameHeap hchecked.toSameParts.sameHeap p expected
  unfold checkPointer
  simp only [hjudge, settle_eq, hpass]
  exact (silent_bumps ..).halted_eq.trans hchecked.halted_eq

theorem violations_checkPointer (hg : g.halted = false) (p : Pointer) (expected : TypeHash) :
    (g.checkPointer p expected).2.violations =
      g.violations ++ (g.judge p expected).violation.toList := by
  have hchecked := g.silent_checked p expected
  have hjudge := judge_eq_of_sameHeap hchecked.toSameParts.sameHeap p expected
  unfold checkPointer
  simp only [hjudge]
  rw [violations_settle (hchecked.halted_eq.trans hg), hchecked.violations_eq]

/-- A check changes the heap by the tag that it keeps only. -/
theorem sameParts_checkPointer (g : Guard) (p : Pointer) (expected : TypeHash) :
    { g with heap := afterTag g.heap (g.judge p expected) }.SameParts
      (g.checkPointer p expected).2 := by
  have hchecked := g.silent_checked p expected
  have hjudge := judge_eq_of_sameHeap hchecked.toSameParts.sameHeap p expected
  unfold checkPointer
  simp only [hjudge]
  generalize (g.bump .typeChecks).trace (.checked p.address (g.registry.nameOf expected)) = b
    at hchecked
  have htagged : { g with heap := afterTag g.heap (g.judge p expected) }.SameParts
      { b with heap := afterTag b.heap (g.judge p expected) } :=
    ⟨hchecked.config_eq, hchecked.registry_eq,
      congrArg (afterTag · (g.judge p expected)) hchecked.heap_eq, hchecked.large_eq,
      hchecked.memory_eq⟩
  exact htagged.trans (b.sameParts_settle (g.judge p expected))

theorem checkPointer_heap (k : g.heap.Kept g.registry) (p : Pointer) (expected : TypeHash) :
    (g.SameHeap (g.checkPointer p expected).2) ∨
      ∃ s, Move g.registry g.heap s .tagged (g.checkPointer p expected).2.heap ∧
        (g.checkPointer p expected).2.config = g.config ∧
        (g.checkPointer p expected).2.registry = g.registry := by
  obtain ⟨hconfig, hregistry, hheap, _, _⟩ := g.sameParts_checkPointer p expected
  cases htag : (g.judge p expected).tag with
  | none =>
      simp only [afterTag, htag] at hheap
      exact .inl ⟨hconfig, hregistry, hheap⟩
  | some kept =>
      obtain ⟨base, granule, tag⟩ := kept
      obtain ⟨s, _, rfl, hcarved, hne⟩ := judge_tag k htag
      simp only [afterTag, htag] at hheap
      refine .inr ⟨s, ?_, hconfig, hregistry⟩
      rw [hheap]
      exact .tagged granule tag hcarved hne

theorem checkPointer_memory (g : Guard) (p : Pointer) (expected : TypeHash) :
    (g.checkPointer p expected).2.memory = g.memory := (g.sameParts_checkPointer p expected).memory_eq

theorem get_settle (hg : g.halted = false) {c : Counter} (hc : c.alwaysOn = true) (v : Verdict) :
    (g.settle v).tally.get c = g.tally.get c + v.counters.count c +
      v.violation.toList.countP (·.fault.counter = c) := by
  let tagged : Guard := { v.counters.foldl bump g with heap := afterTag g.heap v }
  have hhalted : tagged.halted = false := (silent_bumps v.counters g).halted_eq.trans hg
  have hcounted : tagged.tally.get c = g.tally.get c + v.counters.count c :=
    get_bumps hg hc v.counters
  rw [settle_eq]
  cases v.violation with
  | none => exact hcounted
  | some violation =>
      refine (get_report hhalted hc violation).trans ?_
      simp [hcounted, List.countP_cons]

theorem get_checkPointer (hg : g.halted = false) {c : Counter} (hc : c.alwaysOn = true)
    (p : Pointer) (expected : TypeHash) :
    (g.checkPointer p expected).2.tally.get c = g.tally.get c +
      (g.judge p expected).counters.count c +
      (g.judge p expected).violation.toList.countP (·.fault.counter = c) := by
  have hchecked := g.silent_checked p expected
  have hjudge := judge_eq_of_sameHeap hchecked.toSameParts.sameHeap p expected
  have hne : Counter.typeChecks ≠ c := by
    rintro rfl
    cases hc
  have hbump := get_bump hg hc .typeChecks
  rw [if_neg hne, Nat.add_zero] at hbump
  unfold checkPointer
  simp only [hjudge]
  rw [get_settle (hchecked.halted_eq.trans hg) hc, tally_trace, hbump]

def found (g : Guard) (p : Pointer) (expected : TypeHash) : List Violation :=
  (g.checkPointer p expected).2.violations.drop g.violations.length

theorem found_eq (hg : g.halted = false) (p : Pointer) (expected : TypeHash) :
    g.found p expected = (g.judge p expected).violation.toList := by
  rw [found, violations_checkPointer hg, List.drop_left]

theorem sameParts_checkBounds (g : Guard) (allowed : Bounds) (address : Nat) (lb ub : Int) :
    g.SameParts (g.checkBounds allowed address lb ub) := by
  have hline : (Line.boundsChecked address lb ub allowed).violation? = none := rfl
  have hchecked := ((g.silent_bump .boundsChecks).trans (silent_trace _ hline)).toSameParts
  unfold checkBounds
  simp only
  split
  · exact hchecked
  · exact hchecked.trans (sameParts_report ..)

theorem violations_checkBounds {g : Guard} {allowed : Bounds} {address : Nat} {lb ub : Int}
    (ha : allowed.admits address lb ub = true) :
    (g.checkBounds allowed address lb ub).violations = g.violations := by
  have hline : (Line.boundsChecked address lb ub allowed).violation? = none := rfl
  have hchecked := (g.silent_bump .boundsChecks).trans (silent_trace _ hline)
  simp only [checkBounds, ha, if_true]
  exact hchecked.violations_eq

end Guard

end TypedHeap
