import TypedHeap.Interface.Calls
import TypedHeap.Proofs.Notes

/-! # Relations that operations keep

An operation reads the state of its guard: the registry, the slots and headers of the heap, the
large objects and the memory. It changes the state in a few ways, and tells the account all else in
notes. So if two guards agree in what is read, and their relation is kept by each of the changes and
by each note, then every operation keeps it and answers the same in both.
-/

namespace TypedHeap

/-! ## What is read of the heap -/

namespace Heap

/-- The slots and their headers are the same. Only the tags may differ. -/
structure SameSlots (h h' : Heap) : Prop where
  range_eq : h'.range = h.range
  shift_eq : h'.shift = h.shift
  classes_eq : h'.classes = h.classes
  regions_eq : h'.regions = h.regions
  headerAt_eq (a : Nat) : h'.headerAt a = h.headerAt a

theorem sameSlots_of_eq {h h' : Heap} (heq : h' = h) : h.SameSlots h' :=
  heq ▸ ⟨rfl, rfl, rfl, rfl, fun _ => rfl⟩

namespace SameSlots

variable {h h' : Heap}

theorem region?_eq (hs : h.SameSlots h') (i : Nat) : h'.region? i = h.region? i := by
  rw [region?, hs.regions_eq, region?]

theorem resolve?_eq (hs : h.SameSlots h') (a : Nat) : h'.resolve? a = h.resolve? a := by
  unfold resolve? contains start
  rw [hs.range_eq, hs.shift_eq]
  simp only [hs.region?_eq]

theorem hasHeader_eq (hs : h.SameSlots h') (a : Nat) : h'.hasHeader a = h.hasHeader a := by
  simp only [hasHeader, hs.resolve?_eq]

theorem classFor?_eq (hs : h.SameSlots h') (size : Nat) : h'.classFor? size = h.classFor? size := by
  simp only [classFor?, hs.classes_eq]

theorem header?_eq (hs : h.SameSlots h') (i base : Nat) : h'.header? i base = h.header? i base := by
  simp only [header?, hs.region?_eq, hs.headerAt_eq]

theorem claimed?_eq (hs : h.SameSlots h') (s : Slot) : h'.claimed? s = h.claimed? s := by
  simp only [claimed?, hs.header?_eq]

theorem live?_eq (hs : h.SameSlots h') (s : Slot) : h'.live? s = h.live? s := by
  simp only [live?, hs.header?_eq]

theorem releaseOf_eq (hs : h.SameSlots h') (alone alone' : Bool) (s : Slot) (a : Nat) :
    h'.releaseOf alone' s a = h.releaseOf alone s a := by
  simp only [releaseOf, hs.claimed?_eq, Header.releaseBy_eq]

theorem reclaimed?_eq (hs : h.SameSlots h') (i base : Nat) :
    h'.reclaimed? i base = h.reclaimed? i base := by
  simp only [reclaimed?, hs.region?_eq]

theorem slotsFrom_eq (hs : h.SameSlots h') (most address stop : Nat) :
    h'.slotsFrom most address stop = h.slotsFrom most address stop := by
  induction most generalizing address with
  | zero => rfl
  | succ most ih =>
      simp only [slotsFrom, hs.resolve?_eq, Heap.start, hs.range_eq, hs.shift_eq]
      cases h.resolve? address with
      | none => rfl
      | some s => simp only [ih]

theorem headersAmong_eq (hs : h.SameSlots h') (start length : Nat) :
    h'.headersAmong start length = h.headersAmong start length := by
  have hfrom : h'.headersFrom start = h.headersFrom start := by
    simp only [headersFrom, hs.resolve?_eq, Heap.start, hs.range_eq]
  simp only [headersAmong, hs.slotsFrom_eq, hfrom]

theorem expose_eq (hs : h.SameSlots h') (m : Memory) (start length : Nat) :
    h'.expose m start length = h.expose m start length := by
  simp only [expose, hs.headersAmong_eq, hs.headerAt_eq]

end SameSlots

end Heap

namespace Guard

/-! ## Relations -/

/-- What operations read is the same in guards that are related, and their changes of the state and
their notes keep guards related. -/
structure Congruence (R : Guard → Guard → Prop) : Prop where
  registry_eq {g g' : Guard} (h : R g g') : g'.registry = g.registry
  slots {g g' : Guard} (h : R g g') : g.heap.SameSlots g'.heap
  large_eq {g g' : Guard} (h : R g g') : g'.large = g.large
  memory_eq {g g' : Guard} (h : R g g') : g'.memory = g.memory
  withRegions {g g' : Guard} (h : R g g') (regions : List Region) :
    R { g with heap := { g.heap with regions } } { g' with heap := { g'.heap with regions } }
  setHeader {g g' : Guard} (h : R g g') (base : Nat) (header : Header) :
    R (g.setHeader base header) (g'.setHeader base header)
  forgetTags {g g' : Guard} (h : R g g') (header : Header) :
    R { g with heap := g.heap.forgetTags header } { g' with heap := g'.heap.forgetTags header }
  remember {g g' : Guard} (h : R g g') (base granule : Nat) (tag : Cache.Tag) :
    R (g.remember base granule tag) (g'.remember base granule tag)
  withLarge {g g' : Guard} (h : R g g') (large : LargeHeap) : R { g with large } { g' with large }
  withMemory {g g' : Guard} (h : R g g') (memory : Memory) :
    R { g with memory } { g' with memory }
  note {g g' : Guard} (h : R g g') (n : Note) : R (g.note n) (g'.note n)

/-! ### Relations of guards with one state -/

def holding (g s : Guard) : Guard :=
  { g with registry := s.registry, heap := s.heap, large := s.large, memory := s.memory }

theorem SameState.eq_holding {g g' : Guard} (h : g.SameState g') : g' = g'.holding g := by
  simp only [holding, ← h.registry_eq, ← h.heap_eq, ← h.large_eq, ← h.memory_eq]

/-- A relation of guards with one state is kept by all changes if it leaves open which state that
is. -/
theorem congruence_of_sameState {R : Guard → Guard → Prop}
    (state : ∀ {g g' : Guard}, R g g' → g.SameState g')
    (holds : ∀ {g g' : Guard}, R g g' → ∀ s : Guard, R (g.holding s) (g'.holding s))
    (note : ∀ {g g' : Guard}, R g g' → ∀ n : Note, R (g.note n) (g'.note n)) : Congruence R := by
  have change {f : Guard → Guard} (hf : ∀ g s : Guard, f (g.holding s) = g.holding (f s))
      {g g' : Guard} (h : R g g') : R (f g) (f g') := by
    have heq : f g' = g'.holding (f g) := by
      rw [← hf, ← (state h).eq_holding]
    have heq' : f g = g.holding (f g) := hf g g
    rw [heq, heq']
    exact holds h (f g)
  exact {
    registry_eq := fun h => (state h).registry_eq
    slots := fun h => Heap.sameSlots_of_eq (state h).heap_eq
    large_eq := fun h => (state h).large_eq
    memory_eq := fun h => (state h).memory_eq
    withRegions := fun h regions =>
      change (f := fun g => { g with heap := { g.heap with regions } }) (fun _ _ => rfl) h
    setHeader := fun h base header => change (f := (·.setHeader base header)) (fun _ _ => rfl) h
    forgetTags := fun h header =>
      change (f := fun g => { g with heap := g.heap.forgetTags header }) (fun _ _ => rfl) h
    remember := fun h base granule tag =>
      change (f := (·.remember base granule tag)) (fun _ _ => rfl) h
    withLarge := fun h large => change (f := ({ · with large })) (fun _ _ => rfl) h
    withMemory := fun h memory => change (f := ({ · with memory })) (fun _ _ => rfl) h
    note := fun h n => note h n }

/-! ### Related answers -/

inductive Replies {α : Type} (R : Guard → Guard → Prop) : α × Guard → α × Guard → Prop where
  | intro {answer : α} {g g' : Guard} (related : R g g') : Replies R (answer, g) (answer, g')

theorem Replies.map {α β : Type} {R : Guard → Guard → Prop} {r r' : α × Guard}
    (hr : Replies R r r') (f : α → β) : Replies R (r.map f id) (r'.map f id) := by
  cases hr with
  | intro related => exact .intro related

theorem Replies.mono {α : Type} {R S : Guard → Guard → Prop} {r r' : α × Guard}
    (hr : Replies R r r') (himp : ∀ {g g' : Guard}, R g g' → S g g') : Replies S r r' := by
  cases hr with
  | intro related => exact .intro (himp related)

structure SameAccount (g g' : Guard) : Prop where
  config_eq : g'.config = g.config
  tally_eq : g'.tally = g.tally
  journal_eq : g'.journal = g.journal
  halted_eq : g'.halted = g.halted

theorem SameAccount.refl (g : Guard) : g.SameAccount g := ⟨rfl, rfl, rfl, rfl⟩

/-- Guards behind related ones, but for what is left out after the end: if one of the two came to an
end there and the other did not, then only their accounts are still related. -/
inductive UpToEnd (R : Guard → Guard → Prop) : Guard → Guard → Prop where
  | intro {g g' after after' : Guard} (related : R g g') (left : g.SameAccount after)
      (right : g'.SameAccount after') (same : g'.halted = g.halted → R after after') :
      UpToEnd R after after'

namespace UpToEnd

variable {R : Guard → Guard → Prop} {g g' : Guard}

theorem of_related (h : R g g') : UpToEnd R g g' := .intro h (.refl g) (.refl g') fun _ => h

theorem related (h : UpToEnd R g g')
    (halted : ∀ {g g' : Guard}, R g g' → g'.halted = g.halted) : R g g' := by
  cases h with
  | intro hrelated _ _ same => exact same (halted hrelated)

end UpToEnd

namespace Congruence

variable {R : Guard → Guard → Prop} {g g' : Guard}

/-! ## Notes and bytes -/

theorem bump (hR : Congruence R) (h : R g g') {c : Counter} (plain : c.Plain) :
    R (g.bump c) (g'.bump c) := hR.note h (.count c plain)

theorem trace (hR : Congruence R) (h : R g g') {l : Line} (traced : l.isTrace = true) :
    R (g.trace l) (g'.trace l) := hR.note h (.trace l traced)

theorem report (hR : Congruence R) (h : R g g') (v : Violation) : R (g.report v) (g'.report v) :=
  hR.note h (.violation v)

theorem absorb (hR : Congruence R) (h : R g g') (m : Memory) (start length : Nat) :
    R { g with heap := g.heap.absorb m start length }
      { g' with heap := g'.heap.absorb m start length } := by
  unfold Heap.absorb
  rw [(hR.slots h).headersAmong_eq]
  generalize g.heap.headersAmong start length = bases
  induction bases generalizing g g' with
  | nil => exact h
  | cons base bases ih => exact ih (hR.setHeader h base _)

theorem changeBytes (hR : Congruence R) (h : R g g') (start length : Nat)
    (change : Memory → Memory) :
    R (g.changeBytes start length change) (g'.changeBytes start length change) := by
  unfold Guard.changeBytes
  rw [hR.memory_eq h, (hR.slots h).expose_eq]
  generalize change (g.heap.expose g.memory start length) = m
  exact hR.absorb (hR.withMemory h m) m start length

theorem setBytes (hR : Congruence R) (h : R g g') (start length : Nat) (value : UInt8) :
    R (g.setBytes start length value) (g'.setBytes start length value) :=
  hR.changeBytes h start length _

theorem writeBytes (hR : Congruence R) (h : R g g') (start : Nat) (values : List UInt8) :
    R (g.writeBytes start values) (g'.writeBytes start values) :=
  hR.changeBytes h start values.length _

theorem copyBytes (hR : Congruence R) (h : R g g') (target source length : Nat) :
    R (g.copyBytes target source length) (g'.copyBytes target source length) := by
  unfold Guard.copyBytes
  simp only [(hR.slots h).expose_eq]
  exact hR.changeBytes h target length _

theorem clear (hR : Congruence R) (h : R g g') (start length : Nat) (wanted : Bool) :
    R (g.clear start length wanted) (g'.clear start length wanted) := by
  unfold Guard.clear
  split
  · exact hR.setBytes h start length 0
  · exact h

theorem header?_eq (hR : Congruence R) (h : R g g') (i base : Nat) :
    g'.header? i base = g.header? i base := by
  have hs := hR.slots h
  simp only [Guard.header?, hs.hasHeader_eq, hs.header?_eq, hs.region?_eq, hs.expose_eq,
    hR.memory_eq h]

theorem renew (hR : Congruence R) (h : R g g') (base : Nat) (header : Header) :
    R (g.renew base header) (g'.renew base header) :=
  hR.setHeader (hR.forgetTags h header) base header

theorem putHeader (hR : Congruence R) (h : R g g') (base : Nat) (header : Header) :
    R (g.putHeader base header) (g'.putHeader base header) := by
  have hforgotten := hR.forgetTags h header
  unfold Guard.putHeader writeHeader
  rw [(hR.slots hforgotten).hasHeader_eq]
  split
  · exact hR.setHeader hforgotten base header
  · exact hR.writeBytes hforgotten base header.bytes

theorem putBack (hR : Congruence R) (h : R g g') (i base : Nat) :
    R { g with heap := g.heap.putBack i base } { g' with heap := g'.heap.putBack i base } := by
  unfold Heap.putBack
  rw [(hR.slots h).regions_eq]
  exact hR.withRegions h _

/-! ## Allocation -/

theorem takeSlot (hR : Congruence R) (h : R g g') (c : SizeClass) (refusal : Option String) :
    Replies R (g.takeSlot c refusal) (g'.takeSlot c refusal) := by
  unfold Guard.takeSlot Heap.take
  rw [(hR.slots h).region?_eq, (hR.slots h).regions_eq]
  cases g.heap.region? c.index with
  | none => exact .intro (hR.note h (.line (.exhausted c.size) rfl))
  | some r =>
      have htaken := hR.withRegions h (g.heap.regions.set c.index (r.take refusal).2)
      simp only
      cases (r.take refusal).1 with
      | slot base => exact .intro htaken
      | exhausted => exact .intro (hR.note htaken (.line (.exhausted c.size) rfl))
      | refused upto reason =>
          exact .intro (hR.note htaken (.line (.unopened c.index upto reason) rfl))

theorem allocateSlot (hR : Congruence R) (h : R g g') (c : SizeClass) (owner : TypeRecord)
    (size : Nat) (zeroed : Bool) (refusal : Option String) :
    Replies R (g.allocateSlot c owner size zeroed refusal)
      (g'.allocateSlot c owner size zeroed refusal) := by
  have htaken := hR.takeSlot h c refusal
  unfold Guard.allocateSlot
  generalize g.takeSlot c refusal = taken, g'.takeSlot c refusal = taken' at htaken
  cases htaken with
  | @intro answer g₁ g₁' h₁ =>
      cases answer with
      | error e => exact .intro h₁
      | ok base =>
          simp only [hR.header?_eq h₁]
          cases g₁.header? c.index base with
          | none => exact .intro h₁
          | some header =>
              have hcleared := hR.clear h₁ (base + headerSize) size zeroed
              simp only [hR.registry_eq hcleared]
              cases header.nextEpoch with
              | error f => exact .intro (hR.note hcleared (.stop (.panicked f) rfl))
              | ok epoch => exact .intro (hR.trace (hR.putHeader hcleared base _) rfl)

theorem allocateLarge (hR : Congruence R) (h : R g g') (size : Nat) (zeroed : Bool)
    (block : Option Nat) :
    Replies R (g.allocateLarge size zeroed block) (g'.allocateLarge size zeroed block) := by
  unfold Guard.allocateLarge
  rw [hR.large_eq h]
  cases g.large.allocate? block size with
  | none => exact .intro h
  | some placed => exact .intro (hR.clear (hR.withLarge h placed.2) _ _ zeroed)

theorem allocateObject (hR : Congruence R) (h : R g g') (size : Nat) (type : TypeHash)
    (zeroed : Bool) (grant : Grant) :
    Replies R (g.allocateObject size type zeroed grant)
      (g'.allocateObject size type zeroed grant) := by
  unfold Guard.allocateObject
  rw [hR.registry_eq h]
  cases g.registry.objectType? type with
  | none => exact .intro h
  | some owner =>
      have hcounted := hR.bump h (c := .allocations) nofun
      simp only [(hR.slots hcounted).classFor?_eq]
      cases (g.bump .allocations).heap.classFor? size with
      | none => exact hR.allocateLarge hcounted size zeroed grant.block
      | some c => exact hR.allocateSlot hcounted c owner size zeroed grant.refusal

theorem allocate (hR : Congruence R) (h : R g g') (size : Nat) (type : TypeHash) (grant : Grant) :
    Replies R (g.allocate size type grant) (g'.allocate size type grant) :=
  hR.allocateObject h size type false grant

theorem allocateZeroed (hR : Congruence R) (h : R g g') (count size : Nat) (type : TypeHash)
    (grant : Grant) :
    Replies R (g.allocateZeroed count size type grant)
      (g'.allocateZeroed count size type grant) := by
  unfold Guard.allocateZeroed
  split
  · exact .intro h
  · exact hR.allocateObject h (count * size) type true grant

/-! ## Freeing and reallocation -/

theorem putSlot (hR : Congruence R) (h : R g g') (i base : Nat) :
    R (g.putSlot i base) (g'.putSlot i base) := by
  unfold Guard.putSlot
  rw [(hR.slots h).reclaimed?_eq]
  cases g.heap.reclaimed? i base with
  | none => exact hR.putBack h i base
  | some range =>
      exact hR.putBack (hR.setBytes h (pagesWithin range.1 range.2).1
        (pagesWithin range.1 range.2).2 0) i base

theorem freeLarge (hR : Congruence R) (h : R g g') (address : Nat) :
    R (g.freeLarge address) (g'.freeLarge address) := by
  unfold Guard.freeLarge
  rw [hR.large_eq h]
  cases g.large.free address with
  | mk outcome large =>
      cases outcome with
      | freed => exact hR.withLarge h large
      | alreadyFreed => exact hR.report h _
      | notOurs => exact hR.report h _

theorem free (hR : Congruence R) (h : R g g') (address : Nat) :
    R (g.free address) (g'.free address) := by
  unfold Guard.free
  split
  · exact h
  · have hcounted := hR.bump h (c := .frees) nofun
    have hs := hR.slots hcounted
    -- the only switch that is read outside the account
    simp only [hs.resolve?_eq, hs.releaseOf_eq (g.bump .frees).config.singleThreaded
      (g'.bump .frees).config.singleThreaded]
    cases (g.bump .frees).heap.resolve? address with
    | none => exact hR.freeLarge hcounted address
    | some slot =>
        simp only
        cases (g.bump .frees).heap.releaseOf (g.bump .frees).config.singleThreaded slot
          address with
        | refused v => exact hR.report hcounted v
        | released header =>
            have hrenewed := hR.renew hcounted slot.base header
            exact hR.trace (hR.putSlot hrenewed slot.region slot.base) rfl

theorem refuse (hR : Congruence R) (h : R g g') (address : Nat) (reason : String) :
    Replies R (g.refuse address reason) (g'.refuse address reason) :=
  .intro (hR.report h (.badFree address reason))

theorem reallocateLarge (hR : Congruence R) (h : R g g') (address size : Nat)
    (block : Option Nat) :
    Replies R (g.reallocateLarge address size block) (g'.reallocateLarge address size block) := by
  unfold Guard.reallocateLarge
  rw [hR.large_eq h]
  cases g.large.reallocate block address size with
  | notOurs => exact hR.refuse h address _
  | failed => exact .intro h
  | moved target oldSize large => exact .intro (hR.copyBytes (hR.withLarge h large) ..)

theorem resizeSlot (hR : Congruence R) (h : R g g') (slot : Slot) (header : Header) (size : Nat) :
    Replies R (g.resizeSlot slot header size) (g'.resizeSlot slot header size) := by
  have hresized := hR.setHeader h slot.base (header.resize size)
  unfold Guard.resizeSlot
  simp only
  cases header.nextEpoch with
  | error f => exact .intro (hR.note hresized (.stop (.panicked f) rfl))
  | ok epoch => exact .intro (hR.trace hresized rfl)

theorem relocate (hR : Congruence R) (h : R g g') (address oldSize : Nat) (owner : TypeRecord)
    (size : Nat) (grant : Grant) :
    Replies R (g.relocate address oldSize owner size grant)
      (g'.relocate address oldSize owner size grant) := by
  have hplaced := hR.allocate h size owner.hash grant
  unfold Guard.relocate
  generalize g.allocate size owner.hash grant = placed,
    g'.allocate size owner.hash grant = placed' at hplaced
  cases hplaced with
  | @intro answer _ _ h₁ =>
      cases answer with
      | error e => exact .intro h₁
      | ok fresh => exact .intro (hR.free (hR.copyBytes h₁ ..) address)

theorem reallocate (hR : Congruence R) (h : R g g') (address size : Nat) (grant : Grant) :
    Replies R (g.reallocate address size grant) (g'.reallocate address size grant) := by
  have hs := hR.slots h
  unfold Guard.reallocate owned?
  split
  · exact hR.allocate h size .int8 grant
  · simp only [hs.resolve?_eq, hs.live?_eq, hR.registry_eq h, hs.classFor?_eq]
    cases g.heap.resolve? address with
    | none => exact hR.reallocateLarge h address size grant.block
    | some slot =>
        simp only
        split
        · exact hR.refuse h address _
        · split
          · exact hR.refuse h address _
          · split
            · exact hR.resizeSlot h slot _ size
            · exact hR.relocate h ..

/-! ## Checks -/

theorem bumps (hR : Congruence R) (h : R g g') {cs : List Counter} (plain : ∀ c ∈ cs, c.Plain) :
    R (cs.foldl Guard.bump g) (cs.foldl Guard.bump g') := by
  induction cs generalizing g g' with
  | nil => exact h
  | cons c cs ih => exact ih (hR.bump h (plain c (.head cs))) fun d hd => plain d (.tail c hd)

theorem settle (hR : Congruence R) (h : R g g') {v : Verdict}
    (plain : v.counters ⊆ Counter.ways) : R (g.settle v) (g'.settle v) := by
  have hcounted := hR.bumps h fun c hc => Counter.plain_of_mem_ways (plain hc)
  unfold Guard.settle
  cases v.tag with
  | none =>
      cases v.violation with
      | none => exact hcounted
      | some violation => exact hR.report hcounted violation
  | some kept =>
      have hkept := hR.remember hcounted kept.1 kept.2.1 kept.2.2
      cases v.violation with
      | none => exact hkept
      | some violation => exact hR.report hkept violation

theorem checkPointer (hR : Congruence R)
    (chains : ∀ {g g' : Guard}, R g g' → g'.heap.chains = g.heap.chains) (h : R g g') (p : Pointer)
    (expected : TypeHash) :
    Replies R (g.checkPointer p expected) (g'.checkPointer p expected) := by
  have hchecked := hR.trace (hR.bump h (c := .typeChecks) nofun)
    (l := .checked p.address (g.registry.nameOf expected)) rfl
  have hs := hR.slots hchecked
  unfold Guard.checkPointer
  rw [hR.registry_eq h]
  generalize (g.bump .typeChecks).trace (.checked p.address (g.registry.nameOf expected)) = b,
    (g'.bump .typeChecks).trace (.checked p.address (g.registry.nameOf expected)) = b' at hchecked hs
  have hjudge : b'.judge p expected = b.judge p expected := by
    simp only [judge, hs.resolve?_eq, hs.claimed?_eq, hR.registry_eq hchecked, Heap.chainOf,
      chains hchecked]
  simp only [hjudge]
  exact .intro (hR.settle hchecked (b.judge_counters p expected))

theorem checkBounds (hR : Congruence R) (h : R g g') (allowed : Bounds) (address : Nat)
    (lb ub : Int) :
    R (g.checkBounds allowed address lb ub) (g'.checkBounds allowed address lb ub) := by
  have hchecked := hR.trace (hR.bump h (c := .boundsChecks) nofun)
    (l := .boundsChecked address lb ub allowed) rfl
  unfold Guard.checkBounds
  simp only
  split
  · exact hchecked
  · exact hR.report hchecked _

/-! ## Bounds, and raw access within them -/

theorem boundsAt_eq (hR : Congruence R) (h : R g g') (address : Nat) :
    g'.boundsAt address = g.boundsAt address := by
  simp only [Guard.boundsAt, (hR.slots h).resolve?_eq, (hR.slots h).live?_eq]

theorem allowance (hR : Congruence R) (h : R g g') (address length : Nat) :
    Replies R (g.allowance address length) (g'.allowance address length) := by
  have hcounted := hR.bump h (c := .boundsChecks) nofun
  unfold Guard.allowance
  rw [(hR.slots h).resolve?_eq]
  split
  · exact .intro h
  · simp only [hR.boundsAt_eq hcounted]
    split
    · exact .intro (hR.report hcounted _)
    · exact .intro hcounted

theorem unlessHalted (h : R g g') {f : Guard → Guard} (hf : R (f g) (f g'))
    (account : ∀ g : Guard, g.SameAccount (f g)) :
    UpToEnd R (if g.halted then g else f g) (if g'.halted then g' else f g') := by
  have hbehind (g : Guard) : g.SameAccount (if g.halted then g else f g) := by
    split
    · exact .refl g
    · exact account g
  refine .intro h (hbehind g) (hbehind g') fun heq => ?_
  rw [heq]
  split
  · exact h
  · exact hf

theorem fill (hR : Congruence R) (h : R g g') (target : Nat) (value : UInt8) (length : Nat) :
    UpToEnd R (g.fill target value length) (g'.fill target value length) := by
  have hallowed := hR.allowance h target length
  unfold Guard.fill
  generalize g.allowance target length = allowed, g'.allowance target length = allowed'
    at hallowed
  cases hallowed with
  | @intro n _ _ h₁ =>
      exact unlessHalted (f := (·.setBytes target n value)) h₁ (hR.setBytes h₁ ..)
        fun _ => ⟨rfl, rfl, rfl, rfl⟩

theorem copy (hR : Congruence R) (h : R g g') (target source length : Nat) :
    UpToEnd R (g.copy target source length) (g'.copy target source length) := by
  have hsource := hR.allowance h source length
  unfold Guard.copy
  generalize g.allowance source length = allowed, g'.allowance source length = allowed' at hsource
  cases hsource with
  | @intro n g₁ g₁' h₁ =>
      have htarget := hR.allowance h₁ target length
      simp only
      generalize g₁.allowance target length = allowed, g₁'.allowance target length = allowed'
        at htarget
      cases htarget with
      | @intro m _ _ h₂ =>
          exact unlessHalted (f := (·.copyBytes target source (min n m))) h₂ (hR.copyBytes h₂ ..)
            fun _ => ⟨rfl, rfl, rfl, rfl⟩

/-! ## What a program asks -/

theorem capture_eq (hR : Congruence R) (h : R g g') (address : Nat) :
    g'.capture address = g.capture address := by
  have hlive : g'.heap.live? = g.heap.live? := funext (hR.slots h).live?_eq
  simp only [Guard.capture, (hR.slots h).resolve?_eq, hlive]

theorem placeOf_eq (hR : Congruence R) (h : R g g') (address : Nat) :
    g'.placeOf address = g.placeOf address := by
  simp only [placeOf, (hR.slots h).resolve?_eq, (hR.slots h).claimed?_eq, hR.large_eq h,
    hR.registry_eq h]

theorem runs_eq (hR : Congruence R) (h : R g g') (start length : Nat) :
    g'.runs start length = g.runs start length := by
  rw [Guard.runs, hR.memory_eq h, (hR.slots h).expose_eq, Guard.runs]

/-! ## Calls of programs without exceptions -/

theorem handOut (hR : Congruence R) {placed placed' : Except AllocError Bounds × Guard}
    (hr : Replies R placed placed') :
    Replies R (Interface.handOut placed) (Interface.handOut placed') := by
  cases hr with
  | @intro answer _ _ h =>
      cases answer with
      | ok b => exact .intro h
      | error e =>
          simp only [Interface.handOut]
          split
          · exact .intro h
          · exact .intro (hR.note h (.stop (.refused e) rfl))

theorem answerCheck (hR : Congruence R) {checked checked' : Checked Bounds × Guard}
    (hr : Replies R checked checked') :
    Replies R (Interface.answerCheck checked) (Interface.answerCheck checked') := by
  cases hr with
  | @intro answer _ _ h =>
      cases answer with
      | ok b => exact .intro h
      | error f => exact .intro (hR.note h (.stop (.panicked f) rfl))

theorem new (hR : Congruence R) (h : R g g') (size : Nat) (type : TypeHash) (grant : Grant) :
    Replies R (Interface.new g size type grant) (Interface.new g' size type grant) := by
  have hr : Replies R (Interface.malloc g size type grant) (Interface.malloc g' size type grant) :=
    hR.handOut (hR.allocate h size type grant)
  unfold Interface.new
  generalize Interface.malloc g size type grant = handed,
    Interface.malloc g' size type grant = handed' at hr
  cases hr with
  | intro h₁ =>
      simp only
      split
      · exact .intro (hR.note h₁ (.stop (.operatorFailed size) rfl))
      · exact .intro h₁

end Congruence

end Guard

end TypedHeap
