import TypedHeap.Guard.Check
import TypedHeap.Guard.Reallocation
import TypedHeap.Proofs.Histories
import TypedHeap.Proofs.RawAccess

/-! # Operations as moves

What each operation comes down to: which answer it gives, which moves its heap makes and what it
reports. Nothing here depends on how a guard got into its state, as long as the slots of its heap
are kept in order.
-/

namespace TypedHeap.Guard

open Heap (Move)

variable {g g' : Guard}

/-- The outer allocator offers no block for `size` bytes, or one outside the reserved range. -/
def OffersOutside (g : Guard) (block : Option Nat) (size : Nat) : Prop :=
  ∀ a, block = some a → g.heap.range.Avoids a (LargeHeap.blockSize size)

instance (g : Guard) : (block : Option Nat) → (size : Nat) → Decidable (g.OffersOutside block size)
  | none, _ => .isTrue nofun
  | some a, size =>
      decidable_of_iff (g.heap.range.Avoids a (LargeHeap.blockSize size))
        ⟨fun ha _ hb => Option.some.inj hb ▸ ha, fun ha => ha a rfl⟩

theorem SameParts.offersOutside (h : g.SameParts g') {block : Option Nat} {size : Nat}
    (hout : g.OffersOutside block size) : g'.OffersOutside block size := by
  intro a ha
  rw [h.heap_eq]
  exact hout a ha

/-! ## Allocation -/

theorem allocateLarge_cases {size : Nat} {zeroed : Bool} {block : Option Nat}
    {answer : Except AllocError Bounds} (hout : g.OffersOutside block size)
    (h : g.allocateLarge size zeroed block = (answer, g')) :
    (answer = .error (.outOfMemory size) ∧ g' = g) ∨
      ∃ a, block = some a ∧ answer = .ok ⟨a, a + size⟩ ∧
        g' = { g with
          large := g.large.record a (LargeHeap.blockSize size)
          memory := if zeroed then g.memory.set a (LargeHeap.blockSize size) 0 else g.memory } := by
  unfold allocateLarge LargeHeap.allocate? at h
  cases block with
  | none =>
      simp only [Option.map_none, Prod.mk.injEq] at h
      exact .inl ⟨h.1.symm, h.2.symm⟩
  | some a =>
      simp only [Option.map_some, Prod.mk.injEq] at h
      have hn : g.heap.headersAmong a (LargeHeap.blockSize size) = [] :=
        Heap.headersAmong_of_avoids (hout a rfl)
      refine .inr ⟨a, rfl, h.1.symm, ?_⟩
      rw [← h.2]
      exact clear_eq (g := { g with large := g.large.record a (LargeHeap.blockSize size) }) hn zeroed

def zeroing (g : Guard) (h' : Heap) (s : Slot) (size : Nat) (zeroed : Bool) : Guard :=
  { g with heap := h', memory := if zeroed then g.memory.set s.user size 0 else g.memory }

/-- What came of a request for an object in a slot of the class `c`. -/
inductive Slotted (g : Guard) (c : SizeClass) (type : TypeHash) (size : Nat) (zeroed : Bool)
    (refusal : Option String) : Except AllocError Bounds → Guard → Prop where
  | exhausted (left : (g.heap.take c.index refusal).1 = .exhausted) :
      Slotted g c type size zeroed refusal (.error (.regionExhausted c.size))
        (g.write (.exhausted c.size))
  | lost {s : Slot} {upto : Nat} {reason : String} {h' : Heap} (slot_eq : s.region = c.index)
      (taken : g.heap.take c.index refusal = (.refused upto reason, h'))
      (refused : refusal = some reason) (move : Move g.registry g.heap s .lost h') :
      Slotted g c type size zeroed refusal (.error (.outOfMemory c.size))
        ({ g with heap := h' }.write (.unopened c.index upto reason))
  | claimed {s : Slot} {line : Line} {h' : Heap} (slot_eq : s.region = c.index ∧ s.size = c.size)
      (taken : (g.heap.take c.index refusal).1 = .slot s.base) (quiet : line.violation? = none)
      (move : Move g.registry g.heap s (.claimed size type) h') :
      Slotted g c type size zeroed refusal (.ok (s.object size))
        ((g.zeroing h' s size zeroed).trace line)
  /-- No epoch is left for the slot. -/
  | worn {s : Slot} {f : ArithmeticFault} {h' : Heap} (slot_eq : s.region = c.index)
      (taken : g.heap.take c.index refusal = (.slot s.base, h'))
      (last : (g.heap.headerAt s.base).nextEpoch = .error f) (idle : g.heap.live? s = none)
      (carved : h'.Carved s) (fits : s.user + size ≤ s.finish)
      (spared : g.heap.Spares h' fun _ => False) :
      Slotted g c type size zeroed refusal (.error (.fault f))
        ((g.zeroing h' s size zeroed).halt (.panicked f))

theorem slotted_allocateSlot (k : g.heap.Kept g.registry) {c : SizeClass} {owner : TypeRecord}
    {size : Nat} (zeroed : Bool) (refusal : Option String)
    (hclass : g.heap.classFor? size = some c)
    (howned : g.registry.objectType? owner.hash = some owner) :
    g.Slotted c owner.hash size zeroed refusal
      (g.allocateSlot c owner size zeroed refusal).1
      (g.allocateSlot c owner size zeroed refusal).2 := by
  unfold allocateSlot takeSlot
  cases ht : g.heap.take c.index refusal with
  | mk taken h' =>
      cases taken with
      | exhausted =>
          obtain rfl := Heap.eq_of_take_exhausted ht
          exact .exhausted (congrArg Prod.fst ht)
      | refused upto reason =>
          obtain ⟨_, hnone, _⟩ | ⟨r, r', hr, htake, rfl⟩ := Heap.take_cases ht
          · cases hnone
          obtain ⟨hrefusal, _⟩ := Region.take_refused htake
          exact .lost (s := ⟨c.index, r.next, c.size⟩) rfl ht hrefusal (.lost hclass hr rfl ht)
      | slot base =>
          let s : Slot := ⟨c.index, base, c.size⟩
          obtain ⟨hframed, r', hs, hcarves, hopen⟩ := k.isSlot_of_take hclass ht
          have hcarved : h'.Carved s := ⟨r', hs, hcarves⟩
          have hhas : h'.hasHeader base = true := hframed.hasHeader_of_carved hcarved
          have hfits : s.user + size ≤ s.finish := by
            have := (SizeClasses.select?_eq_some hclass).2
            simp only [s, Slot.user, Slot.finish]
            omega
          have hread : ({ g with heap := h' } : Guard).header? c.index base =
              some (g.heap.headerAt base) := by
            rw [header?, if_pos hhas, ← Heap.headerAt_take ht]
            exact hframed.header?_of_opens hs hcarves hopen
          -- no byte of a header is cleared
          have hn := hframed.headersAmong_of_within hcarved (Nat.le_refl _) hfits
          have hclear : ({ g with heap := h' } : Guard).clear (base + headerSize) size zeroed =
              g.zeroing h' s size zeroed := clear_eq hn zeroed
          simp only [hread, hclear]
          cases hnext : (g.heap.headerAt base).nextEpoch with
          | error f =>
              exact .worn (s := s) rfl ht hnext (Heap.live?_eq_none_of_idle (k.idle_of_take ht))
                hcarved hfits (k.spares_take hclass ht)
          | ok epoch =>
              let header := (g.heap.headerAt base).claim (g.registry.reference owner.hash) size epoch
              have hm : Move g.registry g.heap s (.claimed size owner.hash) (h'.renew base header) :=
                .claimed hclass howned ht hnext
              have hput : (g.zeroing h' s size zeroed).putHeader base header =
                  g.zeroing (h'.renew base header) s size zeroed := putHeader_of_hasHeader hhas header
              simp only
              exact hput ▸ .claimed ⟨rfl, rfl⟩ (congrArg Prod.fst ht) rfl hm

theorem slotted_allocateObject (k : g.heap.Kept g.registry) {size : Nat} {type : TypeHash}
    {owner : TypeRecord} {c : SizeClass} (zeroed : Bool) (grant : Grant)
    (howner : g.registry.objectType? type = some owner) (hclass : g.heap.classFor? size = some c) :
    (g.bump .allocations).Slotted c type size zeroed grant.refusal
      (g.allocateObject size type zeroed grant).1 (g.allocateObject size type zeroed grant).2 := by
  obtain rfl := Registry.hash_of_objectType? howner
  have hb := g.silent_bump .allocations
  have hslot := slotted_allocateSlot (hb.kept k) zeroed grant.refusal (hb.heap_eq ▸ hclass)
    (hb.registry_eq ▸ howner)
  unfold allocateObject
  simp only [howner, hb.heap_eq, hclass]
  exact hslot

/-- What came of a request for an object: none, one in a block outside the reserved range, or one
in a slot. -/
inductive Placed (g : Guard) (size : Nat) (type : TypeHash) (refusal : Option String) :
    Except AllocError Bounds → Guard → Prop where
  | refused {e : AllocError} {g' : Guard} (same : g'.heap = g.heap) (calm : g.Calm g') :
      Placed g size type refusal (.error e) g'
  | lost {s : Slot} {e : AllocError} {g' : Guard} (refused : refusal ≠ none)
      (move : Move g.registry g.heap s .lost g'.heap) (calm : g.Calm g') :
      Placed g size type refusal (.error e) g'
  | worn {e : AllocError} {g' : Guard} (halted : g'.halted = true)
      (violations_eq : g'.violations = g.violations)
      (spared : g.heap.Spares g'.heap fun _ => False) : Placed g size type refusal (.error e) g'
  | block {a : Nat} {g' : Guard} (outside : g.heap.range.Avoids a (LargeHeap.blockSize size))
      (same : g'.heap = g.heap) (calm : g.Calm g') :
      Placed g size type refusal (.ok ⟨a, a + size⟩) g'
  | slot {s : Slot} {g' : Guard} (move : Move g.registry g.heap s (.claimed size type) g'.heap)
      (calm : g.Calm g') : Placed g size type refusal (.ok (s.object size)) g'

theorem Placed.after {b : Guard} {size : Nat} {type : TypeHash} {refusal : Option String}
    {answer : Except AllocError Bounds} (hb : g.Silent b)
    (hp : b.Placed size type refusal answer g') : g.Placed size type refusal answer g' := by
  cases hp with
  | refused same calm => exact .refused (same.trans hb.heap_eq) (hb.calm.trans calm)
  | lost refused move calm =>
      rw [hb.heap_eq, hb.registry_eq] at move
      exact .lost refused move (hb.calm.trans calm)
  | worn halted violations_eq spared =>
      exact .worn halted (violations_eq.trans hb.violations_eq) (hb.heap_eq ▸ spared)
  | block outside same calm =>
      exact .block (hb.heap_eq ▸ outside) (same.trans hb.heap_eq) (hb.calm.trans calm)
  | slot move calm =>
      rw [hb.heap_eq, hb.registry_eq] at move
      exact .slot move (hb.calm.trans calm)

theorem placed_allocateLarge {size : Nat} (type : TypeHash) (zeroed : Bool) {block : Option Nat}
    (hout : g.OffersOutside block size) (refusal : Option String) :
    g.Placed size type refusal (g.allocateLarge size zeroed block).1
      (g.allocateLarge size zeroed block).2 := by
  cases h : g.allocateLarge size zeroed block with
  | mk answer g' =>
      rcases allocateLarge_cases hout h with ⟨rfl, rfl⟩ | ⟨a, ha, rfl, rfl⟩
      · exact .refused rfl ⟨rfl, rfl, rfl, rfl⟩
      · exact .block (hout a ha) rfl ⟨rfl, rfl, rfl, rfl⟩

theorem Slotted.placed {c : SizeClass} {size : Nat} {type : TypeHash} {zeroed : Bool}
    {refusal : Option String} {answer : Except AllocError Bounds}
    (hs : g.Slotted c type size zeroed refusal answer g') :
    g.Placed size type refusal answer g' := by
  cases hs with
  | exhausted _ =>
      have hquiet : (Line.exhausted c.size).violation? = none := rfl
      have hw := g.silent_write hquiet
      exact .refused hw.heap_eq hw.calm
  | @lost s upto reason h' _ _ refused move =>
      have hquiet : (Line.unopened c.index upto reason).violation? = none := rfl
      have hw := silent_write { g with heap := h' } hquiet
      refine .lost (s := s) (refused ▸ nofun) ?_
        ⟨hw.config_eq, hw.registry_eq, hw.violations_eq, hw.halted_eq⟩
      rw [hw.heap_eq]
      exact move
  | @claimed s line h' _ _ quiet move =>
      have ht := silent_trace (g.zeroing h' s size zeroed) quiet
      refine .slot ?_ ⟨ht.config_eq, ht.registry_eq, ht.violations_eq, ht.halted_eq⟩
      rw [ht.heap_eq]
      exact move
  | @worn s f h' _ _ _ _ _ _ spared =>
      have hquiet : (Line.panicked f).violation? = none := rfl
      refine .worn rfl (violations_halt _ hquiet) ?_
      rw [(sameParts_halt ..).heap_eq]
      exact spared

theorem placed_allocateObject (k : g.heap.Kept g.registry) {size : Nat} (type : TypeHash)
    (zeroed : Bool) {grant : Grant} (hout : g.OffersOutside grant.block size) :
    g.Placed size type grant.refusal (g.allocateObject size type zeroed grant).1
      (g.allocateObject size type zeroed grant).2 := by
  have hb := g.silent_bump .allocations
  cases howner : g.registry.objectType? type with
  | none =>
      simp only [allocateObject, howner]
      exact .refused rfl ⟨rfl, rfl, rfl, rfl⟩
  | some owner =>
      cases hclass : g.heap.classFor? size with
      | none =>
          simp only [allocateObject, howner, hb.heap_eq, hclass]
          exact (placed_allocateLarge type zeroed (hb.offersOutside hout) _).after hb
      | some c => exact (slotted_allocateObject k zeroed grant howner hclass).placed.after hb

theorem Placed.violations_eq {size : Nat} {type : TypeHash} {refusal : Option String}
    {answer : Except AllocError Bounds} (hp : g.Placed size type refusal answer g') :
    g'.violations = g.violations := by
  cases hp with
  | refused _ calm | lost _ _ calm | block _ _ calm | slot _ calm => exact calm.violations_eq
  | worn _ violations_eq _ => exact violations_eq

theorem placed_allocate (k : g.heap.Kept g.registry) {size : Nat} (type : TypeHash) {grant : Grant}
    (hout : g.OffersOutside grant.block size) :
    g.Placed size type grant.refusal (g.allocate size type grant).1
      (g.allocate size type grant).2 :=
  placed_allocateObject k type false hout

theorem placed_allocateZeroed (k : g.heap.Kept g.registry) {count size : Nat} (type : TypeHash)
    {grant : Grant} (hout : g.OffersOutside grant.block (count * size)) :
    g.Placed (count * size) type grant.refusal (g.allocateZeroed count size type grant).1
      (g.allocateZeroed count size type grant).2 := by
  unfold allocateZeroed
  split
  · exact .refused rfl ⟨rfl, rfl, rfl, rfl⟩
  · exact placed_allocateObject k type true hout

/-! ## Freeing -/

def reclaimed (g : Guard) (s : Slot) : Memory :=
  match g.heap.reclaimed? s.region s.base with
  | none => g.memory
  | some (start, length) => g.memory.reclaim start length

theorem harmless_pagesWithin {s : Slot} (hc : g.heap.Carved s) {start length : Nat}
    (hr : g.heap.reclaimed? s.region s.base = some (start, length)) :
    g.heap.Harmless (· = s) (pagesWithin start length).1 (pagesWithin start length).2 := by
  by_cases hpos : 0 < (pagesWithin start length).2
  · obtain ⟨r, hs, _⟩ := id hc
    simp only [Heap.reclaimed?, hs.region_eq] at hr
    split at hr
    · simp only [Option.some.injEq, Prod.mk.injEq] at hr
      have hup : start ≤ roundUp start pageSize := le_roundUp (by decide)
      have hdown := roundDown_le (start + length) pageSize
      have hsize := hs.size_eq
      simp only [pagesWithin] at hpos ⊢
      refine .inr (.inr ⟨s, hc, rfl, ?_, ?_⟩) <;> simp only [Slot.user, Slot.finish] <;> omega
    · cases hr
  · exact .inl (Nat.eq_zero_of_not_pos hpos)

theorem putSlot_eq (f : g.heap.Framed) {s : Slot} (hc : g.heap.Carved s) :
    g.putSlot s.region s.base =
      { g with memory := g.reclaimed s, heap := g.heap.putBack s.region s.base } := by
  unfold putSlot reclaimed
  cases hr : g.heap.reclaimed? s.region s.base with
  | none => rfl
  | some pages =>
      obtain ⟨start, length⟩ := pages
      have hn := f.headersAmong_of_harmless (harmless_pagesWithin hc hr)
      simp only [setBytes_eq hn]
      rfl

/-- `address` is the start of the object in use in the slot it resolves to. -/
structure Heads (g : Guard) (address : Nat) (s : Slot) : Prop where
  resolved : g.heap.resolve? address = some s
  user_eq : address = s.user
  live : (g.heap.live? s).isSome

/-- `address` is where the object freed last started, in the slot it resolves to. -/
structure Spent (g : Guard) (address : Nat) (s : Slot) : Prop where
  resolved : g.heap.resolve? address = some s
  user_eq : address = s.user
  freed : ∃ header, g.heap.claimed? s = some header ∧ header.phase = some .freed

theorem sameHeap_freeLarge (g : Guard) (address : Nat) : g.SameHeap (g.freeLarge address) := by
  unfold freeLarge
  split
  · exact ⟨rfl, rfl, rfl⟩
  · exact (g.sameParts_report _).sameHeap
  · exact (g.sameParts_report _).sameHeap

theorem releaseOf_eq_released_iff (k : g.heap.Kept g.registry) {s : Slot} {r : Region}
    (hs : g.heap.IsSlot s r) {alone : Bool} {address : Nat} {header : Header} :
    g.heap.releaseOf alone s address = .released header ↔
      address = s.user ∧ ∃ old, g.heap.live? s = some old ∧ header = Heap.released old := by
  unfold Heap.releaseOf
  cases hc : g.heap.claimed? s with
  | none => simp [Heap.live?_of_claimed?_eq_none hc]
  | some old =>
      rcases k.claimed?_cases hs hc with ⟨hu, hl⟩ | ⟨hf, hl⟩
      · simp only [Header.sane_of_isLive hu.live, Bool.not_true, Bool.false_eq_true, if_false, hl,
          Option.some.injEq, exists_eq_left', Header.releaseBy_eq,
          Header.release_of_isAllocated (Header.allocated_of_isLive hu.live)]
        split
        · next hne => simp [hne]
        · next heq =>
          simp only [Decidable.not_not] at heq
          simp only [heq, Release.released.injEq, true_and]
          exact eq_comm
      · simp only [hf.sane, Bool.not_true, Bool.false_eq_true, if_false, Header.releaseBy_eq,
          hf.release_eq, hl]
        split <;> simp

/-- What is refused is reported as a double free where an object was freed, or else as a bad one. -/
theorem releaseOf_eq_refused (k : g.heap.Kept g.registry) {s : Slot} {r : Region}
    (hs : g.heap.IsSlot s r) {alone : Bool} {address : Nat} {v : Violation}
    (h : g.heap.releaseOf alone s address = .refused v) :
    (address = s.user ∧ (∃ old, g.heap.claimed? s = some old ∧ old.phase = some .freed) ∧
        v = .doubleFree address) ∨
      (address = s.user → g.heap.claimed? s = none) ∧ ∃ reason, v = .badFree address reason := by
  unfold Heap.releaseOf at h
  cases hc : g.heap.claimed? s with
  | none =>
      simp only [hc, Release.refused.injEq] at h
      exact .inr ⟨fun _ => rfl, _, h.symm⟩
  | some old =>
      have hsane : old.isSane = true := by
        rcases k.claimed?_cases hs hc with ⟨hu, _⟩ | ⟨hf, _⟩
        · exact Header.sane_of_isLive hu.live
        · exact hf.sane
      simp only [hc, hsane, Bool.not_true, Bool.false_eq_true, if_false, Header.releaseBy_eq] at h
      split at h
      · next hne => exact .inr ⟨fun heq => absurd heq hne, _, (Release.refused.inj h).symm⟩
      · next heq =>
        simp only [Decidable.not_not] at heq
        rcases k.claimed?_cases hs hc with ⟨hu, _⟩ | ⟨hf, _⟩
        · rw [Header.release_of_isAllocated (Header.allocated_of_isLive hu.live)] at h
          cases h
        · rw [hf.release_eq] at h
          exact .inl ⟨heq, ⟨old, rfl, hf.phase_eq⟩, (Release.refused.inj h).symm⟩

theorem Heads.inSlot (f : g.heap.Framed) {address : Nat} {s : Slot} (hh : g.Heads address s) :
    ∃ r header, g.heap.IsSlot s r ∧ g.heap.live? s = some header := by
  obtain ⟨r, hs, _⟩ := f.resolve?_eq_some_iff.mp hh.resolved
  obtain ⟨header, hl⟩ := Option.isSome_iff_exists.mp hh.live
  exact ⟨r, header, hs, hl⟩

theorem Heads.ne_zero {address : Nat} {s : Slot} (hh : g.Heads address s) : address ≠ 0 := by
  have huser := hh.user_eq
  have hheader : headerSize = 48 := rfl
  simp only [Slot.user] at huser
  omega

theorem free_eq_of_heads (k : g.heap.Kept g.registry) {address : Nat} {s : Slot}
    (hh : g.Heads address s) : ∃ r header, g.heap.IsSlot s r ∧ g.heap.live? s = some header ∧
      g.free address = { g.bump .frees with
        heap := (g.heap.renew s.base (Heap.released header)).putBack s.region s.base
        memory := g.reclaimed s }.trace (.freed address header.epoch) := by
  obtain ⟨r, header, hs, hl⟩ := hh.inSlot k.framed
  have hrelease (alone : Bool) :
      g.heap.releaseOf alone s address = .released (Heap.released header) :=
    (releaseOf_eq_released_iff k hs).mpr ⟨hh.user_eq, header, hl, rfl⟩
  have hb := g.silent_bump .frees
  refine ⟨r, header, hs, hl, ?_⟩
  unfold free
  rw [if_neg hh.ne_zero]
  simp only [hb.heap_eq, hh.resolved, hrelease]
  let retired : Guard := (g.bump .frees).renew s.base (Heap.released header)
  have hheap : retired.heap = g.heap.renew s.base (Heap.released header) := by
    simp only [retired, renew, hb.heap_eq]
  have hcarved : retired.heap.Carved s := by
    rw [hheap]
    exact Heap.carved_renew.mpr (k.carved_of_live hs hl)
  have hframed : retired.heap.Framed := hheap ▸ Heap.framed_renew.mpr k.framed
  have hmemory : retired.reclaimed s = g.reclaimed s := by
    simp only [reclaimed, hheap]
    exact congrArg (fun m : Memory => match g.heap.reclaimed? s.region s.base with
      | none => m
      | some (start, length) => m.reclaim start length) hb.memory_eq
  have hput := putSlot_eq hframed hcarved
  rw [hmemory, hheap] at hput
  exact congrArg (trace · _) hput

theorem free_of_heads (k : g.heap.Kept g.registry) {address : Nat} {s : Slot}
    (hh : g.Heads address s) :
    Move g.registry g.heap s .released (g.free address).heap ∧ g.Calm (g.free address) := by
  obtain ⟨r, header, hs, hl, hfree⟩ := free_eq_of_heads k hh
  have hline : (Line.freed address header.epoch).violation? = none := rfl
  have hb := g.silent_bump .frees
  have ht := silent_trace { g.bump .frees with
    heap := (g.heap.renew s.base (Heap.released header)).putBack s.region s.base
    memory := g.reclaimed s } hline
  rw [hfree]
  refine ⟨?_, hb.calm.trans ⟨ht.config_eq, ht.registry_eq, ht.violations_eq, ht.halted_eq⟩⟩
  rw [ht.heap_eq]
  exact .released hs hl

/-- Freeing any other address of the reserved range reports one violation: a double free where an
object was freed, or else a bad free. -/
theorem free_of_not_heads (k : g.heap.Kept g.registry) {address : Nat} {s : Slot}
    (hres : g.heap.resolve? address = some s) (hnot : ¬ g.Heads address s) (hne : address ≠ 0) :
    ∃ v, g.free address = (g.bump .frees).report v ∧
      (g.Spent address s ∧ v = .doubleFree address ∨
        ¬ g.Spent address s ∧ ∃ reason, v = .badFree address reason) := by
  obtain ⟨r, hs, _⟩ := k.framed.resolve?_eq_some_iff.mp hres
  unfold free
  rw [if_neg hne]
  simp only [(g.silent_bump .frees).heap_eq, hres]
  cases hrelease : g.heap.releaseOf (g.bump .frees).config.singleThreaded s address with
  | refused v =>
      refine ⟨v, rfl, ?_⟩
      rcases releaseOf_eq_refused k hs hrelease with ⟨huser, hfreed, hv⟩ | ⟨hnever, hv⟩
      · exact .inl ⟨⟨hres, huser, hfreed⟩, hv⟩
      · refine .inr ⟨fun hspent => ?_, hv⟩
        obtain ⟨_, hclaimed, _⟩ := hspent.freed
        exact nomatch hclaimed.symm.trans (hnever hspent.user_eq)
  | released header =>
      obtain ⟨huser, old, hl, _⟩ := (releaseOf_eq_released_iff k hs).mp hrelease
      exact absurd ⟨hres, huser, by simp [hl]⟩ hnot

theorem sameHeap_free (k : g.heap.Kept g.registry) {address : Nat}
    (hnot : ∀ s, ¬ g.Heads address s) : g.SameHeap (g.free address) := by
  by_cases hzero : address = 0
  · rw [free, if_pos hzero]
    exact ⟨rfl, rfl, rfl⟩
  · have hb := (g.silent_bump .frees).toSameParts.sameHeap
    cases hres : g.heap.resolve? address with
    | none =>
        simp only [free, hzero, if_false, (g.silent_bump .frees).heap_eq, hres]
        exact hb.trans (sameHeap_freeLarge ..)
    | some s =>
        obtain ⟨v, hfree, _⟩ := free_of_not_heads k hres (hnot s) hzero
        rw [hfree]
        exact hb.trans (sameParts_report ..).sameHeap

/-! ## Reallocation -/

/-- What came of a request to give the object at an address another size. -/
inductive Reallocated (g : Guard) (address size : Nat) (refusal : Option String) :
    Except AllocError Bounds → Guard → Prop where
  | fresh {answer : Except AllocError Bounds} {g' : Guard} (null : address = 0)
      (placed : g.Placed size .int8 refusal answer g') : Reallocated g address size refusal answer g'
  | foreign {a : Nat} {g' : Guard} (resolved : g.heap.resolve? address = none)
      (outside : g.heap.range.Avoids a (LargeHeap.blockSize size)) (same : g.SameHeap g') :
      Reallocated g address size refusal (.ok ⟨a, a + size⟩) g'
  | refused {e : AllocError} {g' : Guard} (same : g.SameHeap g') :
      Reallocated g address size refusal (.error e) g'
  | inPlace {s : Slot} {g' : Guard} (heads : g.Heads address s)
      (move : Move g.registry g.heap s (.resized size) g'.heap) (calm : g.Calm g') :
      Reallocated g address size refusal (.ok (s.object size)) g'
  | moved {s : Slot} {type : TypeHash} {fresh : Bounds} {g₁ g' : Guard}
      (heads : g.Heads address s) (placed : g.Placed size type refusal (.ok fresh) g₁)
      (move : Move g₁.registry g₁.heap s .released g'.heap) (calm : g₁.Calm g') :
      Reallocated g address size refusal (.ok fresh) g'
  | unplaced {s : Slot} {type : TypeHash} {e : AllocError} {g' : Guard}
      (heads : g.Heads address s) (placed : g.Placed size type refusal (.error e) g') :
      Reallocated g address size refusal (.error e) g'
  | worn {s : Slot} {e : AllocError} {g' : Guard} (heads : g.Heads address s)
      (halted : g'.halted = true) (spared : g.heap.Spares g'.heap (· = s)) :
      Reallocated g address size refusal (.error e) g'

theorem sameHeap_refuse (g : Guard) (address : Nat) (reason : String) :
    g.SameHeap (g.refuse address reason).2 := (g.sameParts_report _).sameHeap

theorem reallocated_reallocateLarge {address size : Nat} {block : Option Nat}
    (hres : g.heap.resolve? address = none) (hout : g.OffersOutside block size)
    (refusal : Option String) :
    g.Reallocated address size refusal (g.reallocateLarge address size block).1
      (g.reallocateLarge address size block).2 := by
  unfold reallocateLarge LargeHeap.reallocate
  cases g.large.live[address]? with
  | none => exact .refused (sameHeap_refuse ..)
  | some oldSize =>
      cases block with
      | none => exact .refused ⟨rfl, rfl, rfl⟩
      | some target =>
          have havoids := hout target rfl
          have hn : g.heap.headersAmong target (min oldSize (LargeHeap.blockSize size)) = [] :=
            Heap.headersAmong_of_avoids (havoids.mono (Nat.min_le_right ..))
          let large := LargeHeap.record { g.large with live := g.large.live.erase address } target
            (LargeHeap.blockSize size)
          have hcopy : Guard.copyBytes { g with large } target address
              (min oldSize (LargeHeap.blockSize size)) = _ := copyBytes_eq hn
          refine .foreign hres havoids ?_
          simp only
          rw [hcopy]
          exact ⟨rfl, rfl, rfl⟩

section Placements

variable {size : Nat} {type : TypeHash} {refusal : Option String} {fresh : Bounds} {g₁ : Guard}

theorem Placed.harmless (hp : g.Placed size type refusal (.ok fresh) g₁)
    (k : g.heap.Kept g.registry) {length : Nat} (hle : length ≤ size) :
    g₁.heap.Harmless (fun s => g.heap.live? s = none) fresh.lower length := by
  cases hp with
  | block outside same _ =>
      rw [same]
      exact .inr (.inl (outside.mono (Nat.le_trans hle (Nat.le_max_left ..))))
  | @slot s _ move _ =>
      have hfits := move.claimed_fits
      refine .inr (.inr ⟨s, move.carved_self k,
        Heap.live?_eq_none_of_idle (move.idle_before k), Nat.le_refl _, ?_⟩)
      simp only [Slot.object]
      omega

theorem Placed.calm (hp : g.Placed size type refusal (.ok fresh) g₁) : g.Calm g₁ := by
  cases hp with
  | block _ _ calm => exact calm
  | slot _ calm => exact calm

theorem Placed.kept (hp : g.Placed size type refusal (.ok fresh) g₁) (k : g.heap.Kept g.registry) :
    g₁.heap.Kept g₁.registry := by
  rw [hp.calm.registry_eq]
  cases hp with
  | block _ same _ => exact same ▸ k
  | slot move _ => exact k.move move

theorem Placed.heads (hp : g.Placed size type refusal (.ok fresh) g₁)
    (k : g.heap.Kept g.registry) {address : Nat} {s : Slot} (hh : g.Heads address s) :
    g₁.Heads address s := by
  cases hp with
  | block _ same _ => exact ⟨same ▸ hh.resolved, hh.user_eq, same ▸ hh.live⟩
  | slot move _ =>
      obtain ⟨r, header, hs, hl⟩ := hh.inSlot k.framed
      have hcarved := k.carved_of_live hs hl
      have hne := move.ne_of_live k hs hl
      refine ⟨(move.resolve?_eq k address).trans hh.resolved, hh.user_eq, ?_⟩
      rw [move.live?_eq k hcarved hne]
      exact hh.live

theorem Placed.copied {length : Nat} (hp : g.Placed size type refusal (.ok fresh) g₁)
    (k : g.heap.Kept g.registry) (hle : length ≤ size) (source : Nat) {address : Nat} {s : Slot}
    (hh : g.Heads address s) :
    ∃ memory, g₁.copyBytes fresh.lower source length = { g₁ with memory } ∧
      ({ g₁ with memory } : Guard).Heads address s := by
  have hn := (hp.kept k).framed.headersAmong_of_harmless (hp.harmless k hle)
  have hheads := hp.heads k hh
  exact ⟨_, copyBytes_eq hn, hheads.resolved, hheads.user_eq, hheads.live⟩

end Placements

theorem reallocated_relocate (k : g.heap.Kept g.registry) {address size oldSize : Nat}
    {owner : TypeRecord} {s : Slot} {grant : Grant} (hh : g.Heads address s)
    (hout : g.OffersOutside grant.block size) :
    g.Reallocated address size grant.refusal (g.relocate address oldSize owner size grant).1
      (g.relocate address oldSize owner size grant).2 := by
  have hplaced := placed_allocate k owner.hash hout
  unfold relocate
  cases h : g.allocate size owner.hash grant with
  | mk answer g₁ =>
      simp only [h] at hplaced
      cases answer with
      | error e => exact .unplaced hh hplaced
      | ok fresh =>
          obtain ⟨memory, hcopy, hheads⟩ :=
            hplaced.copied k (Nat.min_le_right oldSize size) address hh
          obtain ⟨hmove, hcalm⟩ := free_of_heads (g := { g₁ with memory }) (hplaced.kept k) hheads
          simp only [hcopy]
          exact .moved hh hplaced hmove
            ⟨hcalm.config_eq, hcalm.registry_eq, hcalm.violations_eq, hcalm.halted_eq⟩

theorem class_eq_of_index (f : g.heap.Framed) {s : Slot} {r : Region} (hs : g.heap.IsSlot s r)
    {c : SizeClass} {size : Nat} (hc : g.heap.classFor? size = some c) (hindex : c.index = s.region) :
    c = ⟨s.region, s.size⟩ := by
  have hget := (SizeClasses.select?_eq_some hc).1
  rw [hindex, f.class_eq hs.region_eq, ← hs.size_eq] at hget
  obtain ⟨index, classSize⟩ := c
  rw [SizeClass.mk.injEq]
  exact ⟨hindex, (Option.some.inj hget).symm⟩

/-- A size of the same class is had by a resize, unless no epoch is left for the slot. -/
theorem reallocated_resizeSlot (k : g.heap.Kept g.registry) {address size : Nat} {s : Slot}
    {header : Header} (hheads : g.Heads address s) (hl : g.heap.live? s = some header)
    (hclass : (g.heap.classFor? size).map (·.index) = some s.region) (refusal : Option String) :
    g.Reallocated address size refusal (g.resizeSlot s header size).1
      (g.resizeSlot s header size).2 := by
  obtain ⟨r, hs, _⟩ := k.framed.resolve?_eq_some_iff.mp hheads.resolved
  obtain ⟨c, hc, hindex⟩ := Option.map_eq_some_iff.mp hclass
  unfold resizeSlot
  cases hnext : header.nextEpoch with
  | error f =>
      refine .worn hheads rfl ?_
      simp only
      rw [(sameParts_halt ..).heap_eq]
      exact k.spares_setHeader hs (k.carved_of_live hs hl) _
  | ok epoch =>
      have hline : (Line.resized s.user size epoch).violation? = none := rfl
      have ht := silent_trace (g.setHeader s.base (header.resize size)) hline
      refine .inPlace hheads ?_ ⟨ht.config_eq, ht.registry_eq, ht.violations_eq, ht.halted_eq⟩
      simp only
      rw [ht.heap_eq]
      exact .resized hs hl (class_eq_of_index k.framed hs hc hindex ▸ hc) hnext

/-! What a request comes to by the state of the slot that the address lies in. -/

section Requests

variable {address size : Nat} {s : Slot} {header : Header} {owner : TypeRecord}

theorem owned?_eq_some_iff : g.owned? s = some (header, owner) ↔
    g.heap.live? s = some header ∧ g.registry.referred? header.owner = some owner := by
  unfold owned?
  cases g.heap.live? s with
  | none => simp
  | some live =>
      simp only [Option.bind_some, Option.map_eq_some_iff, Prod.mk.injEq, Option.some.injEq]
      constructor
      · intro h
        obtain ⟨_, href, rfl, rfl⟩ := h
        exact ⟨rfl, href⟩
      · intro h
        obtain ⟨rfl, href⟩ := h
        exact ⟨owner, href, rfl, rfl⟩

theorem Heads.owned (k : g.heap.Kept g.registry) (hh : g.Heads address s) :
    ∃ header owner, g.owned? s = some (header, owner) ∧
      g.registry.objectType? owner.hash = some owner := by
  obtain ⟨r, header, hs, hl⟩ := hh.inSlot k.framed
  obtain ⟨owner, howner, href⟩ := (k.inUse_of_live hs hl).1.owned
  have hreferred := href ▸ Registry.referred?_of_objectType? howner
  exact ⟨header, owner, owned?_eq_some_iff.mpr ⟨hl, hreferred⟩, howner⟩

theorem reallocate_of_heads (hh : g.Heads address s) (howned : g.owned? s = some (header, owner))
    (grant : Grant) : g.reallocate address size grant =
      if (g.heap.classFor? size).map (·.index) = some s.region then g.resizeSlot s header size
      else g.relocate address header.size owner size grant := by
  unfold reallocate
  rw [if_neg hh.ne_zero]
  simp only [hh.resolved, howned]
  exact if_neg fun hne => hne hh.user_eq

theorem reallocate_of_not_heads (hres : g.heap.resolve? address = some s)
    (hnot : ¬ g.Heads address s) (hne : address ≠ 0) (grant : Grant) :
    ∃ reason, g.reallocate address size grant = g.refuse address reason := by
  unfold reallocate
  rw [if_neg hne]
  simp only [hres]
  cases howned : g.owned? s with
  | none => exact ⟨_, rfl⟩
  | some owned =>
      obtain ⟨header, owner⟩ := owned
      have hl := (owned?_eq_some_iff.mp howned).1
      exact ⟨_, if_pos fun heq => hnot ⟨hres, heq, by simp [hl]⟩⟩

theorem reallocate_of_resolve?_eq_none (hres : g.heap.resolve? address = none) (hne : address ≠ 0)
    (grant : Grant) :
    g.reallocate address size grant = g.reallocateLarge address size grant.block := by
  unfold reallocate
  rw [if_neg hne]
  simp only [hres]

/-- A request asks for a new object, is one to the large heap, is about an object in use, or is
refused. -/
theorem reallocate_cases (k : g.heap.Kept g.registry) (address size : Nat) (grant : Grant) :
    (address = 0 ∧ g.reallocate address size grant = g.allocate size .int8 grant) ∨
      (g.heap.resolve? address = none ∧
        g.reallocate address size grant = g.reallocateLarge address size grant.block) ∨
      (∃ s header owner, g.Heads address s ∧ g.owned? s = some (header, owner) ∧
        g.reallocate address size grant =
          if (g.heap.classFor? size).map (·.index) = some s.region then g.resizeSlot s header size
          else g.relocate address header.size owner size grant) ∨
      ∃ reason, g.reallocate address size grant = g.refuse address reason := by
  by_cases hzero : address = 0
  · exact .inl ⟨hzero, if_pos hzero⟩
  · cases hres : g.heap.resolve? address with
    | none => exact .inr (.inl ⟨rfl, reallocate_of_resolve?_eq_none hres hzero grant⟩)
    | some s =>
        by_cases hh : g.Heads address s
        · obtain ⟨header, owner, howned, _⟩ := hh.owned k
          exact .inr (.inr (.inl ⟨s, header, owner, hh, howned, reallocate_of_heads hh howned grant⟩))
        · exact .inr (.inr (.inr (reallocate_of_not_heads hres hh hzero grant)))

end Requests

theorem reallocated_reallocate (k : g.heap.Kept g.registry) (address : Nat) {size : Nat}
    {grant : Grant} (hout : g.OffersOutside grant.block size) :
    g.Reallocated address size grant.refusal (g.reallocate address size grant).1
      (g.reallocate address size grant).2 := by
  rcases reallocate_cases k address size grant with
    ⟨hzero, heq⟩ | ⟨hres, heq⟩ | ⟨s, header, owner, hh, howned, heq⟩ | ⟨reason, heq⟩
  all_goals rw [heq]
  · exact .fresh hzero (placed_allocate k .int8 hout)
  · exact reallocated_reallocateLarge hres hout _
  · split
    · next hclass => exact reallocated_resizeSlot k hh (owned?_eq_some_iff.mp howned).1 hclass _
    · exact reallocated_relocate k hh hout
  · exact .refused (sameHeap_refuse ..)

end TypedHeap.Guard
