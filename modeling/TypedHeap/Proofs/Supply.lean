import TypedHeap.Proofs.Contents
import TypedHeap.Proofs.Ownership

/-! # The supply of slots

Bump pointer, queue and headers of a region tell the same story in every reachable state: each slot
handed out so far is in use or waits in the queue, once, and everything behind the bump pointer is
zero. So no slot is lost or handed out twice, and a class runs out only when all its slots are in
use.
-/

namespace TypedHeap

open Heap (Move)

/-! ## Slots by number -/

namespace Region

variable {r : Region} {heapStart shift base : Nat}

def capacity (r : Region) : Nat := (r.finish - r.first) / r.size

theorem Sound.finish_tiles (s : r.Sound heapStart shift) : r.Tiles r.finish := by
  refine ⟨by rw [s.finish_eq]; omega, ?_⟩
  rw [s.finish_eq, Nat.add_sub_cancel_left]
  exact Nat.dvd_mul_left _ _

theorem Sound.tiles_iff (s : r.Sound heapStart shift) :
    r.Tiles base ∧ r.first ≤ base ∧ base < r.finish ↔
      ∃ n < r.capacity, base = r.first + n * r.size := by
  obtain ⟨hstart, m, hm⟩ := s.first_tiles
  obtain ⟨hend, l, hl⟩ := s.finish_tiles
  have hpos := s.size_pos
  have hle : r.first ≤ r.finish := Nat.le_trans s.first_le s.next_le
  have hspan : r.finish - r.first = (l - m) * r.size := by
    rw [Nat.sub_mul, Nat.mul_comm l, Nat.mul_comm m, ← hl, ← hm]
    omega
  have hcapacity : r.capacity = l - m := by
    rw [capacity, hspan, Nat.mul_div_cancel _ hpos]
  rw [hcapacity]
  constructor
  · intro h
    rcases h with ⟨⟨hlow, n, hn⟩, hfirst, hfinish⟩
    have hoffset : base - r.first = (n - m) * r.size := by
      rw [Nat.sub_mul, Nat.mul_comm n, Nat.mul_comm m, ← hn, ← hm]
      omega
    refine ⟨n - m, ?_, by omega⟩
    apply Nat.lt_of_mul_lt_mul_right (a := r.size)
    rw [← hoffset, ← hspan]
    omega
  · intro h
    rcases h with ⟨n, hn, rfl⟩
    have hbelow : n * r.size < (l - m) * r.size := Nat.mul_lt_mul_of_pos_right hn hpos
    refine ⟨⟨by omega, ?_⟩, by omega, by omega⟩
    have hdiff : r.first + n * r.size - r.start = (r.first - r.start) + n * r.size := by omega
    rw [hdiff, hm]
    exact Nat.dvd_add (Nat.dvd_mul_right _ _) (Nat.dvd_mul_left _ _)

/-- A region has no slot left iff none waits and the bump pointer is at the end. -/
theorem Sound.take_exhausted_iff (s : r.Sound heapStart shift) (refusal : Option String) :
    (r.take refusal).1 = .exhausted ↔ r.free.toList = [] ∧ r.next = r.finish := by
  have hpos := s.size_pos
  rcases r.take_cases refusal with ⟨base, free, hqueue, htake⟩ | ⟨hqueue, hfull, htake⟩ |
    ⟨_, hfits, htake | ⟨_, _, _, htake⟩⟩
  all_goals rw [htake]
  · simp [hqueue]
  · refine ⟨fun _ => ⟨hqueue, Nat.le_antisymm s.next_le (Nat.le_of_not_lt fun hlt => ?_)⟩,
      fun _ => rfl⟩
    have hfits := s.next_tiles.add_size_le s.finish_tiles hlt
    omega
  · exact ⟨nofun, fun h => absurd h.2 (by omega)⟩
  · exact ⟨nofun, fun h => absurd h.2 (by omega)⟩

end Region

namespace Heap

variable {registry : Registry} {h : Heap} {i : Nat} {r : Region} {refusal : Option String}

theorem take_exhausted_iff (hr : h.region? i = some r) :
    (h.take i refusal).1 = .exhausted ↔ (r.take refusal).1 = .exhausted := by
  unfold take
  rw [hr]

theorem Kept.held_of_whole (k : h.Kept registry) (hw : h.Whole) (hr : h.region? i = some r)
    {base : Nat} (hc : r.Carves base) : base ∉ r.free.toList ∧ h.InUse registry r (h.headerAt base) ∨
      base ∈ r.free.toList ∧ (h.headerAt base).Retired := by
  have hslot : h.IsSlot ⟨i, base, r.size⟩ r :=
    ⟨hr, rfl, hc.1, (k.framed.sound hr).carved_within hc⟩
  have hne : h.headerAt base ≠ .blank := fun heq =>
    absurd (heq ▸ hw ⟨i, base, r.size⟩ ⟨r, hslot, hc⟩) (by decide)
  exact (k.held_cases hr hc hne).2

/-- A region has no slot left iff all its slots are in use, if none is lost. -/
theorem Kept.exhausted_iff (k : h.Kept registry) (hw : h.Whole) (hr : h.region? i = some r) :
    (r.take refusal).1 = .exhausted ↔
      ∀ n < r.capacity, (h.live? ⟨i, r.first + n * r.size, r.size⟩).isSome = true := by
  have hsound := k.framed.sound hr
  have hslot (n : Nat) (hn : n < r.capacity) : h.IsSlot ⟨i, r.first + n * r.size, r.size⟩ r :=
    have hwhole := hsound.tiles_iff.mpr ⟨n, hn, rfl⟩
    ⟨hr, rfl, hwhole.1, Nat.lt_of_lt_of_le hwhole.2.2 hsound.finish_le⟩
  rw [hsound.take_exhausted_iff]
  constructor
  · intro h n hn
    obtain ⟨htiles, hfirst, hfinish⟩ := hsound.tiles_iff.mpr ⟨n, hn, rfl⟩
    have hcarves : r.Carves (r.first + n * r.size) := ⟨htiles, hfirst, h.2 ▸ hfinish⟩
    rcases k.held_of_whole hw hr hcarves with ⟨_, hu⟩ | ⟨hqueued, _⟩
    · rw [(k.live?_eq_some_iff (hslot n hn)).mpr ⟨hcarves, rfl, hu.live⟩]
      rfl
    · simp [h.1] at hqueued
  · intro hall
    -- a slot with a number is carved and in use
    have hlive {base : Nat} (hbase : r.Tiles base ∧ r.first ≤ base ∧ base < r.finish) :
        r.Carves base ∧ (h.headerAt base).isLive = true := by
      obtain ⟨n, hn, rfl⟩ := hsound.tiles_iff.mp hbase
      obtain ⟨header, hl⟩ := Option.isSome_iff_exists.mp (hall n hn)
      obtain ⟨hcarves, heq, hlive⟩ := (k.live?_eq_some_iff (hslot n hn)).mp hl
      exact ⟨hcarves, heq ▸ hlive⟩
    constructor
    · rw [List.eq_nil_iff_forall_not_mem]
      intro base hqueued
      have hcarves := k.queued hr hqueued
      have hbelow := Nat.lt_of_lt_of_le hcarves.2.2 hsound.next_le
      obtain ⟨_, hlive⟩ := hlive ⟨hcarves.1, hcarves.2.1, hbelow⟩
      have hretired := (k.freed_of_queued hr hqueued).2
      exact nomatch hretired.not_allocated.symm.trans (Header.allocated_of_isLive hlive)
    · refine Nat.le_antisymm hsound.next_le (Nat.le_of_not_lt fun hlt => ?_)
      obtain ⟨hcarves, _⟩ := hlive ⟨hsound.next_tiles, hsound.first_le, hlt⟩
      exact Nat.lt_irrefl _ hcarves.2.2

end Heap

namespace Guard

variable {g g' : Guard}

/-! ## Vacant memory -/

theorem Run.vacant {es : List Event} (hr : g.Run es g') (k : g.heap.Kept g.registry)
    (hzero : ∀ a, g.heap.Vacant a → g.memory.byte a = 0) :
    ∀ a, g'.heap.Vacant a → g'.memory.byte a = 0 := by
  induction hr with
  | done => exact hzero
  | step permitted runs _ ih =>
      have hleaves := leaves_perform k permitted
      obtain ⟨_, he⟩ := effect_perform k permitted runs
      exact ih (he.kept k) fun a hv => hleaves.vacant hv (hzero a (hleaves.grows.vacant hv))

theorem Reachable.vacant (hr : g.Reachable) {a : Nat} (hv : g.heap.Vacant a) :
    g.memory.byte a = 0 := by
  cases hr with
  | of created _ run =>
      refine run.vacant (create_kept created).1 (fun a _ => ?_) a hv
      obtain ⟨_, _, rfl⟩ := create_eq_ok created
      exact Memory.byte_blank a

/-! ## Requests and frees -/

/-- A request for an object of a class fails for want of slots if none is left. Otherwise it is
answered, unless no memory is opened or the slot has no epoch left. -/
theorem answer_allocateObject (k : g.heap.Kept g.registry) {size : Nat} {type : TypeHash}
    {owner : TypeRecord} {c : SizeClass} (zeroed : Bool) (grant : Grant)
    (howner : g.registry.objectType? type = some owner) (hclass : g.heap.classFor? size = some c) :
    (g.heap.take c.index grant.refusal).1 = .exhausted ∧
        (g.allocateObject size type zeroed grant).1 = .error (.regionExhausted c.size) ∨
      (g.heap.take c.index grant.refusal).1 ≠ .exhausted ∧
        ((∃ b, (g.allocateObject size type zeroed grant).1 = .ok b) ∨
          grant.refusal ≠ none ∧
            (g.allocateObject size type zeroed grant).1 = .error (.outOfMemory c.size) ∨
          ∃ s f, s.region = c.index ∧ g.heap.live? s = none ∧
            (g.heap.headerAt s.base).nextEpoch = .error f ∧
            (g.allocateObject size type zeroed grant).1 = .error (.fault f)) := by
  have hslot := slotted_allocateObject k zeroed grant howner hclass
  rw [← (g.silent_bump .allocations).heap_eq]
  generalize g.allocateObject size type zeroed grant = x at hslot ⊢
  obtain ⟨answer, g'⟩ := x
  cases hslot with
  | exhausted left => exact .inl ⟨left, rfl⟩
  | lost _ taken refused _ =>
      have hleft := congrArg Prod.fst taken
      exact .inr ⟨hleft ▸ nofun, .inr (.inl ⟨refused ▸ nofun, rfl⟩)⟩
  | claimed _ taken _ _ => exact .inr ⟨taken ▸ nofun, .inl ⟨_, rfl⟩⟩
  | worn slot_eq taken last idle _ _ _ =>
      have hleft := congrArg Prod.fst taken
      exact .inr ⟨hleft ▸ nofun, .inr (.inr ⟨_, _, slot_eq, idle, last, rfl⟩)⟩

theorem allocate_exhausted_iff (k : g.heap.Kept g.registry) (hw : g.heap.Whole) {size : Nat}
    {type : TypeHash} {owner : TypeRecord} {c : SizeClass} {r : Region} (grant : Grant)
    (howner : g.registry.objectType? type = some owner)
    (hclass : g.heap.classFor? size = some c) (hr : g.heap.region? c.index = some r) :
    (g.allocate size type grant).1 = .error (.regionExhausted c.size) ↔
      ∀ n < r.capacity, (g.heap.live? ⟨c.index, r.first + n * r.size, r.size⟩).isSome = true := by
  rw [← k.exhausted_iff hw hr, ← Heap.take_exhausted_iff hr]
  rcases answer_allocateObject k false grant howner hclass with
    ⟨hnone, hanswer⟩ | ⟨hleft, ⟨_, hanswer⟩ | ⟨_, hanswer⟩ | ⟨_, _, _, _, _, hanswer⟩⟩
  · exact ⟨fun _ => hnone, fun _ => hanswer⟩
  all_goals exact ⟨fun h => (nomatch hanswer.symm.trans h), fun hnone => absurd hnone hleft⟩

/-- A request is answered with a slot that was not in use, unless it resizes the object there. -/
theorem idle_or_ends (k : g.heap.Kept g.registry) {e : Event} (hp : e.Permitted g) {b : Bounds}
    (ha : e.answer? g = some b) (hc : g.heap.contains b.lower = true) {s : Slot}
    (hs : (g.perform e).Holds s b) : g.heap.live? s = none ∨ e.Ends g s := by
  have hok {x : Except AllocError Bounds} (hx : x.toOption = some b) : x = .ok b := by
    cases x with
    | error _ => cases hx
    | ok _ => exact congrArg Except.ok (Option.some.inj hx)
  have huser : b.lower = s.user := congrArg Bounds.lower hs.bounds_eq
  -- a slot is told by where its object starts
  have hplaced {size : Nat} {type : TypeHash} {refusal : Option String} {g₁ : Guard}
      (placed : g.Placed size type refusal (.ok b) g₁) : g.heap.live? s = none := by
    obtain ⟨t, ht, _, hidle⟩ := placed.holds k hc
    have hbase : t.base = s.base := by
      have htuser : b.lower = t.user := congrArg Bounds.lower ht.bounds_eq
      exact Nat.add_right_cancel (htuser.symm.trans huser)
    exact Heap.live?_eq_none_of_idle (hbase ▸ hidle)
  cases e with
  | allocate size type grant =>
      have placed := placed_allocate k type hp
      rw [hok ha] at placed
      exact .inl (hplaced placed)
  | allocateZeroed count size type grant =>
      have placed := placed_allocateZeroed k type hp
      rw [hok ha] at placed
      exact .inl (hplaced placed)
  | reallocate address size grant =>
      have hanswer := hok ha
      have reallocated := reallocated_reallocate k address hp
      rw [hanswer] at reallocated
      cases reallocated with
      | fresh _ placed => exact .inl (hplaced placed)
      | foreign _ outside _ =>
          have hpos : 0 < LargeHeap.blockSize size :=
            Nat.lt_of_lt_of_le Nat.one_pos (Nat.le_max_right ..)
          exact nomatch hc.symm.trans (Heap.not_contains_of_avoids outside hpos)
      | @inPlace t _ heads move _ =>
          refine .inr ⟨?_, _, hanswer⟩
          have hbase : t.base = s.base := Nat.add_right_cancel huser
          have hcarved := move.carved_self k
          exact (k.move move).framed.slot_unique hcarved hs.carved hbase ▸ heads
      | moved _ placed _ _ => exact .inl (hplaced placed)
  | free | check | checkBounds | fill | copy => cases ha

theorem queue_free (k : g.heap.Kept g.registry) {address : Nat} {s : Slot}
    (hh : g.Heads address s) (i : Nat) :
    (g.free address).heap.region? i =
      if s.region = i then (g.heap.region? i).map (·.putBack s.base) else g.heap.region? i := by
  obtain ⟨_, header, _, _, hfree⟩ := free_eq_of_heads k hh
  have hline : (Line.freed address header.epoch).violation? = none := rfl
  rw [hfree, (silent_trace _ hline).heap_eq]
  exact Heap.region?_putBack (g.heap.renew s.base (Heap.released header)) s.region s.base i

theorem putBack_free (k : g.heap.Kept g.registry) {address : Nat} {s : Slot} {r : Region}
    (hh : g.Heads address s) (hr : g.heap.region? s.region = some r) :
    s.base ∉ r.free.toList ∧
      (g.free address).heap.region? s.region = some (r.putBack s.base) := by
  obtain ⟨q, header, hs, hl⟩ := hh.inSlot k.framed
  obtain rfl := Option.some.inj (hs.region_eq.symm.trans hr)
  refine ⟨(k.inUse_of_live hs hl).2, ?_⟩
  rw [queue_free k hh, if_pos rfl, hr]
  rfl

theorem not_heads_free (k : g.heap.Kept g.registry) {address : Nat} {s : Slot}
    (hh : g.Heads address s) (t : Slot) : ¬ (g.free address).Heads address t := by
  intro ht
  obtain ⟨hm, _⟩ := free_of_heads k hh
  have heq : t = s := by
    have hres := (hm.resolve?_eq k address).symm.trans ht.resolved
    exact Option.some.inj (hres.symm.trans hh.resolved)
  subst heq
  have hself := hm.headerAt_self k
  have hidle : ((g.free address).heap.headerAt t.base).untagged.isLive = false := by
    rw [hself]
    exact Bool.and_false _
  have hnone := Heap.live?_eq_none_of_idle hidle
  exact absurd ht.live (by simp [hnone])

/-- A free that is repeated does nothing to the heap. -/
theorem heap_free_free (k : g.heap.Kept g.registry) {address : Nat} {s : Slot}
    (hh : g.Heads address s) : ((g.free address).free address).heap = (g.free address).heap := by
  obtain ⟨hm, hcalm⟩ := free_of_heads k hh
  have hk : (g.free address).heap.Kept (g.free address).registry := by
    rw [hcalm.registry_eq]
    exact k.move hm
  exact (sameHeap_free hk (not_heads_free k hh)).heap_eq

/-! ## Books -/

/-- What the region `i` says of its slots: each one handed out so far is allocated or freed, the
queue has the freed ones, each once, and what lies behind is zero. -/
structure Balances (g : Guard) (i : Nat) (r : Region) : Prop where
  handedOut {base : Nat} : r.Carves base →
    (g.heap.headerAt base).phase = some .allocated ∨ (g.heap.headerAt base).phase = some .freed
  queued_iff (base : Nat) : base ∈ r.free.toList ↔
    r.Carves base ∧ (g.heap.headerAt base).phase = some .freed
  once : r.free.toList.Nodup
  blank {base : Nat} : r.next ≤ base → base < r.windowEnd → g.heap.headerAt base = .blank
  zero {a : Nat} : r.next ≤ a → a < r.windowEnd → g.byteAt a = 0

theorem balances (hg : g.Served) {i : Nat} {r : Region} (hr : g.heap.region? i = some r) :
    g.Balances i r := by
  have k := hg.reachable.kept
  refine ⟨fun hcarves => ?_, fun base => ⟨fun hqueued => ?_, fun h => ?_⟩, k.nodup hr,
    fun {base} hnext hend => ?_, fun {a} hnext hend => ?_⟩
  · rcases k.held_of_whole hg.whole hr hcarves with ⟨_, hu⟩ | ⟨_, hf⟩
    · exact .inl (Header.phase_of_isLive hu.live)
    · exact .inr hf.phase_eq
  · exact ⟨k.queued hr hqueued, (k.freed_of_queued hr hqueued).2.phase_eq⟩
  · rcases k.held_of_whole hg.whole hr h.1 with ⟨_, hu⟩ | ⟨hqueued, _⟩
    · exact nomatch (Header.phase_of_isLive hu.live).symm.trans h.2
    · exact hqueued
  · exact k.blank_of_vacant ⟨i, r, hr, hnext, hend⟩ (Nat.le_refl base)
      (Nat.lt_add_of_pos_right (by decide))
  · have hv : g.heap.Vacant a := ⟨i, r, hr, hnext, hend⟩
    exact byteAt_of_vacant k hv (hg.reachable.vacant hv)

/-- As long as all memory that is asked for is opened, the books of every region balance. So a
request is answered with a slot that was not in use, unless it resizes the object there; a free puts
the slot of an object back once, and does nothing to the heap if it is repeated or about anything
else; and a request for an object of a class is refused because the class has no slot left iff all
its slots are in use. If one is not, the request is answered, unless the slot had all epochs. -/
theorem slots_neither_lost_nor_shared (hg : g.Served) :
    (∀ i r, g.heap.region? i = some r → g.Balances i r) ∧
    (∀ e size b, e.Permitted g → e.request? = some size → e.answer? g = some b →
      g.heap.contains b.lower = true → ∃ s, b = s.object size ∧
        ((g.perform e).heap.live? s).isSome = true ∧ (g.heap.live? s = none ∨ e.Ends g s)) ∧
    (∀ address s, g.Heads address s →
      (∀ r, g.heap.region? s.region = some r → s.base ∉ r.free.toList ∧
        (g.free address).heap.region? s.region = some (r.putBack s.base)) ∧
      (∀ i, i ≠ s.region → (g.free address).heap.region? i = g.heap.region? i) ∧
      ((g.free address).free address).heap = (g.free address).heap) ∧
    (∀ address, (∀ s, ¬ g.Heads address s) → (g.free address).heap = g.heap) ∧
    (∀ size type grant owner c r, g.registry.objectType? type = some owner →
      g.heap.classFor? size = some c → g.heap.region? c.index = some r →
      ((g.allocate size type grant).1 = .error (.regionExhausted c.size) ↔
        ∀ n < r.capacity, (g.heap.live? ⟨c.index, r.first + n * r.size, r.size⟩).isSome = true) ∧
      (grant.refusal = none →
        (∃ n < r.capacity, g.heap.live? ⟨c.index, r.first + n * r.size, r.size⟩ = none) →
        (∃ b, (g.allocate size type grant).1 = .ok b) ∨
          ∃ s f, s.region = c.index ∧ g.heap.live? s = none ∧
            (g.heap.headerAt s.base).nextEpoch = .error f ∧
            (g.allocate size type grant).1 = .error (.fault f))) := by
  have k := hg.reachable.kept
  refine ⟨fun i r hr => balances hg hr, ?_, ?_, ?_, ?_⟩
  · intro e size b hp hsize ha hc
    obtain ⟨⟨s, hs, heq⟩, hcalm⟩ := holds_of_answer k hp hsize ha hc
    obtain ⟨_, he⟩ := effect_perform k hp (hcalm.halted_eq.trans hg.reachable.halted_eq)
    refine ⟨s, heq, ?_, idle_or_ends k hp ha hc hs⟩
    rw [hs.live? (he.kept k)]
    rfl
  · intro address s hh
    refine ⟨fun r hr => putBack_free k hh hr, fun i hi => ?_, heap_free_free k hh⟩
    rw [queue_free k hh, if_neg (Ne.symm hi)]
  · intro address hnot
    exact (sameHeap_free k hnot).heap_eq
  · intro size type grant owner c r howner hclass hr
    refine ⟨allocate_exhausted_iff k hg.whole grant howner hclass hr, fun hopened h => ?_⟩
    rcases h with ⟨n, hn, hidle⟩
    rcases answer_allocateObject k false grant howner hclass with
      ⟨hnone, _⟩ | ⟨_, hanswer | ⟨hrefused, _⟩ | hworn⟩
    · have hlive := (k.exhausted_iff hg.whole hr).mp ((Heap.take_exhausted_iff hr).mp hnone) n hn
      rw [hidle] at hlive
      cases hlive
    · exact .inl hanswer
    · exact absurd hopened hrefused
    · exact .inr hworn

def crowding : List Event :=
  List.replicate 16 (.allocate 60000 (.ofName NameHasher.spread "double") .opening)

def crowded : Guard := crowding.foldl perform smallest

theorem run_crowding : smallest.Run crowding crowded := run_of_runsThrough (by decide +kernel)

theorem served_crowded : crowded.Served :=
  served_smallest.later run_crowding fun _ he => List.eq_of_mem_replicate he ▸ rfl

theorem crowded_exhausted : crowded.Served ∧
    (crowded.allocate 60000 (.ofName NameHasher.spread "double") .opening).1 =
      .error (.regionExhausted 65536) := by
  obtain ⟨_, _, _, _, hexhausted⟩ := slots_neither_lost_nor_shared served_crowded
  have howner : (crowded.registry.objectType? (.ofName NameHasher.spread "double")).isSome =
      true := by decide +kernel
  obtain ⟨owner, howner⟩ := Option.isSome_iff_exists.mp howner
  have hclass : crowded.heap.classFor? 60000 = some ⟨43, 65536⟩ := by decide +kernel
  have hregion : (crowded.heap.region? 43).map (fun r => (r.first, r.finish, r.size)) =
      some (0x2C00000, 0x2D00000, 65536) := by decide +kernel
  obtain ⟨r, hregion, hfields⟩ := Option.map_eq_some_iff.mp hregion
  obtain ⟨hfirst, hfinish, hsize⟩ : r.first = 0x2C00000 ∧ r.finish = 0x2D00000 ∧ r.size = 65536 := by
    simpa using hfields
  have hall : ∀ n < 16, (crowded.heap.live? ⟨43, 0x2C00000 + n * 65536, 65536⟩).isSome = true := by
    decide +kernel
  refine ⟨served_crowded,
    (hexhausted 60000 _ .opening owner ⟨43, 65536⟩ r howner hclass hregion).1.mpr fun n hn => ?_⟩
  rw [Region.capacity, hfirst, hfinish, hsize] at hn
  rw [hfirst, hsize]
  exact hall n (by omega)

end Guard

end TypedHeap
