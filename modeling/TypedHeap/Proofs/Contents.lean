import TypedHeap.Proofs.Exposure

/-! # The contents of objects

What the operations write lies outside the reserved range, or behind the header of a slot that is
not in use or that the operation is about. So every other object keeps its bytes and its header,
and memory that was never handed out stays as it is.
-/

namespace TypedHeap

open Heap (Move)

theorem Memory.byte_set_of_outside {start length a : Nat} (h : ¬ (start ≤ a ∧ a < start + length))
    (m : Memory) (value : UInt8) : (m.set start length value).byte a = m.byte a := by
  rw [byte_set, if_neg]
  simpa [covers] using h

theorem Memory.byte_move_of_outside {target length a : Nat}
    (h : ¬ (target ≤ a ∧ a < target + length)) (m : Memory) (source : Nat) :
    (m.move target source length).byte a = m.byte a := by
  rw [byte_move, if_neg]
  simpa [covers] using h

theorem mem_pagesWithin {start length a : Nat} (hlow : start ≤ roundDown a pageSize)
    (hhigh : roundDown a pageSize + pageSize ≤ start + length) :
    (pagesWithin start length).1 ≤ a ∧
      a < (pagesWithin start length).1 + (pagesWithin start length).2 := by
  simp only [pagesWithin, roundUp, roundDown, pageSize] at *
  omega

theorem mem_of_pagesWithin {start length a : Nat} (hlow : (pagesWithin start length).1 ≤ a)
    (hhigh : a < (pagesWithin start length).1 + (pagesWithin start length).2) :
    start ≤ a ∧ a < start + length := by
  simp only [pagesWithin, roundUp, roundDown, pageSize] at *
  omega

namespace Heap

variable {h h' h'' : Heap} {start length a : Nat} {P : Slot → Prop}

/-- Slots that were carved stay so, and vacant memory becomes no more. -/
structure Grows (h h' : Heap) : Prop where
  carved {s : Slot} : h.Carved s → h'.Carved s
  vacant {a : Nat} : h'.Vacant a → h.Vacant a

theorem Grows.refl (h : Heap) : h.Grows h := ⟨id, id⟩

theorem Grows.trans (hg : h.Grows h') (hg' : h'.Grows h'') : h.Grows h'' :=
  ⟨fun hc => hg'.carved (hg.carved hc), fun hv => hg.vacant (hg'.vacant hv)⟩

theorem Alters.grows {i base : Nat} {r r' : Region} (ha : h.Alters h' i base r r') :
    h.Grows h' := by
  refine ⟨ha.carved, fun hv => ?_⟩
  obtain ⟨j, q, hq, hnext, hend⟩ := hv
  obtain ⟨p, hp, hext⟩ := ha.region_extends hq
  exact ⟨j, p, hp, Nat.le_trans hext.next_le hnext, hext.windowEnd_eq ▸ hend⟩

theorem Move.grows {registry : Registry} {s : Slot} {turn : Turn}
    (m : Move registry h s turn h') : h.Grows h' := by
  obtain ⟨_, _, ha⟩ := m.alters
  exact ha.grows

/-- A harmless range meets no object but those it is allowed to. -/
theorem Framed.meets_of_harmless (f : h.Framed) (hw : h.Harmless P start length)
    (ha : start ≤ a ∧ a < start + length) {t : Slot} (hc : h.Carved t) (huser : t.user ≤ a)
    (hin : a < t.finish) : P t := by
  have hres := f.resolve?_of_carved hc huser hin
  rcases hw with hzero | havoids | ⟨s, hs, hp, hlow, hhigh⟩
  · omega
  · have hcontains : h.contains a = true := by
      rw [← Bool.not_eq_false, ← f.resolve?_eq_none_iff, hres]
      exact nofun
    have hmem := (Reservation.contains_iff ..).mp hcontains
    unfold Reservation.Avoids at havoids
    omega
  · have hres' := f.resolve?_of_carved hs (Nat.le_trans hlow ha.1) (by omega)
    exact Option.some.inj (hres'.symm.trans hres) ▸ hp

theorem Framed.not_vacant_of_harmless (f : h.Framed) (hw : h.Harmless P start length)
    (ha : start ≤ a ∧ a < start + length) : ¬ h.Vacant a := by
  intro hv
  rcases hw with hzero | havoids | ⟨s, hs, _, hlow, hhigh⟩
  · omega
  · obtain ⟨i, r, hr, hnext, hend⟩ := hv
    have hsound := f.sound hr
    have hstart : r.start ≤ a :=
      Nat.le_trans hsound.first_tiles.1 (Nat.le_trans hsound.first_le hnext)
    have hmem := (Reservation.contains_iff ..).mp (f.contains_of_mem hr hstart hend)
    unfold Reservation.Avoids at havoids
    omega
  · have hbase : s.base ≤ a := Nat.le_trans (Nat.le_add_right ..) (Nat.le_trans hlow ha.1)
    have hfinish := f.not_carved_of_vacant hv hs hbase
    omega

end Heap

namespace Guard

variable {g g' g'' : Guard} {P Q : Slot → Prop}

/-- From `g` to `g'` the contents of carved slots stay, but of those with `P`, and vacant memory
stays zero. -/
structure Leaves (g g' : Guard) (P : Slot → Prop) : Prop where
  grows : g.heap.Grows g'.heap
  contents {t : Slot} {a : Nat} : g.heap.Carved t → ¬ P t → t.user ≤ a → a < t.finish →
    g'.memory.byte a = g.memory.byte a
  vacant {a : Nat} : g'.heap.Vacant a → g.memory.byte a = 0 → g'.memory.byte a = 0

theorem Leaves.trans (hl : g.Leaves g' P) (hl' : g'.Leaves g'' P) : g.Leaves g'' P := by
  refine ⟨hl.grows.trans hl'.grows, fun hc hp huser hin => ?_, fun hv hzero => ?_⟩
  · exact (hl'.contents (hl.grows.carved hc) hp huser hin).trans (hl.contents hc hp huser hin)
  · exact hl'.vacant hv (hl.vacant (hl'.grows.vacant hv) hzero)

theorem Leaves.mono (hl : g.Leaves g' P) (himp : ∀ s, P s → Q s) : g.Leaves g' Q :=
  ⟨hl.grows, fun hc hq => hl.contents hc fun hp => hq (himp _ hp), hl.vacant⟩

theorem leaves_of_memory_eq (hgrows : g.heap.Grows g'.heap) (hmemory : g'.memory = g.memory) :
    g.Leaves g' P :=
  ⟨hgrows, fun _ _ _ _ => by rw [hmemory], fun _ hzero => hmemory ▸ hzero⟩

theorem SameParts.leaves (h : g.SameParts g') : g.Leaves g' P :=
  leaves_of_memory_eq (h.heap_eq ▸ .refl g.heap) h.memory_eq

/-- A write of a harmless range leaves all but what it is allowed to write. -/
theorem leaves_of_harmless {start length : Nat} (f : g'.heap.Framed)
    (hgrows : g.heap.Grows g'.heap) (hw : g'.heap.Harmless P start length)
    (hsame : ∀ a, ¬ (start ≤ a ∧ a < start + length) → g'.memory.byte a = g.memory.byte a) :
    g.Leaves g' P := by
  refine ⟨hgrows, fun {t a} hc hp huser hin => ?_, fun {a} hv hzero => ?_⟩
  · by_cases ha : start ≤ a ∧ a < start + length
    · exact absurd (f.meets_of_harmless hw ha (hgrows.carved hc) huser hin) hp
    · exact hsame a ha
  · by_cases ha : start ≤ a ∧ a < start + length
    · exact absurd hv (f.not_vacant_of_harmless hw ha)
    · exact (hsame a ha).trans hzero

/-! ## Allocation -/

theorem leaves_allocateLarge (k : g.heap.Kept g.registry) {size : Nat} (zeroed : Bool)
    {block : Option Nat} (hout : g.OffersOutside block size) :
    g.Leaves (g.allocateLarge size zeroed block).2 P := by
  cases h : g.allocateLarge size zeroed block with
  | mk answer g' =>
      rcases allocateLarge_cases hout h with ⟨_, rfl⟩ | ⟨a, ha, _, rfl⟩
      · exact leaves_of_memory_eq (.refl g'.heap) rfl
      · refine leaves_of_harmless k.framed (.refl g.heap) (.inr (.inl (hout a ha)))
          fun x hx => ?_
        cases zeroed with
        | false => rfl
        | true => exact g.memory.byte_set_of_outside hx 0

theorem leaves_zeroing {h' : Heap} {s : Slot} {size : Nat} (f : h'.Framed)
    (hgrows : g.heap.Grows h') (hc : h'.Carved s) (hidle : g.heap.live? s = none)
    (hfits : s.user + size ≤ s.finish) (zeroed : Bool) :
    g.Leaves (g.zeroing h' s size zeroed) fun s => g.heap.live? s = none := by
  have hw : h'.Harmless (fun s => g.heap.live? s = none) s.user size :=
    .inr (.inr ⟨s, hc, hidle, Nat.le_refl _, hfits⟩)
  refine leaves_of_harmless f hgrows hw fun x hx => ?_
  cases zeroed with
  | false => rfl
  | true => exact g.memory.byte_set_of_outside hx 0

/-- An object is written to a slot that was not in use, if to any. -/
theorem Slotted.leaves (k : g.heap.Kept g.registry) {c : SizeClass} {type : TypeHash} {size : Nat}
    {zeroed : Bool} {refusal : Option String} {answer : Except AllocError Bounds}
    (hs : g.Slotted c type size zeroed refusal answer g') :
    g.Leaves g' fun s => g.heap.live? s = none := by
  cases hs with
  | exhausted => exact (sameParts_write g _).leaves
  | @lost s upto reason h' _ _ _ move =>
      have htaken : g.Leaves { g with heap := h' } fun s => g.heap.live? s = none :=
        leaves_of_memory_eq move.grows rfl
      exact htaken.trans (sameParts_write ..).leaves
  | claimed _ _ quiet move =>
      have hidle := Heap.live?_eq_none_of_idle (move.idle_before k)
      exact (leaves_zeroing (k.move move).framed move.grows (move.carved_self k) hidle
        move.claimed_fits zeroed).trans (silent_trace _ quiet).leaves
  | worn _ taken _ idle carved fits spared =>
      obtain ⟨_, _, _, ha⟩ := @Heap.alters_take _ _ _ 0 _ _ taken nofun
      exact (leaves_zeroing spared.framed ha.grows carved idle fits zeroed).trans
        (sameParts_halt ..).leaves

theorem leaves_allocateObject (k : g.heap.Kept g.registry) {size : Nat} (type : TypeHash)
    (zeroed : Bool) {grant : Grant} (hout : g.OffersOutside grant.block size) :
    g.Leaves (g.allocateObject size type zeroed grant).2 fun s => g.heap.live? s = none := by
  have hb := g.silent_bump .allocations
  have hfirst : g.Leaves (g.bump .allocations) fun s => g.heap.live? s = none := hb.leaves
  cases howner : g.registry.objectType? type with
  | none =>
      simp only [allocateObject, howner]
      exact leaves_of_memory_eq (.refl g.heap) rfl
  | some owner =>
      cases hclass : g.heap.classFor? size with
      | none =>
          simp only [allocateObject, howner, hb.heap_eq, hclass]
          exact hfirst.trans (leaves_allocateLarge (hb.kept k) zeroed (hb.offersOutside hout))
      | some c =>
          have hslot := (slotted_allocateObject k zeroed grant howner hclass).leaves (hb.kept k)
          exact hfirst.trans (hslot.mono fun s hs => hb.heap_eq ▸ hs)

/-! ## Freeing and reallocation -/

/-- A free writes behind the header of the slot it releases only. -/
theorem byte_free_of_outside (k : g.heap.Kept g.registry) {address : Nat} {s : Slot}
    (hh : g.Heads address s) {a : Nat} (ha : ¬ (s.user ≤ a ∧ a < s.finish)) :
    (g.free address).memory.byte a = g.memory.byte a := by
  obtain ⟨r, header, hs, _, hfree⟩ := free_eq_of_heads k hh
  have hline : (Line.freed address header.epoch).violation? = none := rfl
  rw [hfree, (silent_trace _ hline).memory_eq]
  simp only [reclaimed, Heap.reclaimed?, hs.region_eq]
  split
  · rfl
  · next hr =>
    split at hr
    · next hlarge =>
      simp only [Option.some.injEq, Prod.mk.injEq] at hr
      obtain ⟨rfl, rfl⟩ := hr
      refine g.memory.byte_set_of_outside (fun hin => ha ?_) 0
      obtain ⟨hlow, hhigh⟩ := mem_of_pagesWithin hin.1 hin.2
      have hsize := hs.size_eq
      have hheader : headerSize ≤ Heap.reclaimSize := by decide
      simp only [Slot.user, Slot.finish]
      omega
    · cases hr

theorem leaves_free_of_heads (k : g.heap.Kept g.registry) {address : Nat} {s : Slot}
    (hh : g.Heads address s) : g.Leaves (g.free address) (· = s) := by
  obtain ⟨hm, _⟩ := free_of_heads k hh
  obtain ⟨r, header, hs, hl⟩ := hh.inSlot k.framed
  have hfits := (k.inUse_of_live hs hl).1.size_le
  have hsize := hs.size_eq
  have hend : s.user + (s.size - headerSize) = s.finish := by
    simp only [Slot.user, Slot.finish]
    omega
  have hw : (g.free address).heap.Harmless (· = s) s.user (s.size - headerSize) :=
    .inr (.inr ⟨s, hm.carved_self k, rfl, Nat.le_refl _, Nat.le_of_eq hend⟩)
  refine leaves_of_harmless (k.move hm).framed hm.grows hw fun a ha => ?_
  rw [hend] at ha
  exact byte_free_of_outside k hh ha

theorem sameMemory_free (k : g.heap.Kept g.registry) {address : Nat}
    (hnot : ∀ s, ¬ g.Heads address s) : (g.free address).memory = g.memory := by
  have hb := (g.silent_bump .frees).toSameParts
  by_cases hzero : address = 0
  · rw [free, if_pos hzero]
  · cases hres : g.heap.resolve? address with
    | none =>
        simp only [free, hzero, if_false, hb.heap_eq, hres, freeLarge]
        split
        · exact hb.memory_eq
        · exact (sameParts_report ..).memory_eq.trans hb.memory_eq
        · exact (sameParts_report ..).memory_eq.trans hb.memory_eq
    | some s =>
        obtain ⟨v, hfree, _⟩ := free_of_not_heads k hres (hnot s) hzero
        rw [hfree]
        exact (sameParts_report ..).memory_eq.trans hb.memory_eq

theorem leaves_free (k : g.heap.Kept g.registry) (address : Nat) :
    g.Leaves (g.free address) (g.Heads address) := by
  by_cases hh : ∃ s, g.Heads address s
  · obtain ⟨s, hs⟩ := hh
    exact (leaves_free_of_heads k hs).mono fun t ht => ht ▸ hs
  · have hnone : ∀ s, ¬ g.Heads address s := fun s hs => hh ⟨s, hs⟩
    have hsame := sameHeap_free k hnone
    exact leaves_of_memory_eq (hsame.heap_eq ▸ .refl g.heap) (sameMemory_free k hnone)

theorem leaves_copyBytes (k : g.heap.Kept g.registry) {target length : Nat}
    (hw : g.heap.Harmless P target length) (source : Nat) :
    g.Leaves (g.copyBytes target source length) P := by
  let exposed : Guard := { g with memory := g.heap.expose g.memory source length }
  have hexposed : g.Leaves exposed P := by
    refine ⟨.refl g.heap, fun hc _ huser hin => ?_, fun hv hzero => ?_⟩
    · exact k.framed.byte_expose_of_carved hc huser hin g.memory source length
    · exact k.byte_expose_of_vacant hv hzero source length
  rw [copyBytes_eq (k.framed.headersAmong_of_harmless hw)]
  exact hexposed.trans (leaves_of_harmless k.framed (.refl g.heap) hw fun x hx =>
    exposed.memory.byte_move_of_outside hx source)

theorem leaves_reallocateLarge (k : g.heap.Kept g.registry) {size : Nat} (address : Nat)
    {block : Option Nat} (hout : g.OffersOutside block size) :
    g.Leaves (g.reallocateLarge address size block).2 P := by
  unfold reallocateLarge LargeHeap.reallocate
  cases g.large.live[address]? with
  | none => exact (sameParts_report g _).leaves
  | some oldSize =>
      cases block with
      | none => exact leaves_of_memory_eq (.refl g.heap) rfl
      | some target =>
          let moved : Guard := { g with
            large := LargeHeap.record { g.large with live := g.large.live.erase address } target
              (LargeHeap.blockSize size) }
          have hlarge : g.Leaves moved P := leaves_of_memory_eq (.refl g.heap) rfl
          have havoids := (hout target rfl).mono
            (Nat.min_le_right oldSize (LargeHeap.blockSize size))
          exact hlarge.trans (leaves_copyBytes (g := moved) k (.inr (.inl havoids)) address)

/-- What moves is written to a slot that was not in use, and its old slot is freed. -/
theorem leaves_relocate (k : g.heap.Kept g.registry) {address size oldSize : Nat}
    {owner : TypeRecord} {s : Slot} {grant : Grant} (hh : g.Heads address s)
    (hout : g.OffersOutside grant.block size) :
    g.Leaves (g.relocate address oldSize owner size grant).2
      fun t => g.heap.live? t = none ∨ g.Heads address t := by
  have hplaced := placed_allocate k owner.hash hout
  have hfirst : g.Leaves (g.allocate size owner.hash grant).2 fun t => g.heap.live? t = none :=
    leaves_allocateObject k owner.hash false hout
  unfold relocate
  cases h : g.allocate size owner.hash grant with
  | mk answer g₁ =>
      simp only [h] at hplaced hfirst
      have hfirst := hfirst.mono fun t ht => Or.inl (b := g.Heads address t) ht
      cases answer with
      | error e => exact hfirst
      | ok fresh =>
          have hk := hplaced.kept k
          have hw := hplaced.harmless k (Nat.min_le_right oldSize size)
          have hcopy := leaves_copyBytes hk (hw.imp fun t ht =>
            Or.inl (b := g.Heads address t) ht) address
          obtain ⟨memory, hcopied, hheads⟩ :=
            hplaced.copied k (Nat.min_le_right oldSize size) address hh
          rw [hcopied] at hcopy
          simp only [hcopied]
          have hfree := leaves_free_of_heads (g := { g₁ with memory }) hk hheads
          exact (hfirst.trans hcopy).trans (hfree.mono fun t ht => .inr (ht ▸ hh))

theorem leaves_resizeSlot {r : Region} {s : Slot} (hs : g.heap.IsSlot s r) (header : Header)
    (size : Nat) : g.Leaves (g.resizeSlot s header size).2 P := by
  have hheader : g.Leaves (g.setHeader s.base (header.resize size)) P :=
    leaves_of_memory_eq (Heap.alters_setHeader hs.region_eq _ _).grows rfl
  unfold resizeSlot
  cases header.nextEpoch with
  | error f => exact hheader.trans (sameParts_halt ..).leaves
  | ok epoch =>
      have hline : (Line.resized s.user size epoch).violation? = none := rfl
      exact hheader.trans (silent_trace _ hline).leaves

theorem leaves_reallocate (k : g.heap.Kept g.registry) (address : Nat) {size : Nat} {grant : Grant}
    (hout : g.OffersOutside grant.block size) :
    g.Leaves (g.reallocate address size grant).2
      fun t => g.heap.live? t = none ∨ g.Heads address t := by
  rcases reallocate_cases k address size grant with
    ⟨_, heq⟩ | ⟨_, heq⟩ | ⟨s, header, owner, hh, _, heq⟩ | ⟨reason, heq⟩
  all_goals rw [heq]
  · exact (leaves_allocateObject k .int8 false hout).mono fun t ht => .inl ht
  · exact leaves_reallocateLarge k address hout
  · split
    · obtain ⟨r, hs, _⟩ := k.framed.resolve?_eq_some_iff.mp hh.resolved
      exact leaves_resizeSlot hs header size
    · exact leaves_relocate k hh hout
  · exact (sameParts_report g _).leaves

/-! ## The other operations -/

theorem leaves_fill (k : g.heap.Kept g.registry) {target n : Nat} (value : UInt8)
    (hforeign : g.heap.contains target = false → g.heap.range.Avoids target n) :
    g.Leaves (g.fill target value n) fun s => g.heap.resolve? target = some s := by
  have hsame := g.sameParts_allowance target n
  rw [fill_eq k value hforeign]
  split
  · exact hsame.leaves
  · have hw := harmless_of_allowance k hforeign (Prod.eta (g.allowance target n)).symm
    have f : (g.allowance target n).2.heap.Framed := hsame.heap_eq ▸ k.framed
    rw [← hsame.heap_eq] at hw
    refine leaves_of_harmless f (hsame.heap_eq ▸ .refl g.heap) ?_ fun x hx =>
      g.memory.byte_set_of_outside hx value
    exact hw.imp fun s hs => hsame.heap_eq ▸ hs

theorem leaves_copy (k : g.heap.Kept g.registry) {target n : Nat} (source : Nat)
    (hforeign : g.heap.contains target = false → g.heap.range.Avoids target n) :
    g.Leaves (g.copy target source n) fun s => g.heap.resolve? target = some s := by
  have hsame := g.sameParts_copyAllowance target source n
  have hcopied := leaves_copyBytes k (harmless_of_copyAllowance k source hforeign) source
  rw [copyBytes_eq (k.framed.headersAmong_of_harmless
    (harmless_of_copyAllowance k source hforeign))] at hcopied
  rw [copy_eq k source hforeign]
  split
  · exact hsame.leaves
  · exact hcopied.trans (leaves_of_memory_eq (hsame.heap_eq ▸ .refl g.heap) rfl)

theorem leaves_checkPointer (k : g.heap.Kept g.registry) (p : Pointer) (expected : TypeHash) :
    g.Leaves (g.checkPointer p expected).2 P := by
  have hgrows : g.heap.Grows (g.checkPointer p expected).2.heap := by
    rcases checkPointer_heap k p expected with hsame | ⟨s, hm, _⟩
    · exact hsame.heap_eq ▸ .refl g.heap
    · exact hm.grows
  exact leaves_of_memory_eq hgrows (g.checkPointer_memory p expected)

/-- No operation writes to an object in use but to the one that it frees, reallocates or is to
write to. -/
theorem leaves_perform (k : g.heap.Kept g.registry) {e : Event} (hp : e.Permitted g) :
    g.Leaves (g.perform e) fun s => g.heap.live? s = none ∨ e.Touches g s := by
  cases e with
  | allocate size type grant =>
      exact (leaves_allocateObject k type false hp).mono fun s hs => .inl hs
  | allocateZeroed count size type grant =>
      rw [perform, allocateZeroed]
      split
      · exact leaves_of_memory_eq (.refl g.heap) rfl
      · exact (leaves_allocateObject k type true hp).mono fun s hs => .inl hs
  | reallocate address size grant => exact leaves_reallocate k address hp
  | free address => exact (leaves_free k address).mono fun s hs => .inr hs
  | check p expected => exact leaves_checkPointer k p expected
  | checkBounds allowed address lb ub => exact (g.sameParts_checkBounds allowed address lb ub).leaves
  | fill target value length => exact (leaves_fill k value hp).mono fun s hs => .inr hs
  | copy target source length => exact (leaves_copy k source hp).mono fun s hs => .inr hs

/-! ## What stays and what reads as zeros -/

/-- The slots lie where they lay, also when a fault stops the operation. -/
theorem framed_perform (k : g.heap.Kept g.registry) {e : Event} (hp : e.Permitted g) :
    (g.perform e).heap.Framed := by
  cases outcome_perform k hp with
  | ended effect => exact (effect.kept k).framed
  | stopped _ spared => exact spared.framed

theorem live?_perform (k : g.heap.Kept g.registry) {e : Event} (hp : e.Permitted g) {s : Slot}
    {r : Region} {header : Header} (hs : g.heap.IsSlot s r)
    (hl : g.heap.live? s = some header) (hnot : ¬ e.Touches g s) :
    ∃ header', (g.perform e).heap.live? s = some header' ∧
      header'.untagged = header.untagged := by
  cases outcome_perform k hp with
  | stopped _ spared => exact ⟨header, spared.live hs hl hnot, rfl⟩
  | @ended turns he =>
      obtain ⟨hcarves, rfl, hlive⟩ := (k.live?_eq_some_iff hs).mp hl
      have hstays : Heap.endsIn s turns = false := by
        rw [Bool.eq_false_iff]
        exact fun hends => hnot (Event.touches_of_ends ((he.ends_iff s).mp hends))
      have hc : g.heap.Carved s := ⟨r, hs, hcarves⟩
      have hsame := he.moves.untagged_eq k hc hlive hstays
      have hlive' : ((g.perform e).heap.headerAt s.base).isLive = true :=
        (congrArg Header.isLive hsame).trans hlive
      obtain ⟨r', hs', hcarves'⟩ := he.moves.carved hc
      exact ⟨_, ((he.kept k).live?_eq_some_iff hs').mpr ⟨hcarves', rfl, hlive'⟩, hsame⟩

/-- The bytes of an object that is not touched stay. -/
theorem byteAt_perform (k : g.heap.Kept g.registry) {e : Event} (hp : e.Permitted g) {s : Slot}
    {r : Region} {header : Header} (hs : g.heap.IsSlot s r)
    (hl : g.heap.live? s = some header) (hnot : ¬ e.Touches g s) {a : Nat} (hlow : s.user ≤ a)
    (hhigh : a < s.user + header.size) : (g.perform e).byteAt a = g.byteAt a := by
  obtain ⟨hu, _⟩ := k.inUse_of_live hs hl
  have hc := k.carved_of_live hs hl
  have hfits := hu.size_le
  have hsize := hs.size_eq
  have hin : a < s.finish := by
    simp only [Slot.user, Slot.finish] at *
    omega
  have hleaves := leaves_perform k hp
  have huntouched : ¬ (g.heap.live? s = none ∨ e.Touches g s) := by
    intro h
    rcases h with hnone | htouches
    · exact Option.some_ne_none header (hl.symm.trans hnone)
    · exact hnot htouches
  rw [byteAt_of_carved (framed_perform k hp) (hleaves.grows.carved hc) hlow hin,
    byteAt_of_carved k.framed hc hlow hin]
  exact hleaves.contents hc huntouched hlow hin

theorem SameParts.byteAt_eq (h : g.SameParts g') (a : Nat) : g'.byteAt a = g.byteAt a := by
  rw [byteAt, byteAt, h.heap_eq, h.memory_eq]

theorem byteAt_free (k : g.heap.Kept g.registry) {address : Nat} {s : Slot}
    (hh : g.Heads address s) (hlarge : Heap.reclaimSize ≤ s.size) {a : Nat}
    (hlow : s.user ≤ roundDown a pageSize) (hhigh : roundDown a pageSize + pageSize ≤ s.finish) :
    (g.free address).byteAt a = 0 := by
  obtain ⟨r, header, hs, hl, hfree⟩ := free_eq_of_heads k hh
  obtain ⟨hm, _⟩ := free_of_heads k hh
  have hline : (Line.freed address header.epoch).violation? = none := rfl
  have hmemory : (g.free address).memory = g.reclaimed s := by
    rw [hfree]
    exact (silent_trace _ hline).memory_eq
  have hpages : g.heap.reclaimed? s.region s.base =
      some (s.base + headerSize, s.size - headerSize) := by
    simp only [Heap.reclaimed?, hs.region_eq, ← hs.size_eq]
    exact if_pos hlarge
  have hin : s.user ≤ a ∧ a < s.finish := by
    simp only [roundDown, pageSize] at hlow hhigh
    omega
  rw [byteAt_of_carved (k.move hm).framed (hm.carved_self k) hin.1 hin.2, hmemory]
  simp only [reclaimed, hpages, Memory.reclaim, Memory.byte_set]
  rw [if_pos]
  simp only [Memory.covers, Bool.and_eq_true, decide_eq_true_eq]
  apply mem_pagesWithin hlow
  have hsize : headerSize ≤ s.size := Nat.le_trans (by decide) hlarge
  simp only [Slot.finish] at hhigh
  show roundDown a pageSize + pageSize ≤ s.base + headerSize + (s.size - headerSize)
  omega

/-- A cleared object reads as zeros, whatever was there before: in the large heap -/
theorem byteAt_allocateLarge {size : Nat} {block : Option Nat} (hout : g.OffersOutside block size)
    {b : Bounds} (h : g.allocateLarge size true block = (.ok b, g')) {a : Nat} (hlow : b.lower ≤ a)
    (hhigh : a < b.upper) : g'.byteAt a = 0 := by
  rcases allocateLarge_cases hout h with ⟨hrefused, _⟩ | ⟨x, hx, hok, heq⟩
  · cases hrefused
  · obtain rfl := Except.ok.inj hok
    have havoids := hout x hx
    have hblock : size ≤ LargeHeap.blockSize size := Nat.le_max_left ..
    simp only at hlow hhigh
    have hcovers : Memory.covers x (LargeHeap.blockSize size) a = true := by
      simp only [Memory.covers, Bool.and_eq_true, decide_eq_true_eq]
      omega
    have hforeign : g.heap.contains a = false := by
      rw [← Bool.not_eq_true]
      intro hc
      have hmem := (Reservation.contains_iff ..).mp hc
      unfold Reservation.Avoids at havoids
      omega
    have hforeign' : g'.heap.contains a = false := by
      rw [heq]
      exact hforeign
    rw [byteAt_of_not_contains hforeign', heq]
    simp only [if_true, Memory.byte_set, hcovers]

/-- and in a slot. -/
theorem Slotted.byteAt (k : g.heap.Kept g.registry) {c : SizeClass} {type : TypeHash} {size : Nat}
    {refusal : Option String} {b : Bounds} (hs : g.Slotted c type size true refusal (.ok b) g')
    {a : Nat} (hlow : b.lower ≤ a) (hhigh : a < b.upper) : g'.byteAt a = 0 := by
  cases hs with
  | @claimed s line h' _ _ quiet move =>
      have hfits := move.claimed_fits
      simp only [Slot.object] at hlow hhigh
      have hcovers : Memory.covers s.user size a = true := by
        simp only [Memory.covers, Bool.and_eq_true, decide_eq_true_eq]
        omega
      have hin : a < s.finish := Nat.lt_of_lt_of_le hhigh hfits
      have hzero : (g.zeroing h' s size true).byteAt a = 0 := by
        rw [byteAt_of_carved (k.move move).framed (move.carved_self k) hlow hin]
        simp only [zeroing, if_true, Memory.byte_set, hcovers]
      exact ((silent_trace _ quiet).byteAt_eq a).trans hzero

theorem byteAt_allocateObject (k : g.heap.Kept g.registry) {size : Nat} {type : TypeHash}
    {grant : Grant} (hout : g.OffersOutside grant.block size) {b : Bounds}
    (h : g.allocateObject size type true grant = (.ok b, g')) {a : Nat} (hlow : b.lower ≤ a)
    (hhigh : a < b.upper) : g'.byteAt a = 0 := by
  have hb := g.silent_bump .allocations
  cases howner : g.registry.objectType? type with
  | none => simp [allocateObject, howner] at h
  | some owner =>
      cases hclass : g.heap.classFor? size with
      | none =>
          simp only [allocateObject, howner, hb.heap_eq, hclass] at h
          exact byteAt_allocateLarge (hb.offersOutside hout) h hlow hhigh
      | some c =>
          have hslot := slotted_allocateObject k true grant howner hclass
          rw [h] at hslot
          exact hslot.byteAt (hb.kept k) hlow hhigh

theorem byteAt_allocateZeroed (k : g.heap.Kept g.registry) {count size : Nat} {type : TypeHash}
    {grant : Grant} (hout : g.OffersOutside grant.block (count * size)) {b : Bounds}
    (hok : (g.allocateZeroed count size type grant).1 = .ok b) {a : Nat} (hlow : b.lower ≤ a)
    (hhigh : a < b.upper) : (g.allocateZeroed count size type grant).2.byteAt a = 0 := by
  unfold allocateZeroed at hok ⊢
  split at hok
  · cases hok
  · next hfits =>
    rw [if_neg hfits]
    exact byteAt_allocateObject k hout (Prod.ext hok rfl) hlow hhigh

/-- In every reachable state, an operation leaves alone all objects but the one that it frees,
reallocates or writes to: they stay in use, with the type, size, state, epoch and stamp that their
headers say, and keep their bytes. A large object that is freed gives back whole pages of its own,
which read as zeros, and an object that is asked for cleared reads as zeros. -/
theorem perform_frames_objects (hr : g.Reachable) {e : Event} (hp : e.Permitted g) :
    (∀ s r header, g.heap.IsSlot s r → g.heap.live? s = some header → ¬ e.Touches g s →
      (∃ header', (g.perform e).heap.live? s = some header' ∧
        header'.untagged = header.untagged) ∧
      ∀ a, s.user ≤ a → a < s.user + header.size → (g.perform e).byteAt a = g.byteAt a) ∧
    (∀ address s, e = .free address → g.Heads address s → Heap.reclaimSize ≤ s.size →
      ∀ a, s.user ≤ roundDown a pageSize → roundDown a pageSize + pageSize ≤ s.finish →
        (g.perform e).byteAt a = 0) ∧
    (∀ count size type grant b, e = .allocateZeroed count size type grant →
      (g.allocateZeroed count size type grant).1 = .ok b →
      ∀ a, b.lower ≤ a → a < b.upper → (g.perform e).byteAt a = 0) := by
  have k := hr.kept
  refine ⟨?_, ?_, ?_⟩
  · intro s r header hs hl hnot
    exact ⟨live?_perform k hp hs hl hnot, fun a => byteAt_perform k hp hs hl hnot⟩
  · intro address s he hh hlarge a hlow hhigh
    subst he
    exact byteAt_free k hh hlarge hlow hhigh
  · intro count size type grant b he hok a hlow hhigh
    subst he
    exact byteAt_allocateZeroed k hp hok hlow hhigh

def spreading : List Event := [
  .allocate 20000 (.ofName NameHasher.spread "double") .opening,
  .fill 0x2500030 0xFF 20000]

def spacious : Guard := spreading.foldl perform occupied

theorem run_spreading : occupied.Run spreading spacious :=
  .step (by decide +kernel) rfl (.step (by decide +kernel) rfl (.done spacious))

/-- The large object is freed: its second page reads as zeros, and the small object stays. -/
theorem spacious_frames_objects :
    spacious.Reachable ∧ (Event.free 0x2500030).Permitted spacious ∧
      spacious.byteAt 0x2502000 = 0xFF ∧
      (spacious.perform (.free 0x2500030)).byteAt 0x2502000 = 0 ∧
      (spacious.heap.live? ⟨3, 0x400000, 64⟩).map (·.size) = some 12 ∧
      ∀ a, 0x400030 ≤ a → a < 0x40003C →
        (spacious.perform (.free 0x2500030)).byteAt a = spacious.byteAt a := by
  have hr := reachable_occupied.later run_spreading
  have hp : (Event.free 0x2500030).Permitted spacious := trivial
  obtain ⟨hstay, hpages, _⟩ := perform_frames_objects hr hp
  have hsize : (spacious.heap.live? ⟨3, 0x400000, 64⟩).map (·.size) = some 12 := by
    decide +kernel
  obtain ⟨header, hl, hbytes⟩ := Option.map_eq_some_iff.mp hsize
  have hresolved : spacious.heap.resolve? 0x400030 = some ⟨3, 0x400000, 64⟩ := by decide +kernel
  obtain ⟨r, hs, _⟩ := hr.kept.framed.resolve?_eq_some_iff.mp hresolved
  have hheads : spacious.Heads 0x2500030 ⟨36, 0x2500000, 20480⟩ :=
    ⟨by decide +kernel, rfl, by decide +kernel⟩
  have hnot : ¬ (Event.free 0x2500030).Touches spacious ⟨3, 0x400000, 64⟩ := fun h =>
    absurd (h.unique hheads) (by decide)
  refine ⟨hr, hp, by decide +kernel, ?_, hsize, fun a hlow hhigh => ?_⟩
  · exact hpages _ _ rfl hheads (by decide) _ (by decide) (by decide)
  · exact (hstay _ r header hs hl hnot).2 a hlow (by rw [hbytes]; exact hhigh)

end Guard

end TypedHeap
