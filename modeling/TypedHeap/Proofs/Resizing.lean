import TypedHeap.Proofs.Releases

/-! # Resizing

A request to give an object another size comes to one of three ends. It is refused, and the object
and all others are as they were; the object stays in its slot under the next epoch; or an object of
the same type gets the bytes that both sizes have, and the old slot is retired. Only where a slot
has no epoch left does the request stop at a fault. A request about any other address of the
reserved range is reported and changes nothing.
-/

namespace TypedHeap

namespace Heap.Move

variable {registry : Registry} {h h' : Heap} {s : Slot}

theorem claimed_class {size : Nat} {type : TypeHash}
    (m : Move registry h s (.claimed size type) h') :
    h.classFor? size = some ⟨s.region, s.size⟩ := by
  cases m with
  | claimed class_eq _ _ => exact class_eq

theorem spares_lost (m : Move registry h s .lost h') (k : h.Kept registry) :
    h.Spares h' fun _ => False := by
  have f := (k.move m).framed
  cases m with
  | @lost _ _ _ _ r _ _ region_eq base_eq refused =>
      obtain ⟨p, r', htake, ha⟩ := @alters_take _ _ s.region s.base _ _ refused nofun
      obtain rfl := Option.some.inj (region_eq.symm.trans ha.old)
      obtain ⟨-, -, hfits, -⟩ := Region.take_refused htake
      refine ha.spares k f ((k.framed.sound ha.old).openTo_le_of_take htake) fun ht hl hbase => ?_
      obtain ⟨-, rfl, hlive⟩ := (k.live?_eq_some_iff ht).mp hl
      -- the slot that is lost is the next one, whose header is blank
      rw [hbase, base_eq, k.headerAt_next ha.old hfits] at hlive
      cases hlive

theorem holdings_lost (m : Move registry h s .lost h') :
    h'.headers = h.headers ∧ h'.chains = h.chains ∧
      ∀ i, (h'.region? i).map Region.free = (h.region? i).map Region.free := by
  cases m with
  | lost _ _ _ refused =>
      obtain ⟨_, hnone, _⟩ | ⟨r, r', hr, htake, rfl⟩ := take_cases refused
      · cases hnone
      · obtain ⟨-, -, -, -, -, rfl⟩ := Region.take_refused htake
        refine ⟨rfl, rfl, fun i => ?_⟩
        rw [region?_set hr]
        split
        · next heq =>
          rw [← heq, hr]
          rfl
        · rfl

end Heap.Move

open Heap (Move)

namespace Guard

variable {g g' g₁ : Guard} {address size : Nat} {s : Slot} {refusal : Option String} {fresh : Bounds}

/-! ## Requests for the new object -/

/-- The memory, all headers, tags and queues, and the large heap are the same in `g` and `g'`. -/
structure SameHoldings (g g' : Guard) : Prop where
  memory_eq : g'.memory = g.memory
  headers_eq : g'.heap.headers = g.heap.headers
  chains_eq : g'.heap.chains = g.heap.chains
  queues_eq (i : Nat) : (g'.heap.region? i).map Region.free = (g.heap.region? i).map Region.free
  large_eq : g'.large = g.large

/-- What comes of a request for an object of a type that objects may have. -/
inductive Supplied (g : Guard) (size : Nat) (type : TypeHash) (refusal : Option String) :
    Except AllocError Bounds → Guard → Prop where
  | full {e : AllocError} {g' : Guard} (full : (∃ c, e = .regionExhausted c) ∨ e = .outOfMemory size)
      (silent : g.Silent g') : Supplied g size type refusal (.error e) g'
  | unopened {t : Slot} {n : Nat} {g' : Guard} (refused : refusal ≠ none)
      (move : Move g.registry g.heap t .lost g'.heap) (same : g.SameHoldings g') (calm : g.Calm g') :
      Supplied g size type refusal (.error (.outOfMemory n)) g'
  | worn {t : Slot} {f : ArithmeticFault} {g' : Guard} (idle : g.heap.live? t = none)
      (last : (g.heap.headerAt t.base).nextEpoch = .error f)
      (violations_eq : g'.violations = g.violations) :
      Supplied g size type refusal (.error (.fault f)) g'
  | answered {fresh : Bounds} {g' : Guard} (upper_eq : fresh.upper = fresh.lower + size)
      (placed : g.Placed size type refusal (.ok fresh) g')
      (slot : ∀ c, g.heap.classFor? size = some c → ∃ t, t.region = c.index ∧
        fresh = t.object size ∧ Move g.registry g.heap t (.claimed size type) g'.heap) :
      Supplied g size type refusal (.ok fresh) g'

theorem sameHoldings_of_lost {g₂ g' : Guard} {h' : Heap} {t : Slot} (silent : g.Silent g₂)
    (move : Move g.registry g.heap t .lost h')
    (written : ({ g₂ with heap := h' } : Guard).Silent g') : g.SameHoldings g' := by
  obtain ⟨hheaders, hchains, hqueues⟩ := move.holdings_lost
  have hheap : g'.heap = h' := written.heap_eq
  constructor
  case memory_eq => exact written.memory_eq.trans silent.memory_eq
  case headers_eq => exact hheap ▸ hheaders
  case chains_eq => exact hheap ▸ hchains
  case queues_eq => exact hheap ▸ hqueues
  case large_eq => exact written.large_eq.trans silent.large_eq

theorem supplied_allocate (k : g.heap.Kept g.registry) {owner : TypeRecord} {grant : Grant}
    (howner : g.registry.objectType? owner.hash = some owner)
    (hout : g.OffersOutside grant.block size) :
    g.Supplied size owner.hash grant.refusal (g.allocate size owner.hash grant).1
      (g.allocate size owner.hash grant).2 := by
  have hplaced := placed_allocate k owner.hash hout
  have hb := g.silent_bump .allocations
  cases hclass : g.heap.classFor? size with
  | none =>
      have heq : g.allocate size owner.hash grant =
          (g.bump .allocations).allocateLarge size false grant.block := by
        simp only [allocate, allocateObject, howner, hb.heap_eq, hclass]
      rw [heq] at hplaced ⊢
      cases h : (g.bump .allocations).allocateLarge size false grant.block with
      | mk answer g' =>
          rw [h] at hplaced
          rcases allocateLarge_cases (hb.offersOutside hout) h with ⟨rfl, rfl⟩ | ⟨a, _, rfl, _⟩
          · exact .full (.inr rfl) hb
          · refine .answered rfl hplaced fun c hc => ?_
            cases hclass.symm.trans hc
  | some c =>
      have hslot := slotted_allocateObject k false grant howner hclass
      unfold allocate at hplaced ⊢
      generalize g.allocateObject size owner.hash false grant = x at hplaced hslot ⊢
      obtain ⟨answer, g'⟩ := x
      simp only at hplaced hslot ⊢
      cases hslot with
      | exhausted _ =>
          have hline : (Line.exhausted c.size).violation? = none := rfl
          exact .full (.inl ⟨_, rfl⟩) (hb.trans (silent_write _ hline))
      | @lost t upto reason h' _ _ refused move =>
          have hline : (Line.unopened c.index upto reason).violation? = none := rfl
          have hw := silent_write { g.bump .allocations with heap := h' } hline
          have hne : grant.refusal ≠ none := refused ▸ Option.some_ne_none reason
          rw [hb.heap_eq, hb.registry_eq] at move
          refine .unopened (t := t) hne ?_ (sameHoldings_of_lost hb move hw)
            ⟨hw.config_eq.trans hb.config_eq, hw.registry_eq.trans hb.registry_eq,
              hw.violations_eq.trans hb.violations_eq, hw.halted_eq.trans hb.halted_eq⟩
          rw [hw.heap_eq]
          exact move
      | @claimed t line h' slot_eq _ quiet move =>
          refine .answered rfl hplaced fun d hd => ?_
          obtain rfl := Option.some.inj (hclass.symm.trans hd)
          rw [hb.heap_eq, hb.registry_eq] at move
          refine ⟨t, slot_eq.1, rfl, ?_⟩
          rw [(silent_trace _ quiet).heap_eq]
          exact move
      | @worn t f h' _ _ last idle _ _ _ =>
          rw [hb.heap_eq] at last idle
          have hline : (Line.panicked f).violation? = none := rfl
          exact .worn idle last ((violations_halt _ hline).trans hb.violations_eq)

/-- A new object lies outside the reserved range, or behind the header of another slot than the
object in use in `s`. -/
theorem Placed.lies {type : TypeHash} (hp : g.Placed size type refusal (.ok fresh) g₁)
    (k : g.heap.Kept g.registry) (hh : g.Heads address s) {a : Nat} (hlow : fresh.lower ≤ a)
    (hhigh : a < fresh.lower + size) :
    g₁.heap.contains a = false ∨ ∃ t, g₁.heap.Carved t ∧ t ≠ s ∧ t.user ≤ a ∧ a < t.finish := by
  cases hp with
  | @block x _ outside same _ =>
      left
      have hblock : size ≤ LargeHeap.blockSize size := Nat.le_max_left ..
      rw [same, ← Bool.not_eq_true]
      intro hc
      have hmem := (Reservation.contains_iff ..).mp hc
      unfold Reservation.Avoids at outside
      simp only at hlow hhigh
      omega
  | @slot t _ move _ =>
      right
      obtain ⟨r, header, hs, hl⟩ := hh.inSlot k.framed
      have hne := move.ne_of_live k hs hl
      have hfits := move.claimed_fits
      simp only [Slot.object] at hlow hhigh
      exact ⟨t, move.carved_self k, fun heq => hne (congrArg Slot.base heq).symm, hlow, by omega⟩

theorem Placed.region?_eq {type : TypeHash} (hp : g.Placed size type refusal (.ok fresh) g₁)
    {i : Nat} (hi : (g.heap.classFor? size).map (·.index) ≠ some i) :
    g₁.heap.region? i = g.heap.region? i := by
  cases hp with
  | block _ same _ => rw [same]
  | @slot t _ move _ =>
      obtain ⟨_, _, ha⟩ := move.alters
      refine ha.others i fun heq => hi ?_
      rw [move.claimed_class, heq]
      rfl

/-! ## What came of it -/

/-- The first `n` bytes from `target` on are those that were there from `source` on. -/
def Carries (g g' : Guard) (source target n : Nat) : Prop :=
  ∀ i < n, g'.byteAt (target + i) = g.byteAt (source + i)

/-- What came of another size for the object in the slot `s`, whose header and record these are. -/
inductive Resized (g : Guard) (s : Slot) (header : Header) (owner : TypeRecord) (size : Nat)
    (refusal : Option String) : Except AllocError Bounds → Guard → Prop where
  /-- There is no room, and all is as it was. -/
  | refused {e : AllocError} {g' : Guard}
      (class_ne : (g.heap.classFor? size).map (·.index) ≠ some s.region)
      (full : (∃ c, e = .regionExhausted c) ∨ e = .outOfMemory size) (same : g.SameParts g')
      (owned : g'.owned? s = some (header, owner)) :
      Resized g s header owner size refusal (.error e) g'
  /-- No memory is opened for a new slot, and none of those in use or freed is another one. -/
  | unopened {n : Nat} {g' : Guard}
      (class_ne : (g.heap.classFor? size).map (·.index) ≠ some s.region) (refused : refusal ≠ none)
      (same : g.SameHoldings g') (owned : g'.owned? s = some (header, owner)) :
      Resized g s header owner size refusal (.error (.outOfMemory n)) g'
  /-- The slot for the object had all epochs. -/
  | worn {t : Slot} {f : ArithmeticFault} {g' : Guard} (own : t = s ∨ g.heap.live? t = none)
      (last : (g.heap.headerAt t.base).nextEpoch = .error f) :
      Resized g s header owner size refusal (.error (.fault f)) g'
  /-- The slot is of the class for the size. -/
  | stayed {header' : Header} {g' : Guard}
      (class_eq : (g.heap.classFor? size).map (·.index) = some s.region)
      (owned : g'.owned? s = some (header', owner)) (size_eq : header'.size = size)
      (epoch_eq : header'.epoch = header.epoch + 1)
      (carries : g.Carries g' s.user s.user (min header.size size)) :
      Resized g s header owner size refusal (.ok (s.object size)) g'
  /-- A slot of the class for the size, or a large block, has the object now. -/
  | moved {b : Bounds} {g' : Guard}
      (class_ne : (g.heap.classFor? size).map (·.index) ≠ some s.region)
      (upper_eq : b.upper = b.lower + size) (retires : g.Retires g' s)
      (owned : ∀ c, g.heap.classFor? size = some c → ∃ t header', t.region = c.index ∧
        b = t.object size ∧ g'.owned? t = some (header', owner) ∧ header'.size = size)
      (carries : g.Carries g' s.user b.lower (min header.size size)) :
      Resized g s header owner size refusal (.ok b) g'

section Object

variable {header : Header} {owner : TypeRecord}

theorem SameParts.owned?_eq (h : g.SameParts g') (t : Slot) : g'.owned? t = g.owned? t := by
  rw [owned?, owned?, h.heap_eq, h.registry_eq]

theorem Heads.byteAt_eq (k : g.heap.Kept g.registry) (hh : g.Heads address s)
    (hl : g.heap.live? s = some header) {i : Nat} (hi : i < header.size) :
    g.heap.Carved s ∧ s.user + i < s.finish ∧
      g.byteAt (s.user + i) = g.memory.byte (s.user + i) := by
  obtain ⟨r, hs, _⟩ := k.framed.resolve?_eq_some_iff.mp hh.resolved
  have hc := k.carved_of_live hs hl
  have hfits := (k.inUse_of_live hs hl).1.size_le
  have hsize := hs.size_eq
  have hin : s.user + i < s.finish := by
    simp only [Slot.user, Slot.finish]
    omega
  exact ⟨hc, hin, byteAt_of_carved k.framed hc (Nat.le_add_right ..) hin⟩

theorem owned?_of_resized (k : g.heap.Kept g.registry) (howned : g.owned? s = some (header, owner))
    (m : Move g.registry g.heap s (.resized size) (g.heap.setHeader s.base (header.resize size))) :
    (g.setHeader s.base (header.resize size)).owned? s = some (header.resize size, owner) := by
  obtain ⟨hl, href⟩ := owned?_eq_some_iff.mp howned
  obtain ⟨r, hs, hcarves⟩ := m.carved_self k
  have hlive : (header.resize size).isLive = true := (Option.filter_eq_some_iff.mp hl).2
  refine owned?_eq_some_iff.mpr ⟨((k.move m).live?_eq_some_iff hs).mpr ⟨hcarves, ?_, hlive⟩, href⟩
  rw [Heap.headerAt_setHeader, if_pos rfl]

theorem resized_resizeSlot (k : g.heap.Kept g.registry) (hh : g.Heads address s)
    (howned : g.owned? s = some (header, owner))
    (hclass : (g.heap.classFor? size).map (·.index) = some s.region) (refusal : Option String) :
    g.Resized s header owner size refusal (g.resizeSlot s header size).1
        (g.resizeSlot s header size).2 ∧
      (g.resizeSlot s header size).2.violations = g.violations := by
  obtain ⟨hl, href⟩ := owned?_eq_some_iff.mp howned
  obtain ⟨r, hs, _⟩ := k.framed.resolve?_eq_some_iff.mp hh.resolved
  obtain ⟨c, hc, hindex⟩ := Option.map_eq_some_iff.mp hclass
  obtain ⟨_, heq, _⟩ := (k.live?_eq_some_iff hs).mp hl
  unfold resizeSlot
  cases hnext : header.nextEpoch with
  | error f =>
      have hline : (Line.panicked f).violation? = none := rfl
      exact ⟨.worn (.inl rfl) (heq ▸ hnext), violations_halt _ hline⟩
  | ok epoch =>
      have hline : (Line.resized s.user size epoch).violation? = none := rfl
      have ht := silent_trace (g.setHeader s.base (header.resize size)) hline
      have hm : Move g.registry g.heap s (.resized size)
          (g.heap.setHeader s.base (header.resize size)) :=
        .resized hs hl (class_eq_of_index k.framed hs hc hindex ▸ hc) hnext
      have hcarved := hm.carved_self k
      have howned' := (ht.owned?_eq s).trans (owned?_of_resized k howned hm)
      refine ⟨.stayed hclass howned' rfl ?_ fun i hi => ?_, ht.violations_eq⟩
      · obtain ⟨hlt, _⟩ := Word.add?_eq_ok_iff.mp hnext
        exact Word.wrap_of_lt hlt
      · obtain ⟨_, hin, hbyte⟩ := hh.byteAt_eq k hl (i := i) (by omega)
        rw [hbyte]
        exact (ht.byteAt_eq _).trans
          (byteAt_of_carved (k.move hm).framed hcarved (Nat.le_add_right ..) hin)

theorem owned?_of_claimed (k : g.heap.Kept g.registry) {t : Slot}
    (m : Move g.registry g.heap t (.claimed size owner.hash) g₁.heap)
    (hregistry : g₁.registry = g.registry)
    (howner : g.registry.objectType? owner.hash = some owner) :
    ∃ header', g₁.owned? t = some (header', owner) ∧ header'.size = size := by
  have hself := m.headerAt_self k
  obtain ⟨r, hs, hcarves⟩ := m.carved_self k
  have hlive := congrArg Header.isLive hself
  have hsize := congrArg Header.size hself
  have href := congrArg Header.owner hself
  refine ⟨g₁.heap.headerAt t.base, owned?_eq_some_iff.mpr ⟨?_, ?_⟩, hsize⟩
  · exact ((k.move m).live?_eq_some_iff hs).mpr ⟨hcarves, rfl, hlive⟩
  · have hreference : (g₁.heap.headerAt t.base).owner = g.registry.reference owner.hash := href
    rw [hreference, hregistry]
    exact Registry.referred?_of_objectType? howner

/-- An object that is copied to a new place has its bytes there when the old slot was freed. -/
theorem Placed.carries {type : TypeHash} {n : Nat}
    (hp : g.Placed size type refusal (.ok fresh) g₁) (k : g.heap.Kept g.registry)
    (hh : g.Heads address s) (hl : g.heap.live? s = some header)
    (hleaves : g.Leaves g₁ fun t => g.heap.live? t = none) (hsize : n ≤ size)
    (hold : n ≤ header.size) :
    g.Carries ((g₁.copyBytes fresh.lower address n).free address) s.user fresh.lower n := by
  intro i hi
  have k₁ := hp.kept k
  have hheads₁ := hp.heads k hh
  rw [copyBytes_eq (k₁.framed.headersAmong_of_harmless (hp.harmless k hsize)), hh.user_eq]
  let copied : Guard := { g₁ with
    memory := (g₁.heap.expose g₁.memory s.user n).move fresh.lower s.user n }
  have hheads : copied.Heads s.user s := ⟨hh.user_eq ▸ hheads₁.resolved, rfl, hheads₁.live⟩
  obtain ⟨hm, _⟩ := free_of_heads (g := copied) k₁ hheads
  obtain ⟨hc, hin, hbyte⟩ := hh.byteAt_eq k hl (Nat.lt_of_lt_of_le hi hold)
  have hc₁ := hleaves.grows.carved hc
  -- the copy lies in no byte of the old slot, so the release of that leaves it alone
  have hlies := hp.lies k hh (Nat.le_add_right fresh.lower i) (by omega)
  calc (copied.free s.user).byteAt (fresh.lower + i)
      = (copied.free s.user).memory.byte (fresh.lower + i) := by
        rcases hlies with hforeign | ⟨t, ht, _, hlow, hhigh⟩
        · refine byteAt_of_not_contains ?_
          obtain ⟨_, _, ha⟩ := hm.alters
          rw [Heap.contains, ha.range_eq]
          exact hforeign
        · exact byteAt_of_carved (Heap.Kept.move k₁ hm).framed (hm.carved ht) hlow hhigh
    _ = copied.memory.byte (fresh.lower + i) := by
        refine byte_free_of_outside (g := copied) k₁ hheads fun hinside => ?_
        have hres := k₁.framed.resolve?_of_carved hc₁ hinside.1 hinside.2
        rcases hlies with hforeign | ⟨t, ht, hne, hlow, hhigh⟩
        · exact Option.some_ne_none s (hres.symm.trans (k₁.framed.resolve?_eq_none_iff.mpr hforeign))
        · have hres' := k₁.framed.resolve?_of_carved ht hlow hhigh
          exact hne (Option.some.inj (hres'.symm.trans hres))
    _ = (g₁.heap.expose g₁.memory s.user n).byte (s.user + i) := by
        have hcovers : Memory.covers fresh.lower n (fresh.lower + i) = true := by
          simp only [Memory.covers, Bool.and_eq_true, decide_eq_true_eq]
          omega
        rw [Memory.byte_move, if_pos hcovers, Nat.add_sub_cancel_left]
    _ = g₁.memory.byte (s.user + i) :=
        k₁.framed.byte_expose_of_carved hc₁ (Nat.le_add_right ..) hin ..
    _ = g.memory.byte (s.user + i) :=
        hleaves.contents hc (by simp [hl]) (Nat.le_add_right ..) hin
    _ = g.byteAt (s.user + i) := hbyte.symm

theorem owned?_of_lost (k : g.heap.Kept g.registry) {t : Slot}
    (m : Move g.registry g.heap t .lost g'.heap) (hregistry : g'.registry = g.registry)
    (hh : g.Heads address s) (howned : g.owned? s = some (header, owner)) :
    g'.owned? s = some (header, owner) := by
  obtain ⟨hl, href⟩ := owned?_eq_some_iff.mp howned
  obtain ⟨r, hs, _⟩ := k.framed.resolve?_eq_some_iff.mp hh.resolved
  exact owned?_eq_some_iff.mpr ⟨(m.spares_lost k).live hs hl id, hregistry ▸ href⟩

/-- What moves carries its bytes, and its old slot is retired. -/
theorem resized_relocate (k : g.heap.Kept g.registry) (hh : g.Heads address s)
    (howned : g.owned? s = some (header, owner))
    (howner : g.registry.objectType? owner.hash = some owner)
    (hclass : (g.heap.classFor? size).map (·.index) ≠ some s.region) {grant : Grant}
    (hout : g.OffersOutside grant.block size) :
    g.Resized s header owner size grant.refusal (g.relocate address header.size owner size grant).1
        (g.relocate address header.size owner size grant).2 ∧
      (g.relocate address header.size owner size grant).2.violations = g.violations := by
  have hl := (owned?_eq_some_iff.mp howned).1
  have hleaves : g.Leaves (g.allocate size owner.hash grant).2 fun t => g.heap.live? t = none :=
    leaves_allocateObject k owner.hash false hout
  have hsupplied := supplied_allocate k howner hout
  unfold relocate
  generalize g.allocate size owner.hash grant = x at hleaves hsupplied ⊢
  obtain ⟨answer, g₁⟩ := x
  cases hsupplied with
  | full full silent =>
      exact ⟨.refused hclass full silent.toSameParts ((silent.owned?_eq s).trans howned),
        silent.violations_eq⟩
  | unopened refused move same calm =>
      exact ⟨.unopened hclass refused same (owned?_of_lost k move calm.registry_eq hh howned),
        calm.violations_eq⟩
  | worn idle last violations_eq => exact ⟨.worn (.inr idle) last, violations_eq⟩
  | @answered fresh _ hupper hplaced hslot =>
      have k₁ := hplaced.kept k
      obtain ⟨memory, hcopy, hheads⟩ :=
        hplaced.copied k (Nat.min_le_right header.size size) address hh
      simp only
      rw [hcopy]
      obtain ⟨hm, hcalm⟩ := free_of_heads (g := { g₁ with memory }) k₁ hheads
      have hretires := retires_free (g := { g₁ with memory }) k₁ hheads
      refine ⟨.moved hclass hupper ?retires ?owned ?carries,
        hcalm.violations_eq.trans hplaced.calm.violations_eq⟩
      case retires =>
        obtain ⟨hfreed, r, r', hr, hr', hout', hqueue⟩ := hretires
        exact ⟨hfreed, r, r', (hplaced.region?_eq hclass).symm.trans hr, hr', hout', hqueue⟩
      case owned =>
        intro c hc
        obtain ⟨t, ht, hfresh, move⟩ := hslot c hc
        obtain ⟨header', howned', hsize⟩ :=
          owned?_of_claimed k move hplaced.calm.registry_eq howner
        refine ⟨t, header', ht, hfresh, ?_, hsize⟩
        obtain ⟨r, hs, _⟩ := k.framed.resolve?_eq_some_iff.mp hh.resolved
        have hne := move.ne_of_live k hs hl
        have hlive := hm.live?_eq k₁ (move.carved_self k) (Ne.symm hne)
        rw [owned?, hlive, hcalm.registry_eq]
        exact howned'
      case carries =>
        rw [← hcopy]
        exact hplaced.carries k hh hl hleaves (Nat.min_le_right ..) (Nat.min_le_left ..)

end Object

/-- In every reachable state, a request to resize the object in use that starts at an address is
refused for want of room with all as it was, or because no memory is opened with all memory, headers,
queues and blocks as they were; or it is answered in the slot under its next epoch, or with a new
object of the same type that has the bytes of both sizes while the old slot waits in its region. It
stops at a fault only if the slot has no epoch left, and nothing is reported. A request about any
other address of the reserved range is reported once and refused, and changes nothing but the
account. -/
theorem reallocate_judged (hr : g.Reachable) (hc : g.heap.contains address = true)
    (hne : address ≠ 0) (size : Nat) (grant : Grant) (hout : g.OffersOutside grant.block size) :
    (∀ s, g.Heads address s → ∃ header owner, g.owned? s = some (header, owner) ∧
      g.Resized s header owner size grant.refusal (g.reallocate address size grant).1
        (g.reallocate address size grant).2 ∧
      (g.reallocate address size grant).2.violations = g.violations) ∧
    ((∀ s, ¬ g.Heads address s) →
      (g.reallocate address size grant).1 = .error (.invalidPointer address) ∧
      (∃ reason, (g.reallocate address size grant).2.violations =
        g.violations ++ [.badFree address reason]) ∧
      g.SameParts (g.reallocate address size grant).2) := by
  have k := hr.kept
  refine ⟨fun s hh => ?_, fun hnot => ?_⟩
  · obtain ⟨header, owner, howned, howner⟩ := hh.owned k
    refine ⟨header, owner, howned, ?_⟩
    rw [reallocate_of_heads hh howned]
    split
    · next hclass => exact resized_resizeSlot k hh howned hclass _
    · next hclass => exact resized_relocate k hh howned howner hclass hout
  · obtain ⟨s, hres⟩ := k.framed.exists_slot_of_contains hc
    obtain ⟨reason, hrefused⟩ : ∃ reason, g.reallocate address size grant = _ :=
      reallocate_of_not_heads hres (hnot s) hne grant
    rw [hrefused]
    exact ⟨rfl, ⟨reason, violations_report hr.halted_eq _⟩, g.sameParts_report _⟩

/-- The object of 12 bytes at `0x400030` does not stay in its class when it gets 100, and keeps its
slot when no memory is opened for another one. -/
theorem occupied_reallocate_judged : occupied.Reachable ∧ occupied.OffersOutside none 100 ∧
    (∃ s header owner, occupied.Resized s header owner 100 (some "locked")
      (occupied.reallocate 0x400030 100 ⟨some "locked", none⟩).1
      (occupied.reallocate 0x400030 100 ⟨some "locked", none⟩).2 ∧
      (occupied.reallocate 0x400030 100 ⟨some "locked", none⟩).1 = .error (.outOfMemory 160)) ∧
    (occupied.reallocate 0x400034 100 .opening).1 = .error (.invalidPointer 0x400034) := by
  have hheads : occupied.Heads 0x400030 ⟨3, 0x400000, 64⟩ :=
    ⟨by decide +kernel, rfl, by decide +kernel⟩
  have hinside : occupied.heap.resolve? 0x400034 = some ⟨3, 0x400000, 64⟩ := by decide +kernel
  have hcontains : occupied.heap.contains 0x400030 = true ∧
      occupied.heap.contains 0x400034 = true := by decide +kernel
  have hout : occupied.OffersOutside none 100 := by
    rintro _ ⟨⟩
  refine ⟨reachable_occupied, hout, ?_, ?_⟩
  · obtain ⟨hresized, _⟩ := reallocate_judged reachable_occupied hcontains.1 (by decide) 100
      ⟨some "locked", none⟩ hout
    obtain ⟨header, owner, _, hresized, _⟩ := hresized _ hheads
    exact ⟨_, header, owner, hresized, rfl⟩
  · obtain ⟨_, hrefused⟩ := reallocate_judged reachable_occupied hcontains.2 (by decide) 100
      .opening hout
    refine (hrefused fun s hs => ?_).1
    have heq := Option.some.inj (hinside.symm.trans hs.resolved)
    exact absurd (heq ▸ hs.user_eq) (by decide)

end Guard

end TypedHeap
