import TypedHeap.Guard.Allocation
import TypedHeap.Proofs.Resolution

/-! # The custody of slots

A carved slot is in use, or waits, once, in the queue of its region, or is lost because its memory
could not be opened, and its header says which. All other headers are blank. The heap changes by five
moves, each about one slot: a tag is kept, the slot is claimed, resized, released or lost. This module
says what a change about one slot must leave in order.
-/

namespace TypedHeap

theorem Registry.hash_of_find? {registry : Registry} {type : TypeHash} {record : TypeRecord}
    (h : registry.find? type = some record) : record.hash = type := by
  unfold find? at h
  split at h
  · next hfree =>
    obtain rfl := Option.some.inj h
    exact hfree.symm
  · have hfound := List.find?_some h
    exact of_decide_eq_true hfound

theorem Registry.mem_of_find? {registry : Registry} {type : TypeHash} {record : TypeRecord}
    (h : registry.find? type = some record) :
    record = .freeMemory ∨ record ∈ registry.records := by
  unfold find? at h
  split at h
  · exact .inl (Option.some.inj h).symm
  · exact .inr (List.mem_of_find?_eq_some h)

theorem Registry.hash_of_objectType? {registry : Registry} {type : TypeHash} {record : TypeRecord}
    (h : registry.objectType? type = some record) : record.hash = type :=
  hash_of_find? (Option.filter_eq_some_iff.mp h).1

theorem Registry.referred?_of_objectType? {registry : Registry} {type : TypeHash}
    {record : TypeRecord} (h : registry.objectType? type = some record) :
    registry.referred? (registry.reference type) = some record :=
  (registry.referred?_reference type).trans (Option.filter_eq_some_iff.mp h).1

theorem Registry.mem_of_referred? {registry : Registry} {reference : Nat} {record : TypeRecord}
    (h : registry.referred? reference = some record) (hfree : record.hash ≠ .free) :
    record ∈ registry.records := by
  unfold referred? at h
  split at h
  · cases h
    exact absurd rfl hfree
  · exact List.mem_of_getElem? h
  · cases h

structure Header.Retired (header : Header) : Prop where
  stamp_eq : header.stamp = Header.validStamp
  state_eq : header.state = Phase.freed.word
  owner_eq : header.owner = Reference.freeMemory

namespace Header

variable {header : Header}

theorem sane_of_isLive (h : header.isLive = true) : header.isSane = true :=
  (Bool.and_eq_true_iff.mp h).1

theorem allocated_of_isLive (h : header.isLive = true) : header.isAllocated = true :=
  (Bool.and_eq_true_iff.mp h).2

theorem phase_of_isLive (h : header.isLive = true) : header.phase = some .allocated := by
  have hstate := of_decide_eq_true (allocated_of_isLive h)
  rw [phase, hstate]
  rfl

theorem Retired.sane (h : header.Retired) : header.isSane = true := by simp [isSane, h.stamp_eq]

theorem Retired.phase_eq (h : header.Retired) : header.phase = some .freed := by
  rw [phase, h.state_eq]
  rfl

theorem Retired.not_allocated (h : header.Retired) : header.isAllocated = false := by
  simp [isAllocated, h.state_eq, Phase.word]

theorem Retired.release_eq (h : header.Retired) : header.release = .error (some .freed) := by
  rw [release, h.not_allocated, h.phase_eq]
  rfl

end Header

namespace Heap

/-- `header` is that of an object in the region `r`: it is live, names a registered type and has
the size that leads to the class of the region. -/
structure InUse (h : Heap) (registry : Registry) (r : Region) (header : Header) : Prop where
  live : header.isLive = true
  class_eq : h.classFor? header.size = some ⟨r.index, r.size⟩
  owned : ∃ owner, registry.objectType? owner.hash = some owner ∧
    header.owner = registry.reference owner.hash

/-- The slot is not one of those that were never touched. -/
def Carved (h : Heap) (s : Slot) : Prop := ∃ r, h.IsSlot s r ∧ r.Carves s.base

/-- What becomes of a slot that is carved. -/
inductive Held (h : Heap) (registry : Registry) (r : Region) (base : Nat) : Prop where
  | used (out : base ∉ r.free.toList) (opened : r.Opens base)
      (inUse : h.InUse registry r (h.headerAt base))
  | freed (waits : base ∈ r.free.toList) (opened : r.Opens base)
      (retired : (h.headerAt base).Retired)
  | lost (out : base ∉ r.free.toList) (blank : h.headerAt base = .blank)

structure Kept (registry : Registry) (h : Heap) : Prop where
  framed : h.Framed
  blank {base : Nat} :
    (∀ i r, h.region? i = some r → ¬ r.Carves base) → h.headerAt base = .blank
  epoch_lt (base : Nat) : (h.headerAt base).epoch < Word.limit
  carved {i base : Nat} {r : Region} : h.region? i = some r → r.Carves base → h.Held registry r base
  queued {i base : Nat} {r : Region} :
    h.region? i = some r → base ∈ r.free.toList → r.Carves base
  nodup {i : Nat} {r : Region} : h.region? i = some r → r.free.toList.Nodup

theorem Created.kept {config : Config} {raw : Nat} {h : Heap} (hc : Created config raw h)
    (registry : Registry) : h.Kept registry := by
  have hblank (base : Nat) : h.headerAt base = .blank := by
    simp [headerAt, hc.headers_eq]
  refine ⟨hc.framed, fun _ => hblank _, fun base => ?_, ?_, ?_, ?_⟩
  · rw [hblank]
    decide
  · intro i base r hr hcarves
    obtain ⟨size, skip, _, _, rfl⟩ := hc.region hr
    exact absurd hcarves.2.2 (Nat.not_lt.mpr hcarves.2.1)
  · intro i base r hr hb
    obtain ⟨size, skip, _, _, rfl⟩ := hc.region hr
    cases hb
  · intro i r hr
    obtain ⟨size, skip, _, _, rfl⟩ := hc.region hr
    exact List.nodup_nil

/-! ## Headers by address -/

theorem headerAt_setHeader (h : Heap) (base : Nat) (header : Header) (a : Nat) :
    (h.setHeader base header).headerAt a = if base = a then header else h.headerAt a := by
  simp [headerAt, setHeader, Std.TreeMap.getD_insert]

theorem headerAt_renew (h : Heap) (base : Nat) (header : Header) (a : Nat) :
    (h.renew base header).headerAt a = if base = a then header else h.headerAt a :=
  headerAt_setHeader ..

theorem headerAt_keepTag (h : Heap) (base granule : Nat) (tag : Cache.Tag) :
    ∃ cache, ∀ a, (h.keepTag base granule tag).headerAt a =
      if base = a then { h.headerAt a with cache } else h.headerAt a := by
  unfold keepTag
  split
  · refine ⟨(h.headerAt base).cache, fun a => ?_⟩
    split
    · next heq => rw [heq]
    · rfl
  · refine ⟨if (h.headerAt base).cache = 0 then Reference.chain h.chains.size
      else (h.headerAt base).cache, fun a => ?_⟩
    rw [headerAt_setHeader]
    split
    · next heq => rw [heq]
    · rfl

theorem keepTag_fields (h : Heap) (base granule : Nat) (tag : Cache.Tag) :
    (h.keepTag base granule tag).range = h.range ∧
      (h.keepTag base granule tag).shift = h.shift ∧
      (h.keepTag base granule tag).classes = h.classes ∧
      (h.keepTag base granule tag).regions = h.regions := by
  unfold keepTag
  split <;> exact ⟨rfl, rfl, rfl, rfl⟩

theorem region?_putBack (h : Heap) (i base j : Nat) :
    (h.putBack i base).region? j =
      if i = j then (h.region? j).map (·.putBack base) else h.region? j := by
  simp only [putBack, region?, List.getElem?_modify]
  split <;> simp_all

theorem take_cases {h h' : Heap} {i : Nat} {refusal : Option String} {taken : Region.Taken}
    (ht : h.take i refusal = (taken, h')) :
    h.region? i = none ∧ taken = .exhausted ∧ h' = h ∨
      ∃ r r', h.region? i = some r ∧ r.take refusal = (taken, r') ∧
        h' = { h with regions := h.regions.set i r' } := by
  unfold take at ht
  cases hr : h.region? i with
  | none =>
      simp only [hr] at ht
      obtain ⟨rfl, rfl⟩ := Prod.mk.inj ht
      exact .inl ⟨rfl, rfl, rfl⟩
  | some r =>
      cases htake : r.take refusal with
      | mk t r' =>
          simp only [hr, htake] at ht
          obtain ⟨rfl, rfl⟩ := Prod.mk.inj ht
          exact .inr ⟨r, r', rfl, htake, rfl⟩

theorem eq_of_take_exhausted {h h' : Heap} {i : Nat} {refusal : Option String}
    (ht : h.take i refusal = (.exhausted, h')) : h' = h := by
  rcases take_cases ht with ⟨_, _, hsame⟩ | ⟨r, r', hr, htake, rfl⟩
  · exact hsame
  · obtain ⟨_, _, rfl⟩ := Region.take_exhausted htake
    obtain ⟨hi, hget⟩ := List.getElem?_eq_some_iff.mp hr
    rw [← hget, List.set_getElem_self]

theorem region?_set {h : Heap} {i : Nat} {r r' : Region} (hr : h.region? i = some r) (j : Nat) :
    ({ h with regions := h.regions.set i r' } : Heap).region? j =
      if i = j then some r' else h.region? j := by
  have hlt := (List.getElem?_eq_some_iff.mp hr).1
  simp only [region?, List.getElem?_set, hlt, if_true]

/-! ## Changes about one slot -/

/-- The heaps `h` and `h'` differ in the region `i`, which becomes `r'`, and in the header at
`base` at most, besides the tags. -/
structure Alters (h h' : Heap) (i base : Nat) (r r' : Region) : Prop where
  range_eq : h'.range = h.range
  shift_eq : h'.shift = h.shift
  classes_eq : h'.classes = h.classes
  length_eq : h'.regions.length = h.regions.length
  old : h.region? i = some r
  new : h'.region? i = some r'
  others (j : Nat) : j ≠ i → h'.region? j = h.region? j
  headers (a : Nat) : a ≠ base → h'.headerAt a = h.headerAt a
  extends_ : r.Extends r'

namespace Alters

variable {h h' : Heap} {i base : Nat} {r r' : Region} {registry : Registry}

theorem region_cases (a : h.Alters h' i base r r') {j : Nat} {q : Region}
    (hq : h'.region? j = some q) : j = i ∧ q = r' ∨ j ≠ i ∧ h.region? j = some q := by
  by_cases hj : j = i
  · rw [hj, a.new] at hq
    exact .inl ⟨hj, (Option.some.inj hq).symm⟩
  · rw [a.others j hj] at hq
    exact .inr ⟨hj, hq⟩

theorem region_extends (a : h.Alters h' i base r r') {j : Nat} {q : Region}
    (hq : h'.region? j = some q) : ∃ p, h.region? j = some p ∧ p.Extends q := by
  rcases a.region_cases hq with ⟨rfl, rfl⟩ | ⟨-, hold⟩
  · exact ⟨r, a.old, a.extends_⟩
  · exact ⟨q, hold, .refl q⟩

theorem region_extended (a : h.Alters h' i base r r') {j : Nat} {p : Region}
    (hp : h.region? j = some p) : ∃ q, h'.region? j = some q ∧ p.Extends q := by
  by_cases hj : j = i
  · subst hj
    rw [a.old, Option.some.injEq] at hp
    exact ⟨r', a.new, hp ▸ a.extends_⟩
  · exact ⟨p, by rw [a.others j hj, hp], .refl p⟩

theorem framed (a : h.Alters h' i base r r') (f : h.Framed) (s : r'.Sound h.start h.shift) :
    h'.Framed := by
  have hstart : h'.start = h.start := congrArg Reservation.start a.range_eq
  refine ⟨?_, ?_, ?_, ?_, ?_, ?_, ?_, ?_, ?_⟩
  · rw [a.shift_eq]; exact f.shift_ge
  · rw [a.shift_eq]; exact f.shift_le
  · rw [a.shift_eq, hstart]; exact f.aligned
  · rw [a.range_eq, a.shift_eq, a.length_eq]; exact f.size_eq
  · rw [a.classes_eq, a.shift_eq]; exact f.classes_eq
  · rw [a.length_eq, a.classes_eq]; exact f.length_eq
  · intro j q hq
    obtain ⟨p, hp, hext⟩ := a.region_extends hq
    rw [hext.index_eq]
    exact f.index_eq hp
  · intro j q hq
    obtain ⟨p, hp, hext⟩ := a.region_extends hq
    rw [a.classes_eq, hext.size_eq]
    exact f.class_eq hp
  · intro j q hq
    rw [hstart, a.shift_eq]
    rcases a.region_cases hq with ⟨rfl, rfl⟩ | ⟨-, hold⟩
    · exact s
    · exact f.sound hold

end Alters

namespace Framed

variable {h : Heap}

theorem region_unique (f : h.Framed) {i j base : Nat} {r q : Region}
    (hr : h.region? i = some r) (hq : h.region? j = some q) (hrb : r.Carves base)
    (hqb : q.Carves base) : i = j := by
  have mem {k : Nat} {p : Region} (hp : h.region? k = some p) (hb : p.Carves base) :
      (base - h.start) >>> h.shift = k := by
    have hsound := f.sound hp
    exact f.index_of_mem hp hb.1.1
      (Nat.lt_of_lt_of_le hb.2.2 (Nat.le_trans hsound.next_le hsound.finish_le))
  exact (mem hr hrb).symm.trans (mem hq hqb)

end Framed

namespace Alters

variable {h h' : Heap} {i base : Nat} {r r' : Region} {registry : Registry}

theorem inUse (a : h.Alters h' i base r r') {p q : Region} {header : Header}
    (hpq : p.Extends q) (hu : h.InUse registry p header) : h'.InUse registry q header := by
  refine ⟨hu.live, ?_, hu.owned⟩
  rw [classFor?, a.classes_eq, hpq.index_eq, hpq.size_eq]
  exact hu.class_eq

/-- A change keeps the order if it leaves the slot in order, closes no memory and changes the queue of
the region by that slot alone. -/
theorem kept (a : h.Alters h' i base r r') (k : h.Kept registry) (s : r'.Sound h.start h.shift)
    (carves : ∀ b, r'.Carves b ↔ r.Carves b ∨ b = base) (opens : r.openTo ≤ r'.openTo)
    (queue : ∀ b, b ≠ base → (b ∈ r'.free.toList ↔ b ∈ r.free.toList))
    (nodup : r'.free.toList.Nodup) (epoch : (h'.headerAt base).epoch < Word.limit)
    (now : h'.Held registry r' base) : h'.Kept registry := by
  have hcarved : r'.Carves base := (carves base).mpr (.inr rfl)
  have hframed := a.framed k.framed s
  have hopens {b : Nat} (hb : r.Opens b) : r'.Opens b := by
    obtain ⟨hfrom, hto⟩ := hb
    exact ⟨a.extends_.openFrom_eq ▸ hfrom, a.extends_.size_eq ▸ Nat.le_trans hto opens⟩
  refine ⟨hframed, ?blank, ?epoch_lt, ?carved, ?queued, ?nodup⟩
  case blank =>
    -- what no region carves now was carved by none before
    intro b hb
    have hne : b ≠ base := fun heq => hb i r' a.new (heq ▸ hcarved)
    rw [a.headers b hne]
    refine k.blank fun j p hp hpb => ?_
    obtain ⟨q, hq, hext⟩ := a.region_extended hp
    exact hb j q hq (hext.carves hpb)
  case epoch_lt =>
    intro b
    by_cases hb : b = base
    · rw [hb]
      exact epoch
    · rw [a.headers b hb]
      exact k.epoch_lt b
  case carved =>
    intro j b q hq hqb
    by_cases hb : b = base
    · subst hb
      obtain rfl : j = i := hframed.region_unique hq a.new hqb hcarved
      obtain rfl := Option.some.inj (hq.symm.trans a.new)
      exact now
    · rcases a.region_cases hq with ⟨rfl, rfl⟩ | ⟨-, hold⟩
      · cases k.carved a.old (((carves b).mp hqb).resolve_right hb) with
        | used out opened used =>
            exact .used (mt (queue b hb).mp out) (hopens opened)
              (a.headers b hb ▸ a.inUse a.extends_ used)
        | freed waits opened retired =>
            exact .freed ((queue b hb).mpr waits) (hopens opened) (a.headers b hb ▸ retired)
        | lost out blank => exact .lost (mt (queue b hb).mp out) ((a.headers b hb).trans blank)
      · cases k.carved hold hqb with
        | used out opened used => exact .used out opened (a.headers b hb ▸ a.inUse (.refl q) used)
        | freed waits opened retired => exact .freed waits opened (a.headers b hb ▸ retired)
        | lost out blank => exact .lost out ((a.headers b hb).trans blank)
  case queued =>
    intro j b q hq hqb
    rcases a.region_cases hq with ⟨rfl, rfl⟩ | ⟨-, hold⟩
    · by_cases hb : b = base
      · exact hb ▸ hcarved
      · exact (carves b).mpr (.inl (k.queued a.old ((queue b hb).mp hqb)))
    · exact k.queued hold hqb
  case nodup =>
    intro j q hq
    rcases a.region_cases hq with ⟨rfl, rfl⟩ | ⟨-, hold⟩
    · exact nodup
    · exact k.nodup hold

end Alters

end Heap

end TypedHeap
