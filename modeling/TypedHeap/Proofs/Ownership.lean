import TypedHeap.Proofs.Runs

/-! # Objects and their own pointers

An object of at least one byte starts in its own slot, so its pointer leads back to it for as long
as it is neither freed nor reallocated. An object of no bytes fills the least slot with its header:
its pointer is the start of the next slot, and a free of it is refused.
-/

namespace TypedHeap

open Heap (Move)

def Event.request? : Event → Option Nat
  | allocate size .. => some size
  | allocateZeroed count size .. => some (count * size)
  | reallocate _ size _ => some size
  | _ => none

def Event.answer? (g : Guard) : Event → Option Bounds
  | allocate size type grant => (g.allocate size type grant).1.toOption
  | allocateZeroed count size type grant => (g.allocateZeroed count size type grant).1.toOption
  | reallocate address size grant => (g.reallocate address size grant).1.toOption
  | _ => none

/-- The event is about the object that starts at an address. -/
def Event.Names (address : Nat) : Event → Prop
  | free a | reallocate a .. => a = address
  | _ => False

namespace Guard

variable {g g' : Guard}

/-- In the slot `s` an object of the bounds `b` is in use. -/
structure Holds (g : Guard) (s : Slot) (b : Bounds) : Prop where
  carved : g.heap.Carved s
  live : (g.heap.headerAt s.base).isLive = true
  bounds_eq : b = s.object (g.heap.headerAt s.base).size

theorem Holds.live? (hh : g.Holds s b) (k : g.heap.Kept g.registry) :
    g.heap.live? s = some (g.heap.headerAt s.base) := by
  obtain ⟨r, hs, hcarves⟩ := hh.carved
  exact (k.live?_eq_some_iff hs).mpr ⟨hcarves, rfl, hh.live⟩

theorem Holds.of_sameHeap {s : Slot} {b : Bounds} (hh : g.Holds s b) (h : g.SameHeap g') :
    g'.Holds s b := by
  obtain ⟨hcarved, hlive, hbounds⟩ := hh
  rw [← h.heap_eq] at hcarved hlive hbounds
  exact ⟨hcarved, hlive, hbounds⟩

theorem Placed.holds {size : Nat} {type : TypeHash} {refusal : Option String} {b : Bounds}
    (hp : g.Placed size type refusal (.ok b) g') (k : g.heap.Kept g.registry)
    (hc : g.heap.contains b.lower = true) :
    ∃ s, g'.Holds s b ∧ b = s.object size ∧ (g.heap.headerAt s.base).isLive = false := by
  cases hp with
  | block outside _ _ =>
      have hpos : 0 < LargeHeap.blockSize size :=
        Nat.lt_of_lt_of_le Nat.one_pos (Nat.le_max_right ..)
      exact nomatch hc.symm.trans (Heap.not_contains_of_avoids outside hpos)
  | @slot s _ move _ =>
      have hself := move.headerAt_self k
      have hlive : (g'.heap.headerAt s.base).untagged.isLive = true := by rw [hself]; rfl
      have hsize : (g'.heap.headerAt s.base).untagged.size = size := by rw [hself]; rfl
      exact ⟨s, ⟨move.carved_self k, hlive, congrArg s.object hsize.symm⟩, rfl,
        move.idle_before k⟩

theorem Reallocated.holds {address size : Nat} {refusal : Option String} {b : Bounds}
    (hr : g.Reallocated address size refusal (.ok b) g') (k : g.heap.Kept g.registry)
    (hc : g.heap.contains b.lower = true) :
    (∃ s, g'.Holds s b ∧ b = s.object size) ∧ g.Calm g' := by
  cases hr with
  | fresh _ placed =>
      obtain ⟨s, hs, heq, _⟩ := placed.holds k hc
      exact ⟨⟨s, hs, heq⟩, placed.calm⟩
  | foreign _ outside _ =>
      have hpos : 0 < LargeHeap.blockSize size :=
        Nat.lt_of_lt_of_le Nat.one_pos (Nat.le_max_right ..)
      exact nomatch hc.symm.trans (Heap.not_contains_of_avoids outside hpos)
  | @inPlace s _ heads move calm =>
      have hself := move.headerAt_self k
      have hlive : (g'.heap.headerAt s.base).untagged.isLive = true := by
        rw [hself]
        exact move.live_before k rfl
      have hsize : (g'.heap.headerAt s.base).untagged.size = size := by rw [hself]; rfl
      exact ⟨⟨s, ⟨move.carved_self k, hlive, congrArg s.object hsize.symm⟩, rfl⟩, calm⟩
  | @moved s type _ g₁ _ heads placed move calm =>
      obtain ⟨t, ht, heq, hidle⟩ := placed.holds k hc
      -- the old object was in use when the slot of the new one was not
      have hne : s ≠ t := by
        intro heq
        subst heq
        obtain ⟨r, hs, _⟩ := k.framed.resolve?_eq_some_iff.mp heads.resolved
        obtain ⟨header, hl⟩ := Option.isSome_iff_exists.mp heads.live
        obtain ⟨_, rfl, hlive⟩ := (k.live?_eq_some_iff hs).mp hl
        exact nomatch hlive.symm.trans hidle
      have k₁ := placed.kept k
      have hsame := move.headerAt_eq (move.base_ne k₁ (move.sole_of_carved k₁ ht.carved) hne)
      refine ⟨⟨t, ⟨move.carved ht.carved, ?_, ?_⟩, heq⟩, placed.calm.trans calm⟩
      · rw [hsame]
        exact ht.live
      · rw [hsame]
        exact ht.bounds_eq

/-- Every object that is answered in the reserved range has a slot to itself. -/
theorem holds_of_answer (k : g.heap.Kept g.registry) {e : Event} (hp : e.Permitted g) {size : Nat}
    {b : Bounds} (hsize : e.request? = some size) (ha : e.answer? g = some b)
    (hc : g.heap.contains b.lower = true) :
    (∃ s, (g.perform e).Holds s b ∧ b = s.object size) ∧ g.Calm (g.perform e) := by
  have hok {x : Except AllocError Bounds} (hx : x.toOption = some b) : x = .ok b := by
    cases x with
    | error _ => cases hx
    | ok _ => exact congrArg Except.ok (Option.some.inj hx)
  cases e with
  | allocate n type grant =>
      obtain rfl := Option.some.inj hsize
      have hplaced := placed_allocate k type hp
      rw [hok ha] at hplaced
      obtain ⟨s, hs, heq, _⟩ := hplaced.holds k hc
      exact ⟨⟨s, hs, heq⟩, hplaced.calm⟩
  | allocateZeroed count n type grant =>
      obtain rfl := Option.some.inj hsize
      have hplaced := placed_allocateZeroed k type hp
      rw [hok ha] at hplaced
      obtain ⟨s, hs, heq, _⟩ := hplaced.holds k hc
      exact ⟨⟨s, hs, heq⟩, hplaced.calm⟩
  | reallocate address n grant =>
      obtain rfl := Option.some.inj hsize
      have hreallocated := reallocated_reallocate k address hp
      rw [hok ha] at hreallocated
      exact hreallocated.holds k hc
  | free | check | checkBounds | fill | copy => cases ha

/-! ## Later on -/

theorem not_endsIn {s : Slot} {es : List Event} (hes : ∀ e ∈ es, ¬ e.Names s.user) (g : Guard) :
    ¬ g.EndsIn s es := by
  induction es generalizing g with
  | nil => exact id
  | cons e es ih =>
      intro h
      rcases h with hends | hrest
      · refine hes e List.mem_cons_self ?_
        cases e with
        | free address => exact hends.user_eq
        | reallocate address size grant => exact hends.1.user_eq
        | allocate | allocateZeroed | check | checkBounds | fill | copy => exact hends
      · exact ih (fun e' he' => hes e' (List.mem_cons_of_mem _ he')) (g.perform e) hrest

/-- An object stays as it is as long as its own pointer is neither freed nor reallocated. -/
theorem Holds.later {s : Slot} {b : Bounds} {es : List Event} (hh : g.Holds s b)
    (k : g.heap.Kept g.registry) (run : g.Run es g') (hes : ∀ e ∈ es, ¬ e.Names b.lower) :
    g'.Holds s b ∧ (g'.heap.headerAt s.base).epoch = (g.heap.headerAt s.base).epoch := by
  have huser : b.lower = s.user := congrArg Bounds.lower hh.bounds_eq
  rw [huser] at hes
  have hsame := run.untagged_eq k hh.carved hh.live (not_endsIn hes g)
  have hlive : (g'.heap.headerAt s.base).untagged.isLive = true := by
    rw [hsame]
    exact hh.live
  have hsize : (g'.heap.headerAt s.base).untagged.size = (g.heap.headerAt s.base).size := by
    rw [hsame]
    rfl
  have hepoch : (g'.heap.headerAt s.base).untagged.epoch = (g.heap.headerAt s.base).epoch := by
    rw [hsame]
    rfl
  exact ⟨⟨run.carved k hh.carved, hlive, hh.bounds_eq.trans (congrArg s.object hsize.symm)⟩,
    hepoch⟩

/-- The slot `s` is freed, every other one is as it was, and nothing is reported. -/
structure Releases (g g' : Guard) (s : Slot) : Prop where
  freed : ∃ header, g'.heap.claimed? s = some header ∧ header.phase = some .freed
  others {t : Slot} : g.heap.Carved t → t ≠ s → g'.heap.live? t = g.heap.live? t
  violations_eq : g'.violations = g.violations

theorem Holds.heads {s : Slot} {b : Bounds} (hh : g.Holds s b) (k : g.heap.Kept g.registry)
    (hpos : b.lower < b.upper) : g.Heads b.lower s := by
  obtain ⟨r, hs, hcarves⟩ := hh.carved
  have hl := hh.live? k
  have hsize := (k.inUse_of_live hs hl).1.size_le
  rw [← hs.size_eq] at hsize
  rw [hh.bounds_eq] at hpos ⊢
  refine ⟨k.framed.resolve?_of_carves hs hcarves (Nat.le_add_right ..) ?_, rfl, by simp [hl]⟩
  simp only [Slot.object, Slot.user, Slot.finish] at *
  omega

theorem Holds.releases {s : Slot} {b : Bounds} (hh : g.Holds s b) (k : g.heap.Kept g.registry)
    (hpos : b.lower < b.upper) : g.Releases (g.free b.lower) s := by
  obtain ⟨hm, hcalm⟩ := free_of_heads k (hh.heads k hpos)
  have k' := k.move hm
  obtain ⟨r', hs', hcarves'⟩ := hm.carved hh.carved
  have hphase : ((g.free b.lower).heap.headerAt s.base).phase = some .freed :=
    congrArg Header.phase (hm.headerAt_self k)
  have hne : (g.free b.lower).heap.headerAt s.base ≠ .blank := fun heq => nomatch heq ▸ hphase
  refine ⟨⟨_, (k'.claimed?_eq_some_iff hs').mpr ⟨hcarves', rfl, hne⟩, hphase⟩, fun ht hne => ?_,
    hcalm.violations_eq⟩
  exact hm.live?_eq k ht (hm.base_ne k (hm.sole_of_carved k ht) hne.symm)

/-- The pointer of an object of no bytes leads to another slot, and is the start of no object. -/
theorem Holds.not_heads {s : Slot} {b : Bounds} (hh : g.Holds s b) (k : g.heap.Kept g.registry)
    (hempty : b.lower = b.upper) (t : Slot) :
    ¬ (g.heap.resolve? b.lower = some t ∧ b.lower = t.user) := by
  intro h
  rcases h with ⟨hres, huser⟩
  obtain ⟨r, hs, hcarves⟩ := hh.carved
  obtain ⟨q, ht, hlow, hhigh, hend⟩ := k.framed.resolve?_eq_some_iff.mp hres
  have hl := hh.live? k
  -- an object of no bytes gets the class that its header fills
  have hsize : s.size = headerSize := by
    have hzero : (g.heap.headerAt s.base).size = 0 := by
      rw [hh.bounds_eq] at hempty
      simp only [Slot.object] at hempty
      omega
    have hclass := (k.inUse_of_live hs hl).1.class_eq
    rw [hzero, Heap.classFor?, k.framed.classes_eq] at hclass
    have hleast := SizeClasses.select?_header k.framed.shift_ge
    have heq := Option.some.inj (hclass.symm.trans hleast)
    rw [hs.size_eq]
    exact congrArg SizeClass.size heq
  have hlower : b.lower = s.user := congrArg Bounds.lower hh.bounds_eq
  have hbase : t.base = s.base := by
    simp only [Slot.user] at huser hlower
    omega
  have hresolved : g.heap.resolve? s.base = some s :=
    k.framed.resolve?_of_carves hs hcarves (Nat.le_refl _) (by
      simp only [Slot.finish, hsize, headerSize]
      omega)
  have hother : g.heap.resolve? s.base = some t :=
    k.framed.resolve?_of_mem ht (Nat.le_of_eq hbase) (by omega) (by
      simp only [Slot.user] at hlower
      omega)
  obtain rfl := Option.some.inj (hresolved.symm.trans hother)
  simp only [Slot.finish, Slot.user] at *
  omega

/-- What an object in the slot `s` has of its own pointer: its bounds, the epoch it was allocated
under, and that a free ends it. -/
structure Serves (g : Guard) (s : Slot) (b : Bounds) (epoch : Epoch) : Prop where
  boundsAt_eq : g.boundsAt b.lower = b
  capture_eq : g.capture b.lower = ⟨b.lower, some epoch⟩
  releases : g.Releases (g.free b.lower) s

theorem Holds.serves {s : Slot} {b : Bounds} (hh : g.Holds s b) (k : g.heap.Kept g.registry)
    (hpos : b.lower < b.upper) : g.Serves s b (g.heap.headerAt s.base).epoch := by
  have hheads := hh.heads k hpos
  have hl := hh.live? k
  refine ⟨?_, ?_, hh.releases k hpos⟩
  · simp only [boundsAt, hheads.resolved, hl]
    exact hh.bounds_eq.symm
  · simp [capture, hheads.resolved, hl]

theorem Holds.refuses {s : Slot} {b : Bounds} (hh : g.Holds s b) (k : g.heap.Kept g.registry)
    (hg : g.halted = false) (hc : g.heap.contains b.lower = true) (hempty : b.lower = b.upper) :
    ∃ reason, (g.free b.lower).violations = g.violations ++ [.badFree b.lower reason] ∧
      (g.free b.lower).Holds s b := by
  have hnot (t : Slot) : ¬ g.Heads b.lower t := fun ht =>
    hh.not_heads k hempty t ⟨ht.resolved, ht.user_eq⟩
  have hzero : b.lower ≠ 0 := by
    have hlower : b.lower = s.user := congrArg Bounds.lower hh.bounds_eq
    have hheader : headerSize = 48 := rfl
    simp only [Slot.user] at hlower
    omega
  obtain ⟨t, hres⟩ := k.framed.exists_slot_of_contains hc
  obtain ⟨v, hfree, ⟨hspent, _⟩ | ⟨_, reason, rfl⟩⟩ := free_of_not_heads k hres (hnot t) hzero
  · exact absurd ⟨hres, hspent.user_eq⟩ (hh.not_heads k hempty t)
  · have hb := g.silent_bump .frees
    refine ⟨reason, ?_, ?_⟩
    · rw [hfree, violations_report (hb.halted_eq.trans hg), hb.violations_eq]
    · exact hh.of_sameHeap (sameHeap_free k hnot)

/-- Whatever happens to other objects, the own pointer of an object in the reserved range serves it
iff the object has at least one byte. A free of one of no bytes is a bad free. -/
theorem own_pointer_serves_iff (hr : g.Reachable) {e : Event} (hp : e.Permitted g) {size : Nat}
    {b : Bounds} (hsize : e.request? = some size) (ha : e.answer? g = some b)
    (hc : g.heap.contains b.lower = true) :
    ∃ s, (g.perform e).Holds s b ∧
      ∀ es g', (g.perform e).Run es g' → (∀ e' ∈ es, ¬ e'.Names b.lower) →
        (g'.Serves s b ((g.perform e).heap.headerAt s.base).epoch ↔ 0 < size) ∧
        (size = 0 → ∃ reason,
          (g'.free b.lower).violations = g'.violations ++ [.badFree b.lower reason] ∧
            (g'.free b.lower).Holds s b) := by
  obtain ⟨⟨s, hs, hb⟩, hcalm⟩ := holds_of_answer hr.kept hp hsize ha hc
  have hruns := hcalm.halted_eq.trans hr.halted_eq
  have hr₁ := hr.later (.step hp hruns (.done (g.perform e)))
  refine ⟨s, hs, fun es g' run hes => ?_⟩
  have k' := (hr₁.later run).kept
  obtain ⟨hs', hepoch⟩ := hs.later hr₁.kept run hes
  have hc' : g'.heap.contains b.lower = true := by
    obtain ⟨turns, he⟩ := effect_perform hr.kept hp hruns
    rw [Heap.contains, run.range_eq hr₁.kept, he.moves.range_eq]
    exact hc
  have hends : b.lower = s.user ∧ b.upper = s.user + size := by
    rw [hb]
    exact ⟨rfl, rfl⟩
  rcases Nat.eq_zero_or_pos size with rfl | hpos
  · obtain ⟨reason, hviolations, hholds⟩ :=
      hs'.refuses k' (hr₁.later run).halted_eq hc' (by omega)
    refine ⟨⟨fun hserves => ?_, fun hlt => absurd hlt (Nat.lt_irrefl _)⟩,
      fun _ => ⟨reason, hviolations, hholds⟩⟩
    have hsame := hviolations.symm.trans hserves.releases.violations_eq
    simp at hsame
  · refine ⟨⟨fun _ => hpos, fun _ => ?_⟩, fun hzero => absurd hzero (Nat.ne_of_gt hpos)⟩
    rw [← hepoch]
    exact hs'.serves k' (by omega)

theorem moved_pointer_serves :
    Event.answer? occupied (.reallocate 0x400030 100 .opening) = some ⟨0x900030, 0x900094⟩ ∧
      ∃ s epoch, ((occupied.perform (.reallocate 0x400030 100 .opening)).perform
        (.allocate 8 (.ofName NameHasher.spread "double") .opening)).Serves s
          ⟨0x900030, 0x900094⟩ epoch := by
  have ha : Event.answer? occupied (.reallocate 0x400030 100 .opening) =
      some ⟨0x900030, 0x900094⟩ := rfl
  obtain ⟨s, _, hrun⟩ := own_pointer_serves_iff reachable_occupied
    (e := .reallocate 0x400030 100 .opening) (by decide +kernel) rfl ha (by decide +kernel)
  have hserves := hrun [.allocate 8 (.ofName NameHasher.spread "double") .opening] _
    (.step (by decide +kernel) rfl (.done _)) (by simp [Event.Names])
  exact ⟨ha, s, _, hserves.1.mpr (by decide)⟩

/-- An object of no bytes is in use in the least slot with a header, and cannot be freed. -/
theorem empty_object_not_freed :
    (smallest.allocate 0 .int8 .opening).1 = .ok ⟨0x300030, 0x300030⟩ ∧
      ((smallest.allocate 0 .int8 .opening).2.free 0x300030).violations =
        [.badFree 0x300030 "never allocated"] ∧
      (((smallest.allocate 0 .int8 .opening).2.free 0x300030).heap.live?
        ⟨2, 0x300000, 48⟩).isSome = true :=
  ⟨rfl, by decide +kernel, by decide +kernel⟩

end Guard

end TypedHeap
