import TypedHeap.Proofs.Courses
import TypedHeap.Proofs.Resolver

/-! # Open memory

Every region has open memory from the page of its first slot on. It is opened in front of the slots
that are carved, always from where it ends: whole pages, a chunk at least, and never beyond the window.
On every course of a region the ranges that were opened make up just the memory that counts as open,
and all carved slots lie in it but those that are lost. So the header of a carved slot can be read if it
is not lost and has room for one, which the slots of all objects have. No header can be read of which a
byte is closed.
-/

namespace TypedHeap

/-- The address lies in a page that the bytes of the range touch. -/
def Touches (range : Nat × Nat) (a : Nat) : Prop :=
  (pagesTouched range.1 range.2).1 ≤ a ∧ a < (pagesTouched range.1 range.2).2

namespace Region

/-- Opening the ranges opened the pages from `openFrom` to `openTo` and no others, and they all lie
in the window. -/
structure Opened (r : Region) (opened : List (Nat × Nat)) : Prop where
  from_whole : pageSize ∣ r.openFrom
  to_whole : pageSize ∣ r.openTo
  window_whole : pageSize ∣ r.windowEnd
  start_le : r.start ≤ r.openFrom
  ordered : r.openFrom ≤ r.openTo
  covers (a : Nat) : (∃ range ∈ opened, Touches range a) ↔ r.openFrom ≤ a ∧ a < r.openTo
  inside : ∀ range ∈ opened, r.openFrom ≤ (pagesTouched range.1 range.2).1 ∧
    (pagesTouched range.1 range.2).2 ≤ r.windowEnd

/-! ## One opening -/

section Grow

variable {r : Region} {opened : List (Nat × Nat)} {upto : Nat}

theorem Opened.dvd_reach (o : r.Opened opened) (upto : Nat) : pageSize ∣ r.reach upto := by
  have hround : pageSize ∣ roundUp upto pageSize := dvd_roundUp ..
  have hchunk : pageSize ∣ r.openTo + chunkSize := Nat.dvd_add o.to_whole (by decide)
  have hwanted : pageSize ∣ max (roundUp upto pageSize) (r.openTo + chunkSize) := by
    rw [Nat.max_def]
    split
    · exact hchunk
    · exact hround
  rw [reach, Nat.min_def]
  split
  · exact hwanted
  · exact o.window_whole

theorem reach_bounds (hw : upto ≤ r.windowEnd) (hclosed : ¬ upto ≤ r.openTo) :
    r.openTo < r.reach upto ∧ r.reach upto ≤ r.windowEnd := by
  have hround : upto ≤ roundUp upto pageSize := le_roundUp (by decide)
  unfold reach
  omega

theorem Opened.pagesTouched_opening (o : r.Opened opened) (hw : upto ≤ r.windowEnd)
    (hclosed : ¬ upto ≤ r.openTo) :
    pagesTouched r.openTo (r.reach upto - r.openTo) = (r.openTo, r.reach upto) := by
  have hlt := (reach_bounds hw hclosed).1
  have hlow : roundDown r.openTo pageSize = r.openTo := by
    rw [roundDown, Nat.mod_eq_zero_of_dvd o.to_whole, Nat.sub_zero]
  rw [pagesTouched, hlow, Nat.add_sub_cancel' (Nat.le_of_lt hlt),
    roundUp_of_dvd (by decide) (o.dvd_reach upto)]

theorem Opened.grown (o : r.Opened opened) (hw : upto ≤ r.windowEnd) :
    (r.grown upto).Opened (opened ++ (r.opening? upto).toList) := by
  rw [Region.grown, opening?]
  by_cases hclosed : upto ≤ r.openTo
  · rw [if_pos hclosed, if_pos hclosed, Option.toList_none, List.append_nil]
    exact o
  · obtain ⟨hlt, hle⟩ := reach_bounds hw hclosed
    have hpages := o.pagesTouched_opening hw hclosed
    have hordered := o.ordered
    rw [if_neg hclosed, if_neg hclosed, Option.toList_some]
    refine ⟨o.from_whole, o.dvd_reach upto, o.window_whole, o.start_le, by simp only; omega,
      fun a => ?_, fun range hrange => ?_⟩
    · have hcovers := o.covers a
      simp only [List.mem_append, List.mem_singleton, or_and_right, exists_or, exists_eq_left,
        Touches, hpages] at hcovers ⊢
      rw [hcovers]
      omega
    · rcases List.mem_append.mp hrange with hold | hnew
      · exact o.inside range hold
      · rw [List.mem_singleton.mp hnew, hpages]
        exact ⟨hordered, hle⟩

theorem Opened.with (o : r.Opened opened) (next : Nat) (free : Queue Nat) :
    ({ r with next, free } : Region).Opened opened :=
  ⟨o.from_whole, o.to_whole, o.window_whole, o.start_le, o.ordered, o.covers, o.inside⟩

end Grow

/-! ## Courses -/

theorem opened_create {heapStart shift skip : Nat} {c : SizeClass}
    (hstart : pageSize ∣ heapStart) (hshift : pageSize ∣ 2 ^ shift) :
    (create heapStart shift skip c).Opened [] := by
  have hwindow : pageSize ∣ heapStart + c.index <<< shift := by
    rw [Nat.shiftLeft_eq]
    exact Nat.dvd_add hstart (Nat.dvd_mul_left_of_dvd hshift _)
  have hfrom : pageSize ∣ (create heapStart shift skip c).openFrom := Nat.dvd_sub_mod _
  refine ⟨hfrom, hfrom, Nat.dvd_add hwindow hshift, ?_, Nat.le_refl _, fun a => ?_, nofun⟩
  · obtain ⟨k, hk⟩ := hwindow
    simp only [create, roundDown, pageSize, hk]
    omega
  · simp only [List.not_mem_nil, false_and, exists_false, false_iff]
    exact fun h => absurd h.2 (Nat.not_lt.mpr h.1)

section Course

variable {r r' : Region} {heapStart shift : Nat} {opened : List (Nat × Nat)} {lost : List Nat}

theorem Opened.take {base : Nat} {refusal : Option String} (o : r.Opened opened)
    (s : r.Laid heapStart shift) (h : r.take refusal = (.slot base, r')) :
    r'.Opened (opened ++ r.opens?.toList) := by
  rcases take_slot h with ⟨hqueue, hr'⟩ | ⟨hqueue, _, hfits, hr'⟩
  · have hwaits : r.free.pop?.isSome = true := by
      rw [Option.isSome_iff_ne_none, ne_eq, Queue.pop?_eq_none_iff, hqueue]
      exact List.cons_ne_nil base r'.free.toList
    rw [opens?, if_pos hwaits, Option.toList_none, List.append_nil, hr']
    exact o.with r.next r'.free
  · have hnone : r.free.pop? = none := (Queue.pop?_eq_none_iff _).mpr hqueue
    rw [opens?, hnone, hr']
    exact (o.with (r.next + r.size) r.free).grown (Nat.le_trans hfits s.finish_le)

theorem Laid.opens_kept {refusal : Option String} {taken : Taken} {base : Nat}
    (s : r.Laid heapStart shift) (h : r.take refusal = (taken, r')) (hb : r.Opens base) :
    r'.Opens base := by
  have hext := extends_of_take h
  have hmore := s.openTo_le_of_take h
  exact ⟨hext.openFrom_eq ▸ hb.1, hext.size_eq ▸ Nat.le_trans hb.2 hmore⟩

theorem Laid.carves_last (s : r.Laid heapStart shift) (h : r.first < r.next) :
    r.Carves (r.next - r.size) := by
  have hpos := s.size_pos
  have hstart := s.first_tiles.1
  have hfits := s.first_tiles.add_size_le s.next_tiles h
  refine ⟨⟨by omega, ?_⟩, by omega, by omega⟩
  rw [Nat.sub_right_comm]
  exact Nat.dvd_sub s.next_tiles.2 (Nat.dvd_refl _)

namespace Course

/-- What was opened before a course and on it makes up the open memory after it. -/
theorem opened_after {before : List (Nat × Nat)} (c : r.Course opened lost r')
    (s : r.Laid heapStart shift) (o : r.Opened before) : r'.Opened (before ++ opened) := by
  induction c generalizing before with
  | done =>
      rw [List.append_nil]
      exact o
  | took taken _ ih =>
      rw [← List.append_assoc]
      exact ih (s.take taken) (o.take s taken)
  | refused taken _ ih =>
      have s' := s.take taken
      obtain ⟨_, _, _, _, _, rfl⟩ := take_refused taken
      exact ih s' (o.with ..)
  | putBack base _ ih => exact ih (s.putBack base) (o.with ..)

theorem openTo_le (c : r.Course opened lost r') (s : r.Laid heapStart shift) :
    r.openTo ≤ r'.openTo := by
  induction c with
  | done => exact Nat.le_refl _
  | took taken _ ih => exact Nat.le_trans (s.openTo_le_of_take taken) (ih (s.take taken))
  | refused taken _ ih => exact Nat.le_trans (s.openTo_le_of_take taken) (ih (s.take taken))
  | putBack base _ ih => exact ih (s.putBack base)

/-- The memory of all slots that were carved is open, but maybe that of the lost ones. -/
theorem opens_or_lost {before : List Nat} (c : r.Course opened lost r') (s : r.Laid heapStart shift)
    (hbefore : ∀ base, r.Carves base → r.Opens base ∨ base ∈ before) {base : Nat}
    (hc : r'.Carves base) : r'.Opens base ∨ base ∈ before ++ lost := by
  induction c generalizing before with
  | done => exact (hbefore base hc).imp_right fun hin => List.mem_append_left _ hin
  | took taken _ ih =>
      refine ih (s.take taken) (fun b hb => ?_) hc
      rcases take_slot taken with ⟨_, hr'⟩ | ⟨hempty, rfl, _, hr'⟩
      · rw [hr'] at hb ⊢
        exact hbefore b hb
      · have hnext := congrArg next hr'
        rw [next_grown] at hnext
        rcases (s.carves_next (extends_of_take taken) hnext b).mp hb with hold | rfl
        · exact (hbefore b hold).imp_left (s.opens_kept taken)
        · exact .inl (s.opens_of_take (fun _ hb => absurd (hempty ▸ hb) List.not_mem_nil) taken)
  | refused taken _ ih =>
      rw [List.append_cons]
      refine ih (s.take taken) (fun b hb => ?_) hc
      have hext := extends_of_take taken
      obtain ⟨_, _, _, _, _, rfl⟩ := take_refused taken
      rw [List.mem_append, List.mem_singleton]
      rcases (s.carves_next hext rfl b).mp hb with hold | rfl
      · exact (hbefore b hold).imp_right .inl
      · exact .inr (.inr rfl)
  | putBack b _ ih => exact ih (s.putBack b) hbefore hc

end Course

end Course

/-! ## Headers -/

/-- A header can be read iff all its bytes are open. -/
theorem Opened.readable_iff {r : Region} {opened : List (Nat × Nat)} (o : r.Opened opened)
    (base : Nat) : r.readable base = true ↔
      ∀ a, base ≤ a → a < base + headerSize → ∃ range ∈ opened, Touches range a := by
  simp only [o.covers, readable, Bool.and_eq_true, decide_eq_true_eq]
  constructor
  · intro h a hlow hhigh
    omega
  · intro h
    have hfirst := h base (Nat.le_refl _) (Nat.lt_add_of_pos_right (by decide))
    have hlast := h (base + headerSize - 1) (by simp only [headerSize]; omega)
      (by simp only [headerSize]; omega)
    simp only [headerSize] at *
    omega

theorem accessible_eq (r : Region) (base : Nat) :
    r.accessible base =
      if base < r.openFrom ∨ base + headerSize < Word.limit then .ok (r.readable base)
      else .error .addition := by
  unfold accessible readable
  by_cases hlow : base < r.openFrom
  · rw [if_pos hlow, if_pos (.inl hlow), decide_eq_false (Nat.not_le.mpr hlow), Bool.false_and]
  · rw [if_neg hlow, decide_eq_true (Nat.not_lt.mp hlow), Bool.true_and]
    by_cases hword : base + headerSize < Word.limit
    · rw [if_pos (.inr hword), Word.add?_of_lt hword]
      rfl
    · rw [if_neg (not_or.mpr ⟨hlow, hword⟩), Word.add?, if_neg hword]
      rfl

/-! ## Slots carved while memory is open -/

theorem first_lt_finish_create {heapStart shift skip : Nat} {c : SizeClass}
    (hskip : skip < skipLimit) (hpos : 0 < c.size) (hroomy : 16 * c.size ≤ 2 ^ shift) :
    (create heapStart shift skip c).first < (create heapStart shift skip c).finish := by
  have hslots : skip + 1 ≤ 2 ^ shift / c.size :=
    Nat.le_trans hskip ((Nat.le_div_iff_mul_le hpos).mpr hroomy)
  have hfits := Nat.mul_le_mul_right c.size hslots
  rw [Nat.add_mul, Nat.one_mul] at hfits
  simp only [create]
  omega

theorem take_of_open {r : Region} (hqueue : r.free.pop? = none)
    (hroom : r.next + r.size ≤ r.finish) (hopen : r.next + r.size ≤ r.openTo) (refusal : Option String) :
    r.take refusal = (.slot r.next, r.carve) := by
  have hnone : r.carve.opening? r.carve.next = none := if_pos hopen
  unfold carve at hnone
  simp only [take, hqueue, if_neg (Nat.not_lt.mpr hroom), grow, hnone, carve]

end Region

namespace Heap

theorem Framed.canOpen_of_within {h : Heap} (f : h.Framed) {i : Nat} {r : Region}
    (hr : h.region? i = some r) {range : Nat × Nat}
    (hlow : r.start ≤ (pagesTouched range.1 range.2).1)
    (hhigh : (pagesTouched range.1 range.2).2 ≤ r.windowEnd) :
    h.range.canOpen range.1 range.2 = true := by
  obtain ⟨hstart, hend⟩ := f.window_eq hr
  have hwindows : (i + 1) * 2 ^ h.shift ≤ h.range.size := by
    rw [f.size_eq]
    exact Nat.mul_le_mul_right _ (List.getElem?_eq_some_iff.mp hr).1
  simp only [Reservation.canOpen, Bool.or_eq_true, Bool.and_eq_true, decide_eq_true_eq]
  simp only [start] at hstart hend
  omega

end Heap

namespace Guard

theorem isSome_header? (g : Guard) {i : Nat} {r : Region} (hr : g.heap.region? i = some r)
    (base : Nat) : (g.header? i base).isSome = r.readable base := by
  unfold header? Heap.header?
  simp only [hr]
  cases hread : r.readable base <;> split <;> simp [hread]

theorem region?_serves_takeSlot {g : Guard} {c : SizeClass} {r : Region}
    (hr : g.heap.region? c.index = some r) (hqueue : r.free.pop? = none) {n : Nat}
    (hroom : r.next + n * r.size ≤ r.finish) (hopen : r.next + n * r.size ≤ r.openTo) :
    (g.serves (.replicate n (.takeSlot c none))).heap.region? c.index =
      some { r with next := r.next + n * r.size } := by
  induction n generalizing g r with
  | zero => simpa [serves] using hr
  | succ n ih =>
      rw [Nat.add_mul, Nat.one_mul, Nat.add_comm (n * r.size), ← Nat.add_assoc] at hroom hopen ⊢
      have htake := Region.take_of_open hqueue (by omega) (by omega) none
      have hserve : (g.serve (.takeSlot c none)).heap =
          { g.heap with regions := g.heap.regions.set c.index r.carve } := by
        simp only [serve, takeSlot, Heap.take, hr, htake]
      refine ih (g := g.serve (.takeSlot c none)) (r := r.carve) ?_ hqueue hroom hopen
      rw [hserve, Heap.region?_set hr, if_pos rfl]

theorem Run.eq_serves {g g' : Guard} {es : List Event} (run : g.Run es g') :
    g' = g.serves (es.map .operation) := by
  induction run with
  | done => rfl
  | step _ _ _ ih => exact ih

/-- In a region of which `opened` was opened and `lost` was lost, the pages from `openFrom` to `openTo`
were opened, by calls for reserved bytes of its window, and the carved slots lie in them. -/
structure Covers (g₀ : Guard) (i : Nat) (r : Region) (opened : List (Nat × Nat)) (lost : List Nat) :
    Prop where
  course : ∃ r₀, g₀.heap.region? i = some r₀ ∧ r₀.Course opened lost r
  pages : r.Opened opened
  reserved : ∀ range ∈ opened, g₀.heap.range.canOpen range.1 range.2 = true
  first_lt : r.first < r.finish
  next_le : r.next ≤ r.finish
  openTo_le : r.openTo ≤ r.windowEnd
  opens {base : Nat} : r.Carves base → base ∉ lost → r.Opens base
  next_opened : lost = [] → r.first < r.next → r.next ≤ r.openTo

theorem covers_of_course {config : Config} {raw : Nat} {heap : Heap} {g₀ : Guard}
    (hcreated : heap.Created config raw) (hheap : g₀.heap = heap) {i : Nat} {r₀ r : Region}
    {opened : List (Nat × Nat)} {lost : List Nat} (hr₀ : heap.region? i = some r₀)
    (course : r₀.Course opened lost r) : g₀.Covers i r opened lost := by
  subst hheap
  have f := hcreated.framed
  have hext := course.extends_
  have s₀ := (f.sound hr₀).toLaid
  have s := course.laid s₀
  obtain ⟨size, skip, _, hskip, hnew⟩ := hcreated.region hr₀
  have hpages : pageSize ∣ 2 ^ g₀.heap.shift :=
    Nat.pow_dvd_pow 2 (Nat.le_trans (by decide : 12 ≤ 20) f.shift_ge)
  have o₀ : r₀.Opened [] :=
    hnew ▸ Region.opened_create (Nat.dvd_trans hpages f.aligned) hpages
  have o : r.Opened opened := course.opened_after s₀ o₀
  -- a new region has carved no slot
  have hnone (base : Nat) (hc : r₀.Carves base) : r₀.Opens base ∨ base ∈ ([] : List Nat) := by
    rw [hnew] at hc
    exact absurd hc.2.2 (Nat.not_lt.mpr hc.2.1)
  have hopens {base : Nat} (hc : r.Carves base) (hlost : base ∉ lost) : r.Opens base :=
    (course.opens_or_lost s₀ hnone hc).resolve_right hlost
  constructor
  case course => exact ⟨r₀, hr₀, course⟩
  case pages => exact o
  case reserved =>
    intro range hrange
    obtain ⟨hlow, hhigh⟩ := o.inside range hrange
    refine f.canOpen_of_within hr₀ ?_ (hext.windowEnd_eq ▸ hhigh)
    exact hext.start_eq ▸ Nat.le_trans o.start_le hlow
  case first_lt =>
    have hpos := s₀.size_pos
    have hroomy := s₀.roomy
    rw [hext.first_eq, hext.finish_eq, hnew]
    rw [hnew] at hpos hroomy
    exact Region.first_lt_finish_create hskip hpos hroomy
  case next_le => exact s.next_le
  case openTo_le => exact s.openTo_le
  case opens => exact hopens
  case next_opened =>
    intro hempty hcarved
    have hfits := s.first_tiles.add_size_le s.next_tiles hcarved
    have hlast := hopens (s.carves_last hcarved) (hempty ▸ List.not_mem_nil)
    rw [← Nat.sub_add_cancel (Nat.le_trans (Nat.le_add_left ..) hfits)]
    exact hlast.2

/-- Whatever is called, in every region the pages from `openFrom` to `openTo` are just those that
were opened. They never become fewer, and all slots that were carved lie in them, but those lost to a
call for memory that the system refused. So the headers of the other ones can be read where slots have
room for them, and a header can be read iff all its bytes were opened; to ask for one whose end is no
word stops the program. The slots that operations handed out all have room, and their headers can be
read. -/
theorem opened_covers_slots {config : Config} (valid : config.isValid = true) (registry : Registry)
    (raw : Nat) (skips : Nat → Nat) :
    (raw + config.regionSize < Word.limit → ∃ g₀, create config registry raw skips = .ok g₀) ∧
    ∀ g₀, create config registry raw skips = .ok g₀ →
      (∀ calls i r, (g₀.serves calls).heap.region? i = some r →
        ∃ opened lost, g₀.Covers i r opened lost ∧
          ((∀ call ∈ calls, call.Granted) → lost = []) ∧
          (∀ base, ((g₀.serves calls).header? i base).isSome = true ↔
            ∀ a, base ≤ a → a < base + headerSize → ∃ range ∈ opened, Touches range a) ∧
          (∀ base, r.accessible base =
            if base < r.openFrom ∨ base + headerSize < Word.limit then
              .ok ((g₀.serves calls).header? i base).isSome
            else .error .addition) ∧
          (headerSize ≤ r.size → ∀ base, r.Carves base → base ∉ lost →
            ((g₀.serves calls).header? i base).isSome = true) ∧
          ∀ later r', (g₀.serves (calls ++ later)).heap.region? i = some r' →
            r.openTo ≤ r'.openTo) ∧
      ∀ es g, g₀.Run es g → ∀ i r base, g.heap.region? i = some r → r.Carves base →
        (∀ e ∈ es, e.refusal = none) ∨ g.heap.headerAt base ≠ .blank →
          (g.header? i base).isSome = true := by
  refine ⟨fun hraw => exists_create valid registry hraw skips, fun g₀ hcreate => ?_⟩
  have k₀ := (create_kept hcreate).1
  obtain ⟨heap, hcreated, hg₀⟩ := create_eq_ok hcreate
  have hheap : g₀.heap = heap := congrArg Guard.heap hg₀
  have hcovered (calls : List Call) (i : Nat) (r : Region)
      (hr : (g₀.serves calls).heap.region? i = some r) :
      ∃ opened lost, g₀.Covers i r opened lost ∧ ((∀ call ∈ calls, call.Granted) → lost = []) := by
    obtain ⟨r₀, opened, lost, hr₀, course, hnone⟩ := (courses_serves g₀ calls).course hr
    exact ⟨opened, lost, covers_of_course hcreated hheap (hheap ▸ hr₀) course, hnone⟩
  refine ⟨fun calls i r hr => ?_, fun es g run i r base hr hc h => ?_⟩
  · obtain ⟨opened, lost, covers, hnone⟩ := hcovered calls i r hr
    refine ⟨opened, lost, covers, hnone, fun base => ?_, fun base => ?_,
      fun hsize base hc hlost => ?_, fun later r' hr' => ?_⟩
    · rw [isSome_header? _ hr]
      exact covers.pages.readable_iff base
    · rw [isSome_header? _ hr]
      exact r.accessible_eq base
    · rw [isSome_header? _ hr]
      exact (covers.opens hc hlost).readable hsize
    · obtain ⟨r₀, hr₀, course⟩ := covers.course
      have s := course.laid (k₀.framed.sound hr₀).toLaid
      rw [serves, List.foldl_append] at hr'
      obtain ⟨p, _, _, hp, course', _⟩ := (courses_serves (g₀.serves calls) later).course hr'
      obtain rfl := Option.some.inj (hr.symm.trans hp)
      exact course'.openTo_le s
  · have k := run.kept k₀
    rw [isSome_header? g hr]
    -- where all memory is granted no slot is lost, and what was claimed was not lost
    have hopens : r.Opens base := by
      rcases h with hgranted | hclaimed
      · rw [run.eq_serves] at hr
        obtain ⟨_, lost, covers, hnone⟩ := hcovered _ i r hr
        refine covers.opens hc ?_
        rw [hnone (List.forall_mem_map.mpr hgranted)]
        exact List.not_mem_nil
      · exact (k.held_cases hr hc hclaimed).1
    exact hopens.readable ((k.framed.sound hr).carved_headed hc)

/-- The header of the first slot of 48 bytes can be read once the slot is taken, that of a slot behind
the first chunk cannot. -/
theorem smallest_opened_covers_slots :
    Config.isValid ⟨false, false, false, false, 20, false⟩ = true ∧
      ((smallest.serves [.takeSlot ⟨2, 48⟩ none]).header? 2 0x300000).isSome = true ∧
      ((smallest.serves [.takeSlot ⟨2, 48⟩ none]).header? 2 0x310000).isSome = false := by
  have valid : Config.isValid ⟨false, false, false, false, 20, false⟩ = true := by decide
  have hcreate : create ⟨false, false, false, false, 20, false⟩ (.builtins .spread) 0x100000
      (fun _ => 0) = .ok smallest := rfl
  obtain ⟨hcalls, _⟩ :=
    (opened_covers_slots valid (.builtins .spread) 0x100000 fun _ => 0).2 smallest hcreate
  have hopen : ((smallest.serves [.takeSlot ⟨2, 48⟩ none]).heap.region? 2).any (fun r =>
      r.size = 48 ∧ r.start = 0x300000 ∧ r.first = 0x300000 ∧ r.next = 0x300030 ∧
        r.openTo = 0x310000) = true := by decide +kernel
  cases hr : (smallest.serves [.takeSlot ⟨2, 48⟩ none]).heap.region? 2 with
  | none => simp [hr] at hopen
  | some r =>
      simp only [hr, Option.any_some, decide_eq_true_eq] at hopen
      obtain ⟨hsize, hstart, hfirst, hnext, hend⟩ := hopen
      obtain ⟨opened, lost, covers, hnone, hheaders, _, hcarved, _⟩ := hcalls _ 2 r hr
      obtain rfl := hnone fun call hcall => List.mem_singleton.mp hcall ▸ rfl
      have hcarves : r.Carves 0x300000 :=
        ⟨⟨by omega, by rw [hstart, hsize]; decide⟩, by omega, by omega⟩
      refine ⟨valid, hcarved (by rw [hsize]; decide) _ hcarves List.not_mem_nil, ?_⟩
      rw [Bool.eq_false_iff, ne_eq, hheaders]
      intro hbytes
      have hbyte := (covers.pages.covers 0x310000).mp (hbytes _ (Nat.le_refl _) (by decide))
      omega

/-- The last slot of 32 bytes in the first chunk is handed out although the end of its header, for which
the slot has no room, is closed. -/
theorem short_slot_header_closed :
    ∃ r, (smallest.serves (.replicate 2048 (.takeSlot ⟨1, 32⟩ none))).heap.region? 1 = some r ∧
      r.Carves 0x20FFE0 ∧
      ((smallest.serves (.replicate 2048 (.takeSlot ⟨1, 32⟩ none))).header? 1 0x20FFE0).isSome =
        false := by
  have hfirst : ((smallest.serve (.takeSlot ⟨1, 32⟩ none)).heap.region? 1).any (fun r =>
      r.free.pop?.isNone ∧ r.size = 32 ∧ r.start = 0x200000 ∧ r.first = 0x200000 ∧
        r.next = 0x200020 ∧ r.finish = 0x300000 ∧ r.openFrom = 0x200000 ∧ r.openTo = 0x210000) =
      true := by decide +kernel
  cases hr : (smallest.serve (.takeSlot ⟨1, 32⟩ none)).heap.region? 1 with
  | none => simp [hr] at hfirst
  | some r =>
      simp only [hr, Option.any_some, decide_eq_true_eq, Option.isNone_iff_eq_none] at hfirst
      obtain ⟨hqueue, hsize, hstart, hfirst, hnext, hfinish, hfrom, hto⟩ := hfirst
      have hlast := region?_serves_takeSlot (c := ⟨1, 32⟩) (n := 2047) hr hqueue (by omega) (by omega)
      rw [List.replicate_succ (n := 2047), serves_cons]
      refine ⟨_, hlast, ⟨⟨?_, ?_⟩, ?_, ?_⟩, ?_⟩
      · simp only [hstart]
        decide
      · simp only [hstart, hsize]
        decide
      · simp only [hfirst]
        decide
      · simp only [hnext, hsize]
        decide
      · rw [isSome_header? _ hlast, Region.readable, hfrom, hto]
        decide

end Guard

end TypedHeap
