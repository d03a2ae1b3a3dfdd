import TypedHeap.Proofs.Runs

/-! # Courses of regions

Regions change in two ways only: a slot is taken or an address is put back. Whatever a guard is
asked, and whatever slots are taken and put back beside its operations, each region goes through such
a course. Taking a slot may open memory, so a course comes with the ranges that were opened on it, and
with the slots that were lost because memory could not be opened for them. Nothing is assumed of the
operations: a course may put back addresses that are no slots.
-/

namespace TypedHeap

namespace Region

/-- The bytes that are opened, as start and length, when a slot is handed out: none if one waited. -/
def opens? (r : Region) : Option (Nat × Nat) :=
  if r.free.pop?.isSome then none else r.opening? (r.next + r.size)

/-- Slots were taken from `r` and addresses put back until it was `r'`. On the way `opened` was opened,
and the slots at `lost` were. -/
inductive Course : Region → List (Nat × Nat) → List Nat → Region → Prop where
  | done (r : Region) : Course r [] [] r
  | took {r r' r'' : Region} {refusal : Option String} {base : Nat} {opened : List (Nat × Nat)}
      {lost : List Nat} (taken : r.take refusal = (.slot base, r')) (rest : Course r' opened lost r'') :
      Course r (r.opens?.toList ++ opened) lost r''
  | refused {r r' r'' : Region} {reason : String} {upto : Nat} {opened : List (Nat × Nat)}
      {lost : List Nat} (taken : r.take (some reason) = (.refused upto reason, r'))
      (rest : Course r' opened lost r'') : Course r opened (r.next :: lost) r''
  | putBack {r r' : Region} {opened : List (Nat × Nat)} {lost : List Nat} (base : Nat)
      (rest : Course (r.putBack base) opened lost r') : Course r opened lost r'

namespace Course

variable {r r' : Region} {opened : List (Nat × Nat)} {lost : List Nat}

theorem append {r'' : Region} {opened' : List (Nat × Nat)} {lost' : List Nat}
    (c : r.Course opened lost r') (c' : r'.Course opened' lost' r'') :
    r.Course (opened ++ opened') (lost ++ lost') r'' := by
  induction c with
  | done => exact c'
  | took taken _ ih =>
      rw [List.append_assoc]
      exact .took taken (ih c')
  | refused taken _ ih => exact .refused taken (ih c')
  | putBack base _ ih => exact .putBack base (ih c')

theorem extends_ (c : r.Course opened lost r') : r.Extends r' := by
  induction c with
  | done r => exact .refl r
  | took taken _ ih => exact (extends_of_take taken).trans ih
  | refused taken _ ih => exact (extends_of_take taken).trans ih
  | putBack base _ ih => exact (extends_putBack _ base).trans ih

theorem laid {heapStart shift : Nat} (c : r.Course opened lost r') (s : r.Laid heapStart shift) :
    r'.Laid heapStart shift := by
  induction c with
  | done => exact s
  | took taken _ ih => exact ih (s.take taken)
  | refused taken _ ih => exact ih (s.take taken)
  | putBack base _ ih => exact ih (s.putBack base)

end Course

end Region

namespace Heap

/-- Every region of `h'` comes from that of `h` by a course, on which no slot is lost if memory was
`granted`. -/
structure Courses (granted : Prop) (h h' : Heap) : Prop where
  course {i : Nat} {r' : Region} : h'.region? i = some r' →
    ∃ r opened lost, h.region? i = some r ∧ r.Course opened lost r' ∧ (granted → lost = [])

variable {granted : Prop} {h h' : Heap}

theorem courses_of_regions_eq (heq : h'.regions = h.regions) : Courses granted h h' := by
  refine ⟨fun {i r} hr => ?_⟩
  rw [region?, heq] at hr
  exact ⟨r, [], [], hr, .done r, fun _ => rfl⟩

theorem Courses.trans {granted' : Prop} {h'' : Heap} (hc : Courses granted h h')
    (hc' : Courses granted' h' h'') : Courses (granted ∧ granted') h h'' := by
  refine ⟨fun hr'' => ?_⟩
  obtain ⟨r', opened', lost', hr', course', hnone'⟩ := hc'.course hr''
  obtain ⟨r, opened, lost, hr, course, hnone⟩ := hc.course hr'
  refine ⟨r, opened ++ opened', lost ++ lost', hr, course.append course', fun hgranted => ?_⟩
  rw [hnone hgranted.1, hnone' hgranted.2, List.append_nil]

theorem Courses.imp {granted' : Prop} (hc : Courses granted h h') (himp : granted' → granted) :
    Courses granted' h h' := by
  refine ⟨fun hr' => ?_⟩
  obtain ⟨r, opened, lost, hr, course, hnone⟩ := hc.course hr'
  exact ⟨r, opened, lost, hr, course, fun hgranted => hnone (himp hgranted)⟩

theorem Courses.before {h'' : Heap} (hc : Courses granted h h') (hc' : Courses True h' h'') :
    Courses granted h h'' := (hc.trans hc').imp fun hgranted => ⟨hgranted, trivial⟩

theorem Courses.after_regions_eq {h₁ : Heap} (hc : Courses granted h₁ h')
    (heq : h₁.regions = h.regions) : Courses granted h h' := by
  have hfirst : Courses granted h h₁ := courses_of_regions_eq heq
  exact (hfirst.trans hc).imp fun hgranted => ⟨hgranted, hgranted⟩

theorem courses_take {i : Nat} {refusal : Option String} {taken : Region.Taken}
    (ht : h.take i refusal = (taken, h')) : Courses (refusal = none) h h' := by
  rcases take_cases ht with ⟨_, _, rfl⟩ | ⟨r, r', hr, htake, rfl⟩
  · exact courses_of_regions_eq rfl
  · have hcourse : ∃ opened lost, r.Course opened lost r' ∧ (refusal = none → lost = []) := by
      cases taken with
      | slot base => exact ⟨_, [], .took htake (.done r'), fun _ => rfl⟩
      | exhausted =>
          obtain ⟨_, _, rfl⟩ := Region.take_exhausted htake
          exact ⟨[], [], .done r', fun _ => rfl⟩
      | refused upto reason =>
          obtain ⟨rfl, _⟩ := Region.take_refused htake
          exact ⟨[], [r.next], .refused htake (.done r'), nofun⟩
    refine ⟨fun {j q} hq => ?_⟩
    rw [region?_set hr] at hq
    split at hq
    · next heq =>
      subst heq
      obtain rfl := Option.some.inj hq
      obtain ⟨opened, lost, course, hnone⟩ := hcourse
      exact ⟨r, opened, lost, hr, course, hnone⟩
    · exact ⟨q, [], [], hq, .done q, fun _ => rfl⟩

theorem courses_putBack (h : Heap) (i base : Nat) : Courses granted h (h.putBack i base) := by
  refine ⟨fun {j q} hq => ?_⟩
  rw [region?_putBack] at hq
  split at hq
  · obtain ⟨r, hr, rfl⟩ := Option.map_eq_some_iff.mp hq
    exact ⟨r, [], [], hr, .putBack base (.done _), fun _ => rfl⟩
  · exact ⟨q, [], [], hq, .done q, fun _ => rfl⟩

theorem regions_absorb (h : Heap) (m : Memory) (start length : Nat) :
    (h.absorb m start length).regions = h.regions := by
  unfold absorb
  generalize h.headersAmong start length = bases
  induction bases generalizing h with
  | nil => rfl
  | cons base bases ih => exact ih _

theorem regions_keepTag (h : Heap) (base granule : Nat) (tag : Cache.Tag) :
    (h.keepTag base granule tag).regions = h.regions :=
  (keepTag_fields h base granule tag).2.2.2

end Heap

namespace Guard

/-! ## Parts of operations that leave the regions alone -/

section Regions

variable (g : Guard)

theorem regions_trace (line : Line) : (g.trace line).heap.regions = g.heap.regions := by
  unfold trace
  split
  · exact congrArg Heap.regions (g.sameParts_write line).heap_eq
  · rfl

theorem regions_halt (line : Line) : (g.halt line).heap.regions = g.heap.regions :=
  congrArg Heap.regions (g.sameParts_halt line).heap_eq

theorem regions_changeBytes (start length : Nat) (change : Memory → Memory) :
    (g.changeBytes start length change).heap.regions = g.heap.regions := Heap.regions_absorb ..

theorem regions_copyBytes (target source length : Nat) :
    (g.copyBytes target source length).heap.regions = g.heap.regions := regions_changeBytes ..

theorem regions_clear (start length : Nat) (wanted : Bool) :
    (g.clear start length wanted).heap.regions = g.heap.regions := by
  unfold clear
  split
  · exact g.regions_changeBytes ..
  · rfl

theorem regions_putHeader (base : Nat) (header : Header) :
    (g.putHeader base header).heap.regions = g.heap.regions := by
  unfold putHeader writeHeader
  split
  · rfl
  · exact regions_changeBytes ..

theorem regions_settle (v : Verdict) : (g.settle v).heap.regions = g.heap.regions := by
  rw [(g.sameParts_settle v).heap_eq]
  unfold afterTag
  split
  · rfl
  · exact Heap.regions_keepTag ..

theorem regions_checkPointer (p : Pointer) (expected : TypeHash) :
    (g.checkPointer p expected).2.heap.regions = g.heap.regions := by
  unfold checkPointer
  simp only [regions_settle, (g.silent_checked p expected).heap_eq]

theorem regions_fill (target : Nat) (value : UInt8) (length : Nat) :
    (g.fill target value length).heap.regions = g.heap.regions := by
  have hmeasured := congrArg Heap.regions (g.sameParts_allowance target length).heap_eq
  unfold fill
  simp only
  split
  · exact hmeasured
  · exact (regions_changeBytes ..).trans hmeasured

theorem regions_copy (target source length : Nat) :
    (g.copy target source length).heap.regions = g.heap.regions := by
  have hmeasured := congrArg Heap.regions (g.sameParts_copyAllowance target source length).heap_eq
  rw [copy_measured]
  split
  · exact hmeasured
  · exact (regions_changeBytes ..).trans hmeasured

end Regions

/-! ## Operations -/

section Operations

open Heap (Courses)

variable {granted : Prop} (g : Guard)

theorem courses_takeSlot (c : SizeClass) (refusal : Option String) :
    Courses (refusal = none) g.heap (g.takeSlot c refusal).2.heap := by
  unfold takeSlot
  cases htake : g.heap.take c.index refusal with
  | mk taken heap =>
      have hcourses := Heap.courses_take htake
      have hwrite (line : Line) : ({ g with heap }.write line).heap = heap :=
        (sameParts_write { g with heap } line).heap_eq
      cases taken with
      | slot base => exact hcourses
      | exhausted => exact (hwrite _).symm ▸ hcourses
      | refused upto reason => exact (hwrite _).symm ▸ hcourses

theorem courses_putSlot (region base : Nat) :
    Courses granted g.heap (g.putSlot region base).heap := by
  unfold putSlot
  cases g.heap.reclaimed? region base with
  | none => exact Heap.courses_putBack ..
  | some pages =>
      exact (Heap.courses_putBack ..).after_regions_eq (regions_changeBytes ..)

theorem courses_allocateSlot (c : SizeClass) (owner : TypeRecord) (size : Nat) (zeroed : Bool)
    (refusal : Option String) :
    Courses (refusal = none) g.heap (g.allocateSlot c owner size zeroed refusal).2.heap := by
  have htake := g.courses_takeSlot c refusal
  unfold allocateSlot
  generalize g.takeSlot c refusal = taken at htake
  obtain ⟨_ | base, g₁⟩ := taken
  · exact htake
  · simp only
    cases g₁.header? c.index base with
    | none => exact htake
    | some header =>
        simp only
        cases header.nextEpoch with
        | error f =>
            refine htake.before (Heap.courses_of_regions_eq ?_)
            exact (regions_halt ..).trans (regions_clear ..)
        | ok epoch =>
            refine htake.before (Heap.courses_of_regions_eq ?_)
            simp only [regions_trace, regions_putHeader, regions_clear]

theorem courses_allocateLarge (size : Nat) (zeroed : Bool) (block : Option Nat) :
    Courses granted g.heap (g.allocateLarge size zeroed block).2.heap := by
  apply Heap.courses_of_regions_eq
  unfold allocateLarge
  cases g.large.allocate? block size with
  | none => rfl
  | some block => exact regions_clear ..

theorem courses_allocateObject (size : Nat) (type : TypeHash) (zeroed : Bool) (grant : Grant) :
    Courses (grant.refusal = none) g.heap (g.allocateObject size type zeroed grant).2.heap := by
  unfold allocateObject
  cases g.registry.objectType? type with
  | none => exact Heap.courses_of_regions_eq rfl
  | some owner =>
      simp only
      rw [← (g.silent_bump .allocations).heap_eq]
      cases (g.bump .allocations).heap.classFor? size with
      | none => exact courses_allocateLarge ..
      | some c => exact courses_allocateSlot ..

theorem courses_allocateZeroed (count size : Nat) (type : TypeHash) (grant : Grant) :
    Courses (grant.refusal = none) g.heap (g.allocateZeroed count size type grant).2.heap := by
  unfold allocateZeroed
  split
  · exact Heap.courses_of_regions_eq rfl
  · exact g.courses_allocateObject ..

theorem courses_free (address : Nat) : Courses granted g.heap (g.free address).heap := by
  unfold free
  split
  · exact Heap.courses_of_regions_eq rfl
  · simp only
    rw [← (g.silent_bump .frees).heap_eq]
    generalize g.bump .frees = g
    cases g.heap.resolve? address with
    | none => exact Heap.courses_of_regions_eq (congrArg _ (g.sameHeap_freeLarge address).heap_eq)
    | some slot =>
        simp only
        cases g.heap.releaseOf g.config.singleThreaded slot address with
        | refused v => exact Heap.courses_of_regions_eq (congrArg _ (g.sameParts_report v).heap_eq)
        | released header =>
            simp only
            rw [(silent_trace _ rfl).heap_eq]
            exact (courses_putSlot ..).after_regions_eq rfl

theorem courses_resizeSlot (slot : Slot) (header : Header) (size : Nat) :
    Courses granted g.heap (g.resizeSlot slot header size).2.heap := by
  apply Heap.courses_of_regions_eq
  unfold resizeSlot
  simp only
  cases header.nextEpoch with
  | error f => exact regions_halt ..
  | ok epoch => exact regions_trace ..

theorem courses_refuse (address : Nat) (reason : String) :
    Courses granted g.heap (g.refuse address reason).2.heap :=
  Heap.courses_of_regions_eq (congrArg _ (g.sameHeap_refuse address reason).heap_eq)

theorem courses_reallocateLarge (address size : Nat) (block : Option Nat) :
    Courses granted g.heap (g.reallocateLarge address size block).2.heap := by
  unfold reallocateLarge
  cases g.large.reallocate block address size with
  | notOurs => exact g.courses_refuse ..
  | failed => exact Heap.courses_of_regions_eq rfl
  | moved target oldSize large =>
      exact Heap.courses_of_regions_eq (regions_copyBytes { g with large } ..)

theorem courses_relocate (address oldSize : Nat) (owner : TypeRecord) (size : Nat) (grant : Grant) :
    Courses (grant.refusal = none) g.heap (g.relocate address oldSize owner size grant).2.heap := by
  have hfresh := g.courses_allocateObject size owner.hash false grant
  unfold relocate allocate
  generalize g.allocateObject size owner.hash false grant = answered at hfresh
  obtain ⟨_ | fresh, g₁⟩ := answered
  · exact hfresh
  · have hcopied := g₁.regions_copyBytes fresh.lower address (min oldSize size)
    exact hfresh.before ((courses_free ..).after_regions_eq hcopied)

theorem courses_reallocate (address size : Nat) (grant : Grant) :
    Courses (grant.refusal = none) g.heap (g.reallocate address size grant).2.heap := by
  unfold reallocate
  split
  · exact g.courses_allocateObject ..
  · cases g.heap.resolve? address with
    | none => exact g.courses_reallocateLarge ..
    | some slot =>
        simp only
        cases g.owned? slot with
        | none => exact g.courses_refuse ..
        | some found =>
            obtain ⟨header, owner⟩ := found
            simp only
            split
            · exact g.courses_refuse ..
            · split
              · exact g.courses_resizeSlot ..
              · exact g.courses_relocate ..

/-- Whatever a guard is asked, its regions go through courses. -/
theorem courses_perform (e : Event) : Courses (e.refusal = none) g.heap (g.perform e).heap := by
  cases e with
  | allocate size type grant => exact g.courses_allocateObject ..
  | allocateZeroed count size type grant => exact g.courses_allocateZeroed ..
  | reallocate address size grant => exact g.courses_reallocate ..
  | free address => exact g.courses_free ..
  | check p expected => exact Heap.courses_of_regions_eq (g.regions_checkPointer ..)
  | checkBounds allowed address lb ub =>
      exact Heap.courses_of_regions_eq
        (congrArg _ (g.sameParts_checkBounds allowed address lb ub).heap_eq)
  | fill target value length => exact Heap.courses_of_regions_eq (g.regions_fill ..)
  | copy target source length => exact Heap.courses_of_regions_eq (g.regions_copy ..)

end Operations

/-! ## Calls -/

/-- A call is an operation or, beside the operations, one that takes a slot of a class or puts an
address back into a region. -/
inductive Call where
  | operation (e : Event)
  | takeSlot (c : SizeClass) (refusal : Option String)
  | putSlot (region base : Nat)

def Call.Granted : Call → Prop
  | operation e => e.refusal = none
  | takeSlot _ refusal => refusal = none
  | putSlot .. => True

def serve (g : Guard) : Call → Guard
  | .operation e => g.perform e
  | .takeSlot c refusal => (g.takeSlot c refusal).2
  | .putSlot region base => g.putSlot region base

def serves (g : Guard) (calls : List Call) : Guard := calls.foldl serve g

theorem serves_cons (g : Guard) (call : Call) (calls : List Call) :
    g.serves (call :: calls) = (g.serve call).serves calls := rfl

theorem courses_serve (g : Guard) (call : Call) :
    Heap.Courses call.Granted g.heap (g.serve call).heap := by
  cases call with
  | operation e => exact g.courses_perform e
  | takeSlot c refusal => exact g.courses_takeSlot c refusal
  | putSlot region base => exact g.courses_putSlot region base

theorem courses_serves (g : Guard) (calls : List Call) :
    Heap.Courses (∀ call ∈ calls, call.Granted) g.heap (g.serves calls).heap := by
  induction calls generalizing g with
  | nil => exact Heap.courses_of_regions_eq rfl
  | cons call calls ih =>
      exact ((g.courses_serve call).trans (ih (g.serve call))).imp List.forall_mem_cons.mp

end Guard

end TypedHeap
