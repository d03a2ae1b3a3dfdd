import TypedHeap.Proofs.Copying
import TypedHeap.Proofs.Requests
import TypedHeap.Proofs.Resizing
import TypedHeap.Proofs.Staleness

/-! # The integrity of headers

As long as nothing else writes headers, each one tells the truth about its slot, whatever pointers
the operations of a run were given. So the branches for headers that are corrupted, and for free
memory in use, are taken in no run.
-/

namespace TypedHeap

/-- The header of the slot `s` says what it should if the slot has had `n` epochs so far. -/
structure Header.Faithful (registry : Registry) (s : Slot) (n : Nat) (header : Header) : Prop where
  stamp_eq : header.stamp = validStamp
  phase_eq : header.phase = some .allocated ∨ header.phase = some .freed
  owned : header.phase = some .allocated → ∃ owner ∈ registry.records,
    registry.referred? header.owner = some owner ∧ owner.hash ≠ .free
  fits : header.phase = some .allocated → header.size + headerSize ≤ s.size
  epoch_eq : header.epoch = n
  epoch_pos : header.phase = some .allocated → 1 ≤ header.epoch
  retired : header.phase = some .freed → registry.referred? header.owner = some .freeMemory

namespace Guard

variable {g g' g₀ : Guard}

/-! ## Headers -/

theorem create_headerAt {config : Config} {registry : Registry} {raw : Nat} {skips : Nat → Nat}
    (created : create config registry raw skips = .ok g) (a : Nat) :
    g.heap.headerAt a = .blank := by
  obtain ⟨heap, hheap, rfl⟩ := create_eq_ok created
  simp [Heap.headerAt, hheap.headers_eq]

/-- After a run from headers that are blank, those of the slots that are not lost say what they
should. -/
theorem Run.faithful {es : List Event} (run : g₀.Run es g) (k : g₀.heap.Kept g₀.registry)
    (blank : ∀ a, g₀.heap.headerAt a = .blank) {s : Slot} (hc : g.heap.Carved s)
    (hne : g.heap.headerAt s.base ≠ .blank) :
    (g.heap.headerAt s.base).Faithful g.registry s (g₀.renewals s es) := by
  have k' := run.kept k
  have hsole := k'.framed.sole hc
  have hepoch : (g.heap.headerAt s.base).epoch = g₀.renewals s es := by
    rw [run.epoch_eq k hsole, blank]
    exact Nat.zero_add _
  obtain ⟨r, hs, hcarves⟩ := hc
  obtain ⟨-, ⟨_, hu⟩ | ⟨_, hf⟩⟩ := k'.held_cases hs.region_eq hcarves hne
  · have hphase := Header.phase_of_isLive hu.live
    obtain ⟨owner, hreferred, hhash⟩ := hu.referred
    -- a header that was blank is live only if its slot was renewed since
    have hrenewed : 0 < g₀.renewals s es := by
      rcases Nat.eq_zero_or_pos (g₀.renewals s es) with hzero | hpos
      · have hidle : (g₀.heap.headerAt s.base).isLive = false := by rw [blank]; rfl
        exact nomatch hu.live.symm.trans (run.idle k hsole hidle hzero)
      · exact hpos
    exact {
      stamp_eq := of_decide_eq_true (Header.sane_of_isLive hu.live)
      phase_eq := .inl hphase
      owned := fun _ => ⟨owner, Registry.mem_of_referred? hreferred hhash, hreferred, hhash⟩
      fits := fun _ => hs.size_eq ▸ hu.size_le
      epoch_eq := hepoch
      epoch_pos := fun _ => hepoch.symm ▸ hrenewed
      retired := fun hfreed => nomatch hphase.symm.trans hfreed }
  · have hphase := hf.phase_eq
    exact {
      stamp_eq := hf.stamp_eq
      phase_eq := .inr hphase
      owned := fun hlive => nomatch hphase.symm.trans hlive
      fits := fun hlive => nomatch hphase.symm.trans hlive
      epoch_eq := hepoch
      epoch_pos := fun hlive => nomatch hphase.symm.trans hlive
      retired := fun _ => by
        rw [hf.owner_eq]
        exact g.registry.referred?_reference .free }

theorem epochAt_eq_zero_iff {a : Nat}
    (hpos : ∀ s header, g.heap.resolve? a = some s → g.heap.live? s = some header →
      1 ≤ header.epoch) : Interface.epochAt g a = 0 ↔ g.capture a = .untracked a := by
  unfold Interface.epochAt
  cases hres : g.heap.resolve? a with
  | none => simp [capture, hres, Pointer.untracked]
  | some s =>
      cases hl : g.heap.live? s with
      | none => simp [capture_of_not_live hres hl, Pointer.untracked]
      | some header =>
          have hne : header.epoch ≠ 0 := Nat.ne_of_gt (hpos s header hres hl)
          simp [capture_of_live hres hl, Pointer.untracked, hne]

/-! ## What is reported -/

/-- Each fault was counted once for each violation of its kind among the lines. -/
def Tallied (g : Guard) : Prop :=
  ∀ f : Fault, g.tally.get f.counter = g.violations.countP (·.fault = f)

theorem Tallied.note (ht : g.Tallied) (n : Note) : (g.note n).Tallied := by
  intro f
  by_cases hviolation : ∃ v, n = .violation v
  · obtain ⟨v, rfl⟩ := hviolation
    cases hg : g.halted with
    | true =>
        rw [note_of_halted hg]
        exact ht f
    | false =>
        simp only [Guard.note]
        rw [get_counter_report hg, violations_report hg, ht f, List.countP_append]
        simp [List.countP_cons]
  · obtain ⟨hviolations, htally⟩ := quiet_note (fun v hv => hviolation ⟨v, hv⟩) g
    rw [hviolations, htally, ht f]

theorem Tallied.perform (ht : g.Tallied) (e : Event) : (g.perform e).Tallied := by
  rw [← reply_event]
  exact reply_preserves (fun ht _ => ht) Tallied.note ht (.event e)

def Trusts (g g' : Guard) : Prop := ∀ v ∈ g'.violations, v.fault = .sanity → v ∈ g.violations

theorem trusts_of_violations_eq (h : g'.violations = g.violations) : g.Trusts g' :=
  fun _ hv _ => h ▸ hv

theorem Calm.trusts (hc : g.Calm g') : g.Trusts g' := trusts_of_violations_eq hc.violations_eq

theorem Trusts.trans {g'' : Guard} (h : g.Trusts g') (h' : g'.Trusts g'') : g.Trusts g'' :=
  fun v hv hf => h v (h' v hv hf) hf

theorem trusts_of_append {vs : List Violation} (h : g'.violations = g.violations ++ vs)
    (hvs : ∀ v ∈ vs, v.fault ≠ .sanity) : g.Trusts g' := by
  intro v hv hf
  rw [h, List.mem_append] at hv
  exact hv.resolve_right fun hin => hvs v hin hf

theorem trusts_report (g : Guard) {v : Violation} (hv : v.fault ≠ .sanity) :
    g.Trusts (g.report v) := by
  cases hg : g.halted with
  | true =>
      have hsame : g.report v = g := note_of_halted hg (.violation v)
      rw [hsame]
      exact fun _ hin _ => hin
  | false => exact trusts_of_append (violations_report hg v) (by simpa using hv)

theorem Reports.trusts {vs : List Violation} (hr : g.Reports g' vs)
    (hvs : ∀ v ∈ vs, v.fault ≠ .sanity) : g.Trusts g' := by
  refine trusts_of_append hr.violations_eq fun v hv => hvs v ?_
  split at hv
  · exact List.mem_of_mem_take hv
  · exact hv

theorem fault_of_shortfall {a n : Nat} {v : Violation} (hv : v ∈ g.shortfall a n) :
    v.fault ≠ .sanity := by
  unfold shortfall at hv
  split at hv
  · obtain rfl := List.mem_singleton.mp hv
    exact nofun
  · cases hv

theorem judge_ne_sanity (k : g.heap.Kept g.registry) {p : Pointer} {expected : TypeHash}
    {v : Violation} (hv : (g.judge p expected).violation = some v) : v.fault ≠ .sanity := by
  intro hsanity
  rcases judge_fault k hv with (hbounds | htype) | ⟨hstale, _⟩
  · exact nomatch hbounds.symm.trans hsanity
  · exact nomatch htype.symm.trans hsanity
  · exact nomatch hstale.symm.trans hsanity

theorem trusts_free (k : g.heap.Kept g.registry) (address : Nat) : g.Trusts (g.free address) := by
  have hb : g.Trusts (g.bump .frees) := (g.silent_bump .frees).calm.trusts
  have hreported {v : Violation} (hv : v.fault = .doubleFree ∨ v.fault = .badFree) :
      g.Trusts ((g.bump .frees).report v) := by
    refine hb.trans (trusts_report _ ?_)
    rcases hv with h | h
    · rw [h]
      decide
    · rw [h]
      decide
  by_cases hzero : address = 0
  · rw [free, if_pos hzero]
    exact trusts_of_violations_eq rfl
  · cases hres : g.heap.resolve? address with
    | none =>
        simp only [free, hzero, if_false, (g.silent_bump .frees).heap_eq, hres, freeLarge]
        split
        · exact hb
        · exact hreported (.inl rfl)
        · exact hreported (.inr rfl)
    | some s =>
        by_cases hh : g.Heads address s
        · exact (free_of_heads k hh).2.trusts
        · obtain ⟨v, hfree, hjudged⟩ := free_of_not_heads k hres hh hzero
          rw [hfree]
          rcases hjudged with ⟨_, rfl⟩ | ⟨_, reason, rfl⟩
          · exact hreported (.inl rfl)
          · exact hreported (.inr rfl)

theorem trusts_reallocate (k : g.heap.Kept g.registry) (address : Nat) {size : Nat} {grant : Grant}
    (hout : g.OffersOutside grant.block size) : g.Trusts (g.reallocate address size grant).2 := by
  rcases reallocate_cases k address size grant with
    ⟨_, heq⟩ | ⟨_, heq⟩ | ⟨s, header, owner, hh, howned, heq⟩ | ⟨reason, heq⟩
  all_goals rw [heq]
  · exact trusts_of_violations_eq (placed_allocate k .int8 hout).violations_eq
  · unfold reallocateLarge
    split
    · exact trusts_report _ nofun
    · exact trusts_of_violations_eq rfl
    · exact trusts_of_violations_eq rfl
  · obtain ⟨header', owner', howned', howner⟩ := hh.owned k
    obtain ⟨rfl, rfl⟩ := Prod.mk.inj (Option.some.inj (howned'.symm.trans howned))
    split
    · next hclass =>
      exact trusts_of_violations_eq (resized_resizeSlot k hh howned hclass grant.refusal).2
    · next hclass =>
      exact trusts_of_violations_eq (resized_relocate k hh howned howner hclass hout).2
  · exact trusts_report _ nofun

/-- No permitted operation finds a header corrupted. -/
theorem trusts_perform (k : g.heap.Kept g.registry) (hg : g.halted = false) {e : Event}
    (hp : e.Permitted g) : g.Trusts (g.perform e) := by
  cases e with
  | allocate size type grant =>
      exact trusts_of_violations_eq (placed_allocate k type hp).violations_eq
  | allocateZeroed count size type grant =>
      exact trusts_of_violations_eq (placed_allocateZeroed k type hp).violations_eq
  | reallocate address size grant => exact trusts_reallocate k address hp
  | free address => exact trusts_free k address
  | check p expected =>
      exact trusts_of_append (violations_checkPointer hg p expected) fun v hv =>
        judge_ne_sanity k (Option.mem_toList.mp hv)
  | checkBounds allowed address lb ub =>
      have hline : (Line.boundsChecked address lb ub allowed).violation? = none := rfl
      have hchecked := (g.silent_bump .boundsChecks).trans (silent_trace _ hline)
      unfold perform checkBounds
      simp only
      split
      · exact hchecked.calm.trusts
      · exact hchecked.calm.trusts.trans (trusts_report _ nofun)
  | fill target value length =>
      have hmeasured := (allowance_spec k.framed hg target length).2.trusts fun _ => fault_of_shortfall
      refine hmeasured.trans (trusts_of_violations_eq ?_)
      simp only [perform, fill]
      split <;> rfl
  | copy target source length =>
      have hmeasured := (copyAllowance_spec k.framed hg target source length).2.trusts fun v hv =>
        (List.mem_append.mp hv).elim fault_of_shortfall fault_of_shortfall
      refine hmeasured.trans (trusts_of_violations_eq ?_)
      simp only [perform, copy, copyAllowance]
      split <;> rfl

/-- No header was found corrupted so far. -/
structure Untroubled (g : Guard) : Prop where
  unreported (v : Violation) : v ∈ g.violations → v.fault ≠ .sanity
  uncounted : g.tally.sanityErrors = 0

theorem Tallied.untroubled (ht : g.Tallied) (hnone : ∀ v ∈ g.violations, v.fault ≠ .sanity) :
    g.Untroubled := by
  refine ⟨hnone, (ht .sanity).trans ?_⟩
  rw [List.countP_eq_zero]
  exact fun v hv => by simpa using hnone v hv

theorem untroubled_perform (k : g.heap.Kept g.registry) (hg : g.halted = false) (ht : g.Tallied)
    (hu : g.Untroubled) {e : Event} (hp : e.Permitted g) : (g.perform e).Untroubled :=
  (ht.perform e).untroubled fun v hv hf => hu.unreported v (trusts_perform k hg hp v hv hf) hf

theorem Run.untroubled {es : List Event} (run : g₀.Run es g) (k : g₀.heap.Kept g₀.registry)
    (hg : g₀.halted = false) (ht : g₀.Tallied) (hu : g₀.Untroubled) : g.Tallied ∧ g.Untroubled := by
  induction run with
  | done => exact ⟨ht, hu⟩
  | step permitted runs _ ih =>
      obtain ⟨_, he⟩ := effect_perform k permitted runs
      exact ih (he.kept k) runs (ht.perform _) (untroubled_perform k hg ht hu permitted)

theorem create_tallied {config : Config} {registry : Registry} {raw : Nat} {skips : Nat → Nat}
    (created : create config registry raw skips = .ok g) :
    g.Tallied ∧ g.Untroubled := by
  obtain ⟨_, _, rfl⟩ := create_eq_ok created
  refine ⟨fun f => ?_, ⟨nofun, rfl⟩⟩
  cases f <;> rfl

/-! ## Requests -/

/-- A request for a size that has a class is never refused for want of memory if that is opened: each
slot that the region hands out has a header that can be read. -/
theorem allocateObject_ne_outOfMemory (k : g.heap.Kept g.registry) {size : Nat} {c : SizeClass}
    (hclass : g.heap.classFor? size = some c) (type : TypeHash) (zeroed : Bool) {grant : Grant}
    (hopened : grant.refusal = none) (n : Nat) :
    (g.allocateObject size type zeroed grant).1 ≠ .error (.outOfMemory n) := by
  cases howner : g.registry.objectType? type with
  | none =>
      unfold allocateObject
      simp only [howner]
      exact nofun
  | some owner =>
      rcases answer_allocateObject k zeroed grant howner hclass with
        ⟨_, hanswer⟩ | ⟨_, ⟨_, hanswer⟩ | ⟨hrefused, _⟩ | ⟨_, _, _, _, _, hanswer⟩⟩
      · exact hanswer ▸ nofun
      · exact hanswer ▸ nofun
      · exact absurd hopened hrefused
      · exact hanswer ▸ nofun

theorem allocateZeroed_ne_outOfMemory (k : g.heap.Kept g.registry) {count size : Nat}
    {c : SizeClass} (hclass : g.heap.classFor? (count * size) = some c) (type : TypeHash)
    {grant : Grant} (hopened : grant.refusal = none) (n : Nat) :
    (g.allocateZeroed count size type grant).1 ≠ .error (.outOfMemory n) := by
  unfold allocateZeroed
  split
  · exact nofun
  · exact allocateObject_ne_outOfMemory k hclass type true hopened n

/-- In every state that a run leads to, the headers of the slots handed out are faithful, but for
those lost because no memory was opened, and epoch zero stands at an address for no allocation. So no
operation of a run reports a corrupted header, whatever pointers it is given; a check takes only
slots that were freed and pointers of other epochs for a use after free; and a request for an object
of a class never lacks memory that is opened. -/
theorem headers_faithful {config : Config} {registry : Registry} {raw : Nat} {skips : Nat → Nat}
    {es : List Event} (created : create config registry raw skips = .ok g₀) (run : g₀.Run es g) :
    (∀ s, g.heap.Carved s →
      (∀ e ∈ es, e.refusal = none) ∨ g.heap.headerAt s.base ≠ .blank →
      (g.heap.headerAt s.base).Faithful g.registry s (g₀.renewals s es)) ∧
    (∀ a, Interface.epochAt g a = 0 ↔ g.capture a = .untracked a) ∧
    (g.Untroubled ∧ ∀ e, e.Permitted g → (g.perform e).Untroubled) ∧
    (∀ p expected v, (g.judge p expected).violation = some v →
      v.fault ≠ .sanity ∧ (v.fault = .useAfterFree → g.Outlived p)) ∧
    (∀ size c type grant n, g.heap.classFor? size = some c → grant.refusal = none →
      (g.allocate size type grant).1 ≠ .error (.outOfMemory n)) ∧
    ∀ count size c type grant n, g.heap.classFor? (count * size) = some c →
      grant.refusal = none → (g.allocateZeroed count size type grant).1 ≠ .error (.outOfMemory n) := by
  obtain ⟨k₀, _, hrunning⟩ := create_kept created
  obtain ⟨htallied₀, huntroubled₀⟩ := create_tallied created
  have k := run.kept k₀
  have hg := run.halted_eq hrunning
  obtain ⟨htallied, huntroubled⟩ := run.untroubled k₀ hrunning htallied₀ huntroubled₀
  have hfaithful {s : Slot} (hc : g.heap.Carved s) (hne : g.heap.headerAt s.base ≠ .blank) :=
    run.faithful k₀ (create_headerAt created) hc hne
  refine ⟨fun s hc hcause => hfaithful hc (hcause.elim (fun granted => ?_) id), fun a => ?_,
    ⟨huntroubled, fun e => ?_⟩, fun p expected v hv => ?_,
    fun size c type grant n hclass hopened => ?_,
    fun count size c type grant n hclass hopened => ?_⟩
  · obtain ⟨_, hheap, rfl⟩ := create_eq_ok created
    have hsane := run.whole k₀ hheap.whole granted s hc
    exact fun heq => absurd (heq ▸ hsane) (by decide)
  · refine epochAt_eq_zero_iff fun s header hres hl => ?_
    obtain ⟨r, hs, _⟩ := k.framed.resolve?_eq_some_iff.mp hres
    obtain ⟨hcarves, rfl, hlive⟩ := (k.live?_eq_some_iff hs).mp hl
    exact (hfaithful ⟨r, hs, hcarves⟩ (Heap.ne_blank_of_isLive hlive)).epoch_pos
      (Header.phase_of_isLive hlive)
  · exact untroubled_perform k hg htallied huntroubled
  · exact ⟨judge_ne_sanity k hv, outlived_of_judge k hv⟩
  · exact allocateObject_ne_outOfMemory k hclass type false hopened n
  · exact allocateZeroed_ne_outOfMemory k hclass type hopened n

/-- The slot at `0x400000` was handed out twice, and a free of an address in its middle is about
another fault. -/
theorem recycled_headers_faithful :
    recycled.heap.Carved ⟨3, 0x400000, 64⟩ ∧
      (recycled.heap.headerAt 0x400000).Faithful recycled.registry ⟨3, 0x400000, 64⟩ 2 ∧
      recycled.capture 0x400034 ≠ .untracked 0x400034 ∧
      (Event.free 0x400034).Permitted recycled ∧ (recycled.free 0x400034).Untroubled ∧
      recycled.heap.classFor? 12 = some ⟨3, 64⟩ ∧
      (recycled.allocate 12 (.ofName NameHasher.spread "double") .opening).1 ≠
        .error (.outOfMemory 12) := by
  have hcreated : create ⟨false, false, false, false, 20, false⟩ (.builtins .spread) 0x100000
    (fun _ => 0) = .ok smallest := rfl
  let events : List Event :=
    .allocate 12 (.ofName NameHasher.spread "int32_t") .opening :: recycling
  have hrun : smallest.Run events recycled := .step (by decide +kernel) rfl run_recycling
  have hgranted : ∀ e ∈ events, e.refusal = none := by
    simp [events, recycling, Event.refusal, Grant.opening]
  have hres : recycled.heap.resolve? 0x400034 = some ⟨3, 0x400000, 64⟩ := by decide +kernel
  have hlive : (recycled.heap.live? ⟨3, 0x400000, 64⟩).isSome = true := by decide +kernel
  have hclass : recycled.heap.classFor? 12 = some ⟨3, 64⟩ := by decide +kernel
  have hrenewals : smallest.renewals ⟨3, 0x400000, 64⟩ events = 2 := by decide +kernel
  have hepoch : Interface.epochAt recycled 0x400034 ≠ 0 := by decide +kernel
  have k := (reachable_occupied.later run_recycling).kept
  have hcarved : recycled.heap.Carved ⟨3, 0x400000, 64⟩ := by
    obtain ⟨r, hs, _⟩ := k.framed.resolve?_eq_some_iff.mp hres
    obtain ⟨header, hl⟩ := Option.isSome_iff_exists.mp hlive
    exact k.carved_of_live hs hl
  obtain ⟨hheaders, hepochs, ⟨_, huntroubled⟩, _, hroom, _⟩ := headers_faithful hcreated hrun
  have hheader := hheaders _ hcarved (.inl hgranted)
  rw [hrenewals] at hheader
  exact ⟨hcarved, hheader, fun hcaptured => hepoch ((hepochs 0x400034).mpr hcaptured), trivial,
    huntroubled (.free 0x400034) trivial, hclass, hroom 12 _ _ .opening 12 hclass rfl⟩

end Guard

end TypedHeap
