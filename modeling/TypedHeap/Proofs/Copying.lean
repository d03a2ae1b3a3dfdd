import TypedHeap.Proofs.Contents
import TypedHeap.Proofs.Notes

/-! # Fills and copies

What the objects at both ends have left bounds how many bytes are written. More is reported, once
for each end that has less. The bytes written are those of the source before the copy, also if the
two ranges overlap, and no other byte changes, be it of a header, an object or foreign memory.
-/

namespace TypedHeap

/-- Headers are exposed the same way over any memory: a byte is that of a header in both, or it is
the byte of the memory. -/
theorem Heap.byte_expose_congr {h : Heap} {m m' : Memory} {a : Nat} (hm : m.byte a = m'.byte a)
    (start length : Nat) : (h.expose m start length).byte a = (h.expose m' start length).byte a := by
  unfold expose
  generalize h.headersAmong start length = bases
  induction bases generalizing m m' with
  | nil => exact hm
  | cons base bases ih =>
      refine ih ?_
      rw [Memory.byte_write, Memory.byte_write, hm]

theorem Slot.remaining_object (s : Slot) (size a : Nat) :
    (s.object size).remaining a = if s.inHeader a then 0 else s.user + size - a := by
  simp only [inHeader, decide_eq_true_eq]
  unfold Bounds.remaining
  split
  · next hin =>
    have hlow : s.user ≤ a := hin.1
    rw [if_neg (Nat.not_lt_of_le hlow)]
    rfl
  · next hout =>
    have hout : ¬ (s.user ≤ a ∧ a ≤ s.user + size) := hout
    split <;> omega

namespace Guard

variable {g g' : Guard} {a n : Nat}

/-! ## Room -/

/-- How many bytes the object in use around an address has from there on: none in the header of
its slot and none behind its end. -/
def roomAt (g : Guard) (a : Nat) : Nat :=
  match g.heap.resolve? a with
  | none => 0
  | some s =>
      match g.heap.live? s with
      | none => 0
      | some header => if s.inHeader a then 0 else s.user + header.size - a

/-- How many of `n` bytes may be touched from an address on. -/
def within (g : Guard) (a n : Nat) : Nat := if g.heap.contains a then min n (g.roomAt a) else n

/-- What is reported if an address of the heap has room for less than `n` bytes. -/
def shortfall (g : Guard) (a n : Nat) : List Violation :=
  if g.heap.contains a = true ∧ g.roomAt a < n then
    [.bounds a 0 (min n Word.lastSigned) (g.boundsAt a)]
  else []

theorem remaining_boundsAt {s : Slot} (hres : g.heap.resolve? a = some s) :
    (g.boundsAt a).remaining a = g.roomAt a := by
  unfold boundsAt roomAt
  rw [hres]
  simp only
  cases g.heap.live? s with
  | none => simp [Bounds.emptyAt, Bounds.remaining]
  | some header => exact Slot.remaining_object s header.size a

/-- A guard reports `vs`, of which it comes to the first only if it is to stop there. -/
structure Reports (g g' : Guard) (vs : List Violation) : Prop where
  violations_eq : g'.violations = g.violations ++ if g.config.fatal then vs.take 1 else vs
  halted_eq : g'.halted = (g.config.fatal && !vs.isEmpty)

theorem Silent.reports (hs : g.Silent g') (hg : g.halted = false) : g.Reports g' [] := by
  refine ⟨?_, ?_⟩
  · simp [hs.violations_eq]
  · simp [hs.halted_eq, hg]

theorem reports_report (hg : g.halted = false) (v : Violation) : g.Reports (g.report v) [v] := by
  refine ⟨?_, ?_⟩
  · simp [violations_report hg]
  · simp [halted_report hg]

theorem allowance_of_halted (hg : g.halted = true) (a n : Nat) : (g.allowance a n).2 = g := by
  have hreport (v : Violation) : g.report v = g := note_of_halted hg (.violation v)
  unfold allowance
  simp only [bump_of_halted hg, hreport]
  split
  · rfl
  · split <;> rfl

theorem allowance_spec (f : g.heap.Framed) (hg : g.halted = false) (a n : Nat) :
    (g.allowance a n).1 = g.within a n ∧ g.Reports (g.allowance a n).2 (g.shortfall a n) := by
  have hb := g.silent_bump .boundsChecks
  unfold allowance within shortfall
  cases hres : g.heap.resolve? a with
  | none =>
      have hout := f.resolve?_eq_none_iff.mp hres
      simp only [Option.isNone_none, or_true, if_true, hout, Bool.false_eq_true, false_and,
        if_false, true_and]
      exact (Silent.refl g).reports hg
  | some s =>
      have hin : g.heap.contains a = true := by
        rw [← Bool.not_eq_false, ← f.resolve?_eq_none_iff, hres]
        exact nofun
      by_cases hzero : n = 0
      · subst hzero
        simp only [true_or, if_true, hin, Nat.zero_min, Nat.not_lt_zero, and_false, if_false,
          true_and]
        exact (Silent.refl g).reports hg
      · have hbounds : (g.bump .boundsChecks).boundsAt a = g.boundsAt a := by
          simp only [boundsAt, hb.heap_eq]
        simp only [hzero, Option.isNone_some, Bool.false_eq_true, or_self, if_false, hbounds,
          remaining_boundsAt hres, hin, if_true, true_and]
        split
        · next hshort =>
          have hr := reports_report (hb.halted_eq.trans hg)
            (.bounds a 0 (min n Word.lastSigned) (g.boundsAt a))
          refine ⟨by omega, ?_, ?_⟩
          · rw [hr.violations_eq, hb.violations_eq, hb.config_eq]
          · rw [hr.halted_eq, hb.config_eq]
        · next hroom => exact ⟨by omega, hb.reports hg⟩

theorem SameParts.within_eq (hs : g.SameParts g') (a n : Nat) : g'.within a n = g.within a n := by
  rw [within, within, roomAt, roomAt, hs.heap_eq]

theorem SameParts.shortfall_eq (hs : g.SameParts g') (a n : Nat) :
    g'.shortfall a n = g.shortfall a n := by
  rw [shortfall, shortfall, roomAt, roomAt, boundsAt, boundsAt, hs.heap_eq]

/-- The source of a copy is measured first, and the target unless the guard stops there. -/
theorem copyAllowance_spec (f : g.heap.Framed) (hg : g.halted = false) (target source n : Nat) :
    ((g.copyAllowance target source n).2.halted = false →
      (g.copyAllowance target source n).1 = min (g.within source n) (g.within target n)) ∧
      g.Reports (g.copyAllowance target source n).2
        (g.shortfall source n ++ g.shortfall target n) := by
  have hsame := g.sameParts_allowance source n
  obtain ⟨hroom, hfirst⟩ := allowance_spec f hg source n
  simp only [copyAllowance, hroom]
  generalize (g.allowance source n).2 = measured at hsame hfirst
  cases hhalted : measured.halted with
  | true =>
      simp only [allowance_of_halted hhalted]
      rw [hfirst.halted_eq, Bool.and_eq_true, Bool.not_eq_true'] at hhalted
      obtain ⟨hfatal, hsome⟩ := hhalted
      obtain ⟨v, vs, hshort⟩ := List.exists_cons_of_ne_nil (List.isEmpty_eq_false_iff.mp hsome)
      rw [hshort] at hfirst ⊢
      refine ⟨fun hrun => ?_, ?_, ?_⟩
      · simp [hfirst.halted_eq, hfatal] at hrun
      · simp [hfirst.violations_eq, hfatal]
      · simp [hfirst.halted_eq, hfatal]
  | false =>
      obtain ⟨htarget, hsecond⟩ := allowance_spec (hsame.heap_eq ▸ f) hhalted target n
      rw [hsame.within_eq] at htarget
      refine ⟨fun _ => by rw [htarget], ?_, ?_⟩
      · rw [hsecond.violations_eq, hfirst.violations_eq, hsame.config_eq, hsame.shortfall_eq]
        rw [hfirst.halted_eq] at hhalted
        split
        · next hfatal =>
          have hnil : g.shortfall source n = [] := by simpa [hfatal] using hhalted
          simp [hnil]
        · rw [List.append_assoc]
      · rw [hsecond.halted_eq, hsame.config_eq, hsame.shortfall_eq]
        rw [hfirst.halted_eq] at hhalted
        cases hfatal : g.config.fatal with
        | false => rfl
        | true =>
            have hnil : g.shortfall source n = [] := by simpa [hfatal] using hhalted
            simp [hnil]

/-! ## What is written -/

/-- The first `m` bytes from `target` on become those that `value` says, unless the guard stops at
one of the violations `vs` which it reports. Nothing else changes: no other byte, no header, no
free queue and no block of the outer allocator. -/
structure Writes (g g' : Guard) (vs : List Violation) (target m : Nat) (value : Nat → UInt8) :
    Prop extends Reports g g' vs where
  config_eq : g'.config = g.config
  registry_eq : g'.registry = g.registry
  heap_eq : g'.heap = g.heap
  large_eq : g'.large = g.large
  written : g'.halted = false → ∀ i < m, g'.byteAt (target + i) = value i
  others : ∀ a, ¬ (target ≤ a ∧ a < target + m) → g'.byteAt a = g.byteAt a
  stopped : g'.halted = true → ∀ a, g'.byteAt a = g.byteAt a

theorem SameParts.writes {vs : List Violation} {target m : Nat} {value : Nat → UInt8}
    (hs : g.SameParts g') (hr : g.Reports g' vs) (hhalted : g'.halted = true) :
    g.Writes g' vs target m value :=
  { toReports := hr
    config_eq := hs.config_eq
    registry_eq := hs.registry_eq
    heap_eq := hs.heap_eq
    large_eq := hs.large_eq
    written := fun hrun => nomatch hrun.symm.trans hhalted
    others := fun a _ => hs.byteAt_eq a
    stopped := fun _ a => hs.byteAt_eq a }

theorem byteAt_of_harmless {P : Slot → Prop} {start length i : Nat} (f : g.heap.Framed)
    (hw : g.heap.Harmless P start length) (hi : i < length) :
    g.byteAt (start + i) = g.memory.byte (start + i) := by
  rcases hw with hzero | havoids | ⟨s, hc, _, hlow, hhigh⟩
  · omega
  · have hrest : g.heap.range.Avoids (start + i) 1 := by
      unfold Reservation.Avoids at havoids ⊢
      omega
    exact byteAt_of_not_contains (Heap.not_contains_of_avoids hrest Nat.one_pos)
  · exact byteAt_of_carved f hc (by omega) (by omega)

/-- A change of the memory in a harmless range is one of the bytes there. -/
theorem writes_of_memory {P : Slot → Prop} {vs : List Violation} {target m : Nat}
    {value : Nat → UInt8} {measured : Guard} {memory : Memory} (f : g.heap.Framed)
    (hs : g.SameParts measured) (hr : g.Reports measured vs) (hrun : measured.halted = false)
    (hw : g.heap.Harmless P target m)
    (hwritten : ∀ i < m, memory.byte (target + i) = value i)
    (hothers : ∀ a, ¬ (target ≤ a ∧ a < target + m) → memory.byte a = g.memory.byte a) :
    g.Writes { measured with memory } vs target m value := by
  have hheap : ({ measured with memory } : Guard).heap = g.heap := hs.heap_eq
  refine
    { violations_eq := hr.violations_eq
      halted_eq := hr.halted_eq
      config_eq := hs.config_eq
      registry_eq := hs.registry_eq
      heap_eq := hheap
      large_eq := hs.large_eq
      written := fun _ i hi => ?_
      others := fun a ha => ?_
      stopped := fun hhalted => nomatch hhalted.symm.trans hrun }
  · rw [← hheap] at f hw
    rw [byteAt_of_harmless f hw hi]
    exact hwritten i hi
  · rw [byteAt, byteAt, hheap]
    exact Heap.byte_expose_congr (hothers a ha) a 1

theorem harmless_within (k : g.heap.Kept g.registry) (hg : g.halted = false)
    (hforeign : g.heap.contains a = false → g.heap.range.Avoids a n) :
    g.heap.Harmless (fun s => g.heap.resolve? a = some s) a (g.within a n) := by
  rw [← (allowance_spec k.framed hg a n).1]
  exact harmless_of_allowance k hforeign rfl

theorem writes_fill (k : g.heap.Kept g.registry) (hg : g.halted = false) {target n : Nat}
    (value : UInt8)
    (hforeign : g.heap.contains target = false → g.heap.range.Avoids target n) :
    g.Writes (g.fill target value n) (g.shortfall target n) target (g.within target n)
      fun _ => value := by
  have hsame := g.sameParts_allowance target n
  obtain ⟨hroom, hreports⟩ := allowance_spec k.framed hg target n
  rw [fill_eq k value hforeign]
  cases hhalted : (g.allowance target n).2.halted with
  | true => exact hsame.writes hreports hhalted
  | false =>
      rw [if_neg (Bool.false_ne_true), hroom]
      have hw := harmless_within k hg hforeign
      refine writes_of_memory k.framed hsame hreports hhalted hw (fun i hi => ?_) fun a ha => ?_
      · rw [Memory.byte_set, if_pos]
        simp only [Memory.covers, Bool.and_eq_true, decide_eq_true_eq]
        omega
      · exact g.memory.byte_set_of_outside ha value

theorem writes_copy (k : g.heap.Kept g.registry) (hg : g.halted = false) {target source n : Nat}
    (htarget : g.heap.contains target = false → g.heap.range.Avoids target n)
    (hsource : g.heap.contains source = false → g.heap.range.Avoids source n) :
    g.Writes (g.copy target source n) (g.shortfall source n ++ g.shortfall target n) target
      (min (g.within source n) (g.within target n)) fun i => g.byteAt (source + i) := by
  have hsame := g.sameParts_copyAllowance target source n
  obtain ⟨hroom, hreports⟩ := copyAllowance_spec k.framed hg target source n
  rw [copy_eq k source htarget]
  cases hhalted : (g.copyAllowance target source n).2.halted with
  | true => exact hsame.writes hreports hhalted
  | false =>
      have hlength := hroom hhalted
      have hto := (harmless_within k hg htarget).mono
        (Nat.min_le_right (g.within source n) (g.within target n))
      have hfrom := (harmless_within k hg hsource).mono
        (Nat.min_le_left (g.within source n) (g.within target n))
      rw [if_neg (Bool.false_ne_true), hlength,
        Heap.expose_of_headersAmong_eq_nil (k.framed.headersAmong_of_harmless hfrom)]
      refine writes_of_memory k.framed hsame hreports hhalted hto (fun i hi => ?_) fun a ha => ?_
      · rw [Memory.byte_move, if_pos, Nat.add_sub_cancel_left, byteAt_of_harmless k.framed hfrom hi]
        simp only [Memory.covers, Bool.and_eq_true, decide_eq_true_eq]
        omega
      · exact g.memory.byte_move_of_outside ha source

/-- In every reachable state, a copy makes the bytes from the target on equal to those from the
source on before, and a fill sets them, as far as the objects in use at the heap addresses among
the two go. All other bytes stay, and each heap address with less room is reported once. -/
theorem moves_within_bounds (hr : g.Reachable) {target source n : Nat} (value : UInt8)
    (htarget : g.heap.contains target = false → g.heap.range.Avoids target n)
    (hsource : g.heap.contains source = false → g.heap.range.Avoids source n) :
    g.Writes (g.copy target source n) (g.shortfall source n ++ g.shortfall target n) target
        (min (g.within source n) (g.within target n)) (fun i => g.byteAt (source + i)) ∧
      g.Writes (g.fill target value n) (g.shortfall target n) target (g.within target n)
        fun _ => value :=
  ⟨writes_copy hr.kept hr.halted_eq htarget hsource, writes_fill hr.kept hr.halted_eq value htarget⟩

/-- The whole object is copied to its own middle, where it has 8 bytes left. -/
theorem occupied_moves_within_bounds :
    (occupied.heap.contains 0x400034 = false → occupied.heap.range.Avoids 0x400034 12) ∧
      (occupied.heap.contains 0x400030 = false → occupied.heap.range.Avoids 0x400030 12) ∧
      (occupied.copy 0x400034 0x400030 12).violations =
        [.bounds 0x400034 0 12 ⟨0x400030, 0x40003C⟩] ∧
      ∀ i < 8, (occupied.copy 0x400034 0x400030 12).byteAt (0x400034 + i) =
        occupied.byteAt (0x400030 + i) := by
  have htarget : occupied.heap.contains 0x400034 = false →
      occupied.heap.range.Avoids 0x400034 12 := by decide +kernel
  have hsource : occupied.heap.contains 0x400030 = false →
      occupied.heap.range.Avoids 0x400030 12 := by decide +kernel
  obtain ⟨hcopy, _⟩ := moves_within_bounds reachable_occupied 0 htarget hsource
  have hshort : occupied.shortfall 0x400030 12 ++ occupied.shortfall 0x400034 12 =
      [.bounds 0x400034 0 12 ⟨0x400030, 0x40003C⟩] := by decide +kernel
  have hroom : min (occupied.within 0x400030 12) (occupied.within 0x400034 12) = 8 := by
    decide +kernel
  have hlenient : occupied.config.fatal = false := rfl
  have hnone : occupied.violations = [] := by decide +kernel
  rw [hshort, hroom] at hcopy
  refine ⟨htarget, hsource, ?_, hcopy.written ?_⟩
  · simp [hcopy.violations_eq, hlenient, hnone]
  · simp [hcopy.halted_eq, hlenient]

end Guard

end TypedHeap
