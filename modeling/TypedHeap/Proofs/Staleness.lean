import TypedHeap.Proofs.Runs

/-! # Stale pointers

A pointer captured from an allocation is caught once the allocation has ended, however often its
slot was used since, and no pointer is taken for stale otherwise.
-/

namespace TypedHeap

/-- A slot in use is of a registered type other than free memory, so what a check finds wrong with
a pointer of the current epoch is its place or the type. -/
theorem Verdict.ofLive_fault {registry : Registry} {h : Heap} {r : Region} {slot : Slot}
    {header : Header} {cache : Cache.Chain} {p : Pointer} {expected : TypeHash} {v : Violation}
    (hu : h.InUse registry r header)
    (hv : (ofLive registry slot header cache p expected).violation = some v) :
    v.fault = .bounds ∨ v.fault = .type := by
  obtain ⟨owner, hreferred, hhash⟩ := hu.referred
  unfold ofLive at hv
  simp only [hreferred, if_neg hhash] at hv
  split at hv
  · obtain rfl := Option.some.inj hv
    exact .inl rfl
  · split at hv
    · cases hv
    · unfold ofType at hv
      split at hv
      · cases hv
      · next offset _ =>
        rcases ofOffset_cases registry slot header.size cache owner p.address expected offset with
          ⟨_, _, hnone, _⟩ | ⟨_, hsome, _⟩
        · exact nomatch hnone.symm.trans hv
        · obtain rfl := Option.some.inj (hsome.symm.trans hv)
          exact .inr rfl

namespace Guard

variable {g g' : Guard}

/-- A check of `p` reports one use after free and nothing else, and allows no byte. -/
def Catches (g : Guard) (p : Pointer) (expected : TypeHash) : Prop :=
  (g.checkPointer p expected).1 = .ok (.emptyAt p.address) ∧
    ∃ v, g.found p expected = [v] ∧ v.fault = .useAfterFree

/-- The latest allocation of the slot was freed. -/
def Freed (g : Guard) (s : Slot) : Prop :=
  ∃ header, g.heap.claimed? s = some header ∧ header.phase = some .freed

theorem catches_of_judge (hg : g.halted = false) {p : Pointer} {expected : TypeHash}
    {v : Violation} (hj : g.judge p expected = .fail [] p.address v)
    (hv : v.fault = .useAfterFree) : g.Catches p expected := by
  refine ⟨?_, v, ?_, hv⟩
  · rw [checkPointer_bounds, hj]
    rfl
  · rw [found_eq hg, hj]
    rfl

theorem retired_of_freed (k : g.heap.Kept g.registry) {s : Slot} {r : Region} {header : Header}
    (hs : g.heap.IsSlot s r) (hc : g.heap.claimed? s = some header)
    (hphase : header.phase = some .freed) : header.Retired := by
  rcases k.claimed?_cases hs hc with ⟨hu, _⟩ | ⟨hf, _⟩
  · exact nomatch hphase.symm.trans (Header.phase_of_isLive hu.live)
  · exact hf

theorem catches_of_freed (hr : g.Reachable) {p : Pointer} {s : Slot}
    (hres : g.heap.resolve? p.address = some s) (hf : g.Freed s) (expected : TypeHash) :
    g.Catches p expected := by
  obtain ⟨header, hc, hphase⟩ := hf
  obtain ⟨r, hs, _⟩ := hr.kept.framed.resolve?_eq_some_iff.mp hres
  have hretired := retired_of_freed hr.kept hs hc hphase
  exact catches_of_judge hr.halted_eq (judge_of_retired hres hc hretired expected) rfl

/-- A pointer that leads to a freed slot, or to one in use while it has another epoch. -/
def Outlived (g : Guard) (p : Pointer) : Prop :=
  ∃ s, g.heap.resolve? p.address = some s ∧
    (g.Freed s ∨ ∃ header, g.heap.live? s = some header ∧ p.isStale header.epoch = true)

/-- A check finds an access out of place, another type, or a use after free of an outlived pointer,
and nothing else. -/
theorem judge_fault (k : g.heap.Kept g.registry) {p : Pointer} {expected : TypeHash} {v : Violation}
    (hv : (g.judge p expected).violation = some v) :
    (v.fault = .bounds ∨ v.fault = .type) ∨ v.fault = .useAfterFree ∧ g.Outlived p := by
  cases hres : g.heap.resolve? p.address with
  | none =>
      rw [judge_foreign hres] at hv
      cases hv
  | some s =>
      obtain ⟨r, hs, _⟩ := k.framed.resolve?_eq_some_iff.mp hres
      cases hc : g.heap.claimed? s with
      | none =>
          rw [judge_of_blank hres hc] at hv
          obtain rfl := Option.some.inj hv
          exact .inl (.inr rfl)
      | some header =>
          rcases k.claimed?_cases hs hc with ⟨hu, hl⟩ | ⟨hf, _⟩
          · rw [judge_of_live k hs hres hl] at hv
            split at hv
            · next hstale =>
              obtain rfl := Option.some.inj hv
              exact .inr ⟨rfl, s, hres, .inr ⟨header, hl, hstale⟩⟩
            · exact .inl (Verdict.ofLive_fault hu hv)
          · rw [judge_of_retired hres hc hf] at hv
            obtain rfl := Option.some.inj hv
            exact .inr ⟨rfl, s, hres, .inl ⟨header, hc, hf.phase_eq⟩⟩

theorem outlived_of_judge (k : g.heap.Kept g.registry) {p : Pointer} {expected : TypeHash}
    {v : Violation} (hv : (g.judge p expected).violation = some v)
    (hfault : v.fault = .useAfterFree) : g.Outlived p := by
  rcases judge_fault k hv with (hbounds | htype) | ⟨_, houtlived⟩
  · exact nomatch hbounds.symm.trans hfault
  · exact nomatch htype.symm.trans hfault
  · exact houtlived

theorem outlived_of_found (hr : g.Reachable) {p : Pointer} {expected : TypeHash} {v : Violation}
    (hv : v ∈ g.found p expected) (hfault : v.fault = .useAfterFree) : g.Outlived p := by
  rw [found_eq hr.halted_eq, Option.mem_toList] at hv
  exact outlived_of_judge hr.kept hv hfault

theorem capture_of_live {q : Nat} {s : Slot} {header : Header}
    (hres : g.heap.resolve? q = some s) (hl : g.heap.live? s = some header) :
    g.capture q = ⟨q, some header.epoch⟩ := by
  simp [capture, hres, hl]

theorem capture_of_not_live {q : Nat} {s : Slot} (hres : g.heap.resolve? q = some s)
    (hl : g.heap.live? s = none) : g.capture q = .untracked q := by
  simp [capture, hres, hl, Pointer.untracked]

/-- A pointer captured from an allocation that has ended since is caught. -/
theorem catches_of_endsIn (hr : g.Reachable) {es : List Event} (run : g.Run es g') {q : Nat}
    {s : Slot} {header : Header} (hres : g.heap.resolve? q = some s)
    (hl : g.heap.live? s = some header) (hends : g.EndsIn s es) (expected : TypeHash) :
    g'.Catches (g.capture q) expected := by
  have k := hr.kept
  have hr' := hr.later run
  have k' := hr'.kept
  obtain ⟨r, hs, _⟩ := k.framed.resolve?_eq_some_iff.mp hres
  obtain ⟨hcarves, rfl, hlive⟩ := (k.live?_eq_some_iff hs).mp hl
  have hcarved : g.heap.Carved s := ⟨r, hs, hcarves⟩
  have hres' : g'.heap.resolve? q = some s := (run.resolve?_eq k q).trans hres
  obtain ⟨r', hs', hcarves'⟩ := run.carved k hcarved
  have hsane : (g'.heap.headerAt s.base).isSane = true :=
    run.isSane k (Header.sane_of_isLive hlive)
  have hne : g'.heap.headerAt s.base ≠ .blank := fun heq => absurd (heq ▸ hsane) (by decide)
  have hclaimed := (k'.claimed?_eq_some_iff hs').mpr ⟨hcarves', rfl, hne⟩
  rw [capture_of_live hres hl]
  rcases k'.claimed?_cases hs' hclaimed with ⟨hu, hl'⟩ | ⟨hf, _⟩
  · have hrenewed : 0 < g.renewals s es := by
      rcases Nat.eq_zero_or_pos (g.renewals s es) with hzero | hpos
      · exact nomatch hu.live.symm.trans (run.idle_of_ends k hcarved hends hzero)
      · exact hpos
    have hepoch : (g'.heap.headerAt s.base).epoch ≠ (g.heap.headerAt s.base).epoch := by
      rw [run.epoch_eq k (k'.framed.sole (run.carved k hcarved))]
      exact Nat.ne_of_gt (Nat.lt_add_of_pos_right hrenewed)
    have hjudge := judge_of_live (p := ⟨q, some (g.heap.headerAt s.base).epoch⟩) k' hs' hres' hl'
      expected
    rw [Pointer.isStale_of_epoch, if_pos (bne_iff_ne.mpr hepoch.symm)] at hjudge
    exact catches_of_judge hr'.halted_eq hjudge rfl
  · exact catches_of_freed hr' hres' ⟨_, hclaimed, hf.phase_eq⟩ expected

/-- A captured pointer is stale at a slot in use only if its own allocation there has ended. -/
theorem endsIn_of_isStale (hr : g.Reachable) {es : List Event} (run : g.Run es g') {q : Nat}
    {s : Slot} {header : Header} (hres : g.heap.resolve? q = some s)
    (hl : g'.heap.live? s = some header) (hstale : (g.capture q).isStale header.epoch = true) :
    (g.heap.live? s).isSome ∧ g.EndsIn s es := by
  have k := hr.kept
  have k' := (hr.later run).kept
  cases hbefore : g.heap.live? s with
  | none =>
      rw [capture_of_not_live hres hbefore] at hstale
      exact nomatch hstale
  | some before =>
      refine ⟨rfl, ?_⟩
      by_cases hends : g.EndsIn s es
      · exact hends
      · obtain ⟨r, hs, _⟩ := k.framed.resolve?_eq_some_iff.mp hres
        obtain ⟨hcarves, rfl, hlive⟩ := (k.live?_eq_some_iff hs).mp hbefore
        obtain ⟨r', hs', _⟩ := run.carved k ⟨r, hs, hcarves⟩
        obtain ⟨_, rfl, _⟩ := (k'.live?_eq_some_iff hs').mp hl
        have hsame := run.untagged_eq k ⟨r, hs, hcarves⟩ hlive hends
        have hepoch : (g'.heap.headerAt s.base).epoch = (g.heap.headerAt s.base).epoch :=
          show (g'.heap.headerAt s.base).untagged.epoch =
            (g.heap.headerAt s.base).untagged.epoch from congrArg Header.epoch hsame
        rw [capture_of_live hres hbefore, Pointer.isStale_of_epoch, hepoch] at hstale
        exact absurd rfl (bne_iff_ne.mp hstale)

/-- A pointer is caught once the allocation it was captured from has ended, be it freed, moved or
resized, and so is every pointer to a freed slot. A pointer without an epoch is taken for stale at
a freed slot only, and a captured one there or when its allocation has ended. -/
theorem stale_caught (hr : g.Reachable) {es : List Event} (run : g.Run es g') (q : Nat)
    (expected : TypeHash) :
    (∀ s header, g.heap.resolve? q = some s → g.heap.live? s = some header → g.EndsIn s es →
      g'.Catches (g.capture q) expected) ∧
    (∀ s p, g'.heap.resolve? p.address = some s → g'.Freed s → g'.Catches p expected) ∧
    (∀ v ∈ g'.found (.untracked q) expected, v.fault = .useAfterFree →
      ∃ s, g'.heap.resolve? q = some s ∧ g'.Freed s) ∧
    (∀ v ∈ g'.found (g.capture q) expected, v.fault = .useAfterFree →
      ∃ s, g'.heap.resolve? q = some s ∧
        (g'.Freed s ∨ (g.heap.live? s).isSome ∧ g.EndsIn s es)) := by
  have hr' := hr.later run
  refine ⟨fun s header hres hl hends => catches_of_endsIn hr run hres hl hends
    expected, fun s p hres hf => catches_of_freed hr' hres hf expected, fun v hv hfault => ?_,
    fun v hv hfault => ?_⟩
  · obtain ⟨s, hres, hf | ⟨header, _, hstale⟩⟩ := outlived_of_found hr' hv hfault
    · exact ⟨s, hres, hf⟩
    · exact nomatch hstale
  · obtain ⟨s, hres, hcause⟩ := outlived_of_found hr' hv hfault
    have hbefore : g.heap.resolve? q = some s := (run.resolve?_eq hr.kept q).symm.trans hres
    refine ⟨s, hres, ?_⟩
    rcases hcause with hf | ⟨header, hl, hstale⟩
    · exact .inl hf
    · exact .inr (endsIn_of_isStale hr run hbefore hl hstale)

theorem recycled_stale_caught :
    ∃ s header, occupied.heap.resolve? 0x400034 = some s ∧
      occupied.heap.live? s = some header ∧ occupied.EndsIn s recycling ∧
      recycled.Catches (occupied.capture 0x400034) (.ofName NameHasher.spread "int32_t") := by
  have hres : occupied.heap.resolve? 0x400034 = some ⟨3, 0x400000, 64⟩ := rfl
  have hl : occupied.heap.live? ⟨3, 0x400000, 64⟩ =
      some (occupied.heap.headerAt 0x400000) := rfl
  have hends : occupied.EndsIn ⟨3, 0x400000, 64⟩ recycling := .inr (.inl ⟨rfl, rfl, rfl⟩)
  have hcaught := stale_caught reachable_occupied run_recycling 0x400034
    (.ofName NameHasher.spread "int32_t")
  exact ⟨_, _, hres, hl, hends, hcaught.1 _ _ hres hl hends⟩

end Guard

end TypedHeap
