import TypedHeap.Proofs.Runs

/-! # Access soundness

A check allows bytes of one object in use only: that of the slot to which its pointer resolves.
-/

namespace TypedHeap.Guard

variable {g : Guard}

/-- `[low, high)` are bytes of the object in the slot `s`, which is in use. -/
structure Owns (g : Guard) (s : Slot) (low high : Int) : Prop where
  live : ∃ header, g.heap.live? s = some header ∧ header.size + headerSize ≤ s.size ∧
    s.user ≤ low ∧ high ≤ s.user + header.size
  resolved (a : Nat) : low ≤ a → a < high → g.heap.resolve? a = some s
  /-- No other slot has any of these bytes, be it for a header or an object. -/
  exclusive {t : Slot} (a : Nat) : low ≤ a → a < high → g.heap.Carved t → t.base ≤ a →
    a < t.finish → t = s

theorem owns_of_live (k : g.heap.Kept g.registry) {s : Slot} {r : Region} {header : Header}
    (hs : g.heap.IsSlot s r) (hl : g.heap.live? s = some header) {low high : Int}
    (hlow : s.user ≤ low) (hhigh : high ≤ s.user + header.size) : g.Owns s low high := by
  obtain ⟨hu, _⟩ := k.inUse_of_live hs hl
  obtain ⟨hcarves, _, _⟩ := (k.live?_eq_some_iff hs).mp hl
  have hfits : header.size + headerSize ≤ s.size := by
    rw [hs.size_eq]
    exact hu.size_le
  have hresolved (a : Nat) (hla : low ≤ a) (hah : a < high) : g.heap.resolve? a = some s := by
    apply k.framed.resolve?_of_carves hs hcarves
    all_goals
      simp only [Slot.user, Slot.finish] at *
      omega
  refine ⟨⟨header, hl, hfits, hlow, hhigh⟩, hresolved, ?_⟩
  intro t a hla hah hcarved htlow hthigh
  rcases hcarved with ⟨q, ht, htc⟩
  have hother := k.framed.resolve?_of_carves ht htc htlow hthigh
  exact Option.some.inj (hother.symm.trans (hresolved a hla hah))

/-- A check does not end the allocation that it looks at. -/
theorem live?_checkPointer (k : g.heap.Kept g.registry) (p : Pointer) (expected : TypeHash)
    {s : Slot} {r : Region} {header : Header} (hs : g.heap.IsSlot s r)
    (hl : g.heap.live? s = some header) :
    ∃ header', (g.checkPointer p expected).2.heap.live? s = some header' ∧
      header'.untagged = header.untagged := by
  obtain ⟨turns, he⟩ := effect_checkPointer k p expected
  obtain ⟨hcarves, rfl, hlive⟩ := (k.live?_eq_some_iff hs).mp hl
  have hcarved : g.heap.Carved s := ⟨r, hs, hcarves⟩
  have hends : Heap.endsIn s turns = false :=
    Bool.eq_false_iff.mpr (he.ends_iff s).mp
  have hsame := he.moves.untagged_eq k hcarved hlive hends
  obtain ⟨r', hs', hcarves'⟩ := he.moves.carved hcarved
  refine ⟨_, ((he.kept k).live?_eq_some_iff hs').mpr ⟨hcarves', rfl, ?_⟩, hsame⟩
  exact (congrArg Header.isLive hsame).trans hlive

/-- In every reachable state, a pointer into the reserved range is allowed an access only if all of
its bytes belong to the object in use in the slot that the pointer resolves to. The object is still
in use after the check, and the check of the access reports nothing. -/
theorem checkPointer_admits_owned (hr : g.Reachable) {p : Pointer} {expected : TypeHash} {b : Bounds}
    {lb ub : Int} (hc : g.heap.contains p.address = true) (hlt : lb < ub)
    (hb : (g.checkPointer p expected).1 = .ok b) (ha : b.admits p.address lb ub = true) :
    ∃ s, g.heap.resolve? p.address = some s ∧ g.Owns s (p.address + lb) (p.address + ub) ∧
      (g.checkPointer p expected).2.Owns s (p.address + lb) (p.address + ub) ∧
      ((g.checkPointer p expected).2.checkBounds b p.address lb ub).violations =
        (g.checkPointer p expected).2.violations := by
  have k := hr.kept
  obtain ⟨s, hres⟩ := k.framed.exists_slot_of_contains hc
  obtain ⟨r, hs, _⟩ := k.framed.resolve?_eq_some_iff.mp hres
  have hsilent := violations_checkBounds (g := (g.checkPointer p expected).2) ha
  rw [checkPointer_bounds] at hb
  have hnot : b ≠ .emptyAt p.address := fun hempty => by
    rw [hempty, Bounds.admits_emptyAt _ _ hlt] at ha
    cases ha
  rcases judge_confined k hres hb with hempty | ⟨header, hl, hlower, hupper⟩
  · exact absurd hempty hnot
  · obtain ⟨hbelow, habove⟩ := of_decide_eq_true ha
    have hlow : (s.user : Int) ≤ p.address + lb := by
      simp only [Slot.object] at hlower
      omega
    have hhigh : (p.address : Int) + ub ≤ s.user + header.size := by
      simp only [Slot.object] at hupper
      omega
    obtain ⟨header', hl', hsame⟩ := live?_checkPointer k p expected hs hl
    have hsize : header'.size = header.size :=
      show header'.untagged.size = header.untagged.size from congrArg Header.size hsame
    obtain ⟨turns, he⟩ := effect_checkPointer k p expected
    obtain ⟨r', hs', _⟩ := he.moves.carved (k.carved_of_live hs hl)
    exact ⟨s, hres, owns_of_live k hs hl hlow hhigh,
      owns_of_live (he.kept k) hs' hl' hlow (hsize ▸ hhigh), hsilent⟩

theorem recycled_admits_owned :
    recycled.heap.contains 0x400034 = true ∧ (-4 : Int) < 4 ∧
      (recycled.checkPointer ⟨0x400034, some 2⟩ (.ofName NameHasher.spread "int32_t")).1 =
        .ok ⟨0x400030, 0x400038⟩ ∧
      (⟨0x400030, 0x400038⟩ : Bounds).admits 0x400034 (-4) 4 = true ∧
      ∃ s, recycled.heap.resolve? 0x400034 = some s ∧ recycled.Owns s 0x400030 0x400038 := by
  have hr := reachable_occupied.later run_recycling
  have hc : recycled.heap.contains 0x400034 = true := by decide +kernel
  have hb : (recycled.checkPointer ⟨0x400034, some 2⟩ (.ofName NameHasher.spread "int32_t")).1 =
    .ok ⟨0x400030, 0x400038⟩ := by decide +kernel
  have ha : (⟨0x400030, 0x400038⟩ : Bounds).admits 0x400034 (-4) 4 = true := by decide
  obtain ⟨s, hres, howns, _⟩ :=
    checkPointer_admits_owned (p := ⟨0x400034, some 2⟩) hr hc (by decide) hb ha
  exact ⟨hc, by decide, hb, ha, s, hres, howns⟩

end TypedHeap.Guard
