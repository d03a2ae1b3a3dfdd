import TypedHeap.LargeHeap

/-! # Frees of large blocks

Whether a block is released depends on what callers have done to its address before. A block in use is
released; an address freed before is known as such while it is among those of the last 256 frees, or
longer, unless it is handed out again. This is so whichever addresses the outer allocator offers.
-/

namespace TypedHeap.LargeHeap

/-! ## Histories -/

/-- A call, with the address that the outer allocator has for the block, if it has one. -/
inductive Call where
  | allocate (offer : Option Nat) (size : Nat)
  | reallocate (offer : Option Nat) (address newSize : Nat)
  | free (address : Nat)

/-- What callers see happen to an address. -/
inductive Event where
  | handedOut (address : Nat)
  /-- The block was reallocated. -/
  | vacated (address : Nat)
  | freed (address : Nat)
  deriving DecidableEq

def Event.address : Event → Nat
  | .handedOut a | .vacated a | .freed a => a

/-- A heap and what has happened to it, the latest first. -/
structure Course where
  heap : LargeHeap
  past : List Event

namespace Course

def perform (c : Course) : Call → Course
  | .allocate offer size =>
      match c.heap.allocate? offer size with
      | none => c
      | some (address, heap) => ⟨heap, .handedOut address :: c.past⟩
  | .reallocate offer address newSize =>
      match c.heap.reallocate offer address newSize with
      | .notOurs | .failed => c
      | .moved target _ heap => ⟨heap, .handedOut target :: .vacated address :: c.past⟩
  | .free address =>
      let (answer, heap) := c.heap.free address
      ⟨heap, if answer = .freed then .freed address :: c.past else c.past⟩

def after (calls : List Call) : Course := calls.foldl perform ⟨empty, []⟩

end Course

/-- The block at the address has been handed out, and neither reallocated nor freed since. -/
def InUse (past : List Event) (address : Nat) : Prop :=
  past.find? (·.address = address) = some (.handedOut address)

instance (past : List Event) (address : Nat) : Decidable (InUse past address) :=
  inferInstanceAs (Decidable (_ = _))

/-- The block at the address has been freed and not handed out since, and there were `later` frees after
that one. -/
inductive FreedAgo (address : Nat) : Nat → List Event → Prop where
  | now {past : List Event} : FreedAgo address 0 (.freed address :: past)
  | free {later : Nat} {past : List Event} (other : Nat) (before : FreedAgo address later past) :
      FreedAgo address (later + 1) (.freed other :: past)
  | handedOut {later : Nat} {past : List Event} {other : Nat} (ne : other ≠ address)
      (before : FreedAgo address later past) : FreedAgo address later (.handedOut other :: past)
  | vacated {later : Nat} {past : List Event} (other : Nat)
      (before : FreedAgo address later past) : FreedAgo address later (.vacated other :: past)

variable {past : List Event} {a b n : Nat} {h : LargeHeap}

@[simp] theorem inUse_handedOut : InUse (.handedOut b :: past) a ↔ b = a ∨ InUse past a := by
  by_cases heq : b = a <;> simp [InUse, Event.address, heq]

@[simp] theorem inUse_vacated : InUse (.vacated b :: past) a ↔ b ≠ a ∧ InUse past a := by
  by_cases heq : b = a <;> simp [InUse, Event.address, heq]

@[simp] theorem inUse_freed : InUse (.freed b :: past) a ↔ b ≠ a ∧ InUse past a := by
  by_cases heq : b = a <;> simp [InUse, Event.address, heq]

theorem FreedAgo.not_inUse (hf : FreedAgo a n past) : ¬ InUse past a := by
  induction hf with
  | now => simp
  | free _ _ ih => simp [ih]
  | handedOut hne _ ih => simp [ih, hne]
  | vacated _ _ ih => simp [ih]

/-! ## What the heap knows of its history -/

/-- The heap knows which blocks are in use, and remembers addresses that were freed. One that has `k`
others behind it was freed at least `k` frees ago, and none is forgotten before 256 frees. -/
structure Accounted (past : List Event) (h : LargeHeap) : Prop where
  live_iff (a : Nat) : h.live.contains a = true ↔ InUse past a
  freed : ∀ a ∈ h.recent, ∃ n, FreedAgo a n past
  nodup : h.recent.Nodup
  length_le : h.recent.length ≤ recentLimit
  behind {front back : List Nat} {a n : Nat} :
    h.recent = front ++ a :: back → FreedAgo a n past → back.length ≤ n
  kept {a n : Nat} : FreedAgo a n past → n < recentLimit → a ∈ h.recent

theorem accounted_empty : Accounted [] empty where
  live_iff a := by simp [empty, InUse]
  freed := nofun
  nodup := List.nodup_nil
  length_le := Nat.zero_le _
  behind hsplit := by simp [empty] at hsplit
  kept := nofun

theorem Accounted.record (ha : Accounted past h) (address size : Nat) :
    Accounted (.handedOut address :: past) (h.record address size) where
  live_iff a := by simp [LargeHeap.record, Std.TreeMap.contains_insert, ha.live_iff]
  freed a hmem := by
    obtain ⟨hrecent, hne⟩ := List.mem_filter.mp hmem
    obtain ⟨n, hfreed⟩ := ha.freed a hrecent
    exact ⟨n, .handedOut (Ne.symm (of_decide_eq_true hne)) hfreed⟩
  nodup := ha.nodup.filter _
  length_le := Nat.le_trans (List.length_filter_le ..) ha.length_le
  behind hsplit hfreed := by
    cases hfreed with
    | handedOut _ hbefore =>
        obtain ⟨front, rest, hrecent, _, hrest⟩ := List.filter_eq_append_iff.mp hsplit
        obtain ⟨between, back, rfl, _, _, rfl⟩ := List.filter_eq_cons_iff.mp hrest
        rw [← List.append_assoc] at hrecent
        exact Nat.le_trans (List.length_filter_le ..) (ha.behind hrecent hbefore)
  kept hfreed hlate := by
    cases hfreed with
    | handedOut hne hbefore =>
        exact List.mem_filter.mpr ⟨ha.kept hbefore hlate, decide_eq_true hne.symm⟩

theorem Accounted.vacate (ha : Accounted past h) (address : Nat) :
    Accounted (.vacated address :: past) { h with live := h.live.erase address } where
  live_iff a := by simp [Std.TreeMap.contains_erase, ha.live_iff]
  freed a hmem := by
    obtain ⟨n, hfreed⟩ := ha.freed a hmem
    exact ⟨n, .vacated _ hfreed⟩
  nodup := ha.nodup
  length_le := ha.length_le
  behind hsplit hfreed := by
    cases hfreed with
    | vacated _ hbefore => exact ha.behind hsplit hbefore
  kept hfreed hlate := by
    cases hfreed with
    | vacated _ hbefore => exact ha.kept hbefore hlate

theorem remember_eq {recent : List Nat} (hle : recent.length ≤ recentLimit) (address : Nat) :
    ∃ dropped kept, recent = dropped ++ kept ∧ remember recent address = kept ++ [address] ∧
      kept.length < recentLimit ∧
      ∀ a ∈ dropped, recent = a :: kept ∧ kept.length + 1 = recentLimit := by
  unfold remember
  split
  · next hfull =>
    cases recent with
    | nil => cases hfull
    | cons oldest kept =>
        refine ⟨[oldest], kept, rfl, rfl, Nat.lt_of_succ_le hle, fun a ha => ?_⟩
        obtain rfl := List.mem_singleton.mp ha
        exact ⟨rfl, hfull⟩
  · next hroom => exact ⟨[], recent, rfl, rfl, Nat.lt_of_le_of_ne hle hroom, nofun⟩

theorem Accounted.free (ha : Accounted past h) {address : Nat} (hlive : InUse past address) :
    Accounted (.freed address :: past)
      { h with live := h.live.erase address, recent := remember h.recent address } := by
  obtain ⟨dropped, kept, hrecent, hremember, hlt, hdropped⟩ := remember_eq ha.length_le address
  have hsub : kept.Sublist h.recent := hrecent ▸ List.sublist_append_right dropped kept
  have hnew : address ∉ kept := fun hmem => by
    obtain ⟨n, hfreed⟩ := ha.freed address (hsub.subset hmem)
    exact hfreed.not_inUse hlive
  rw [hremember]
  constructor
  case live_iff =>
    intro a
    simp [Std.TreeMap.contains_erase, ha.live_iff]
  case freed =>
    intro a hmem
    rcases List.mem_append.mp hmem with hold | hself
    · obtain ⟨n, hfreed⟩ := ha.freed a (hsub.subset hold)
      exact ⟨n + 1, .free address hfreed⟩
    · obtain rfl := List.mem_singleton.mp hself
      exact ⟨0, .now⟩
  case nodup =>
    refine List.nodup_append.mpr
      ⟨ha.nodup.sublist hsub, List.pairwise_singleton _ _, fun a hin b hb => ?_⟩
    obtain rfl := List.mem_singleton.mp hb
    exact fun heq => hnew (heq ▸ hin)
  case length_le =>
    rw [List.length_append]
    exact hlt
  case behind =>
    intro front back a n hsplit hfreed
    rcases List.eq_nil_or_concat back with rfl | ⟨back, last, rfl⟩
    · exact Nat.zero_le n
    · rw [List.concat_eq_append, ← List.cons_append, ← List.append_assoc] at hsplit
      obtain ⟨hkept, _⟩ := List.append_inj' hsplit rfl
      cases hfreed with
      | now => exact absurd (hkept ▸ by simp) hnew
      | @free later _ _ hbefore =>
          have hall : h.recent = dropped ++ front ++ a :: back := by
            rw [hrecent, hkept, List.append_assoc]
          simpa using ha.behind hall hbefore
  case kept =>
    intro a n hfreed hlate
    cases hfreed with
    | now => simp
    | @free later _ _ hbefore =>
        have hmem := ha.kept hbefore (by omega)
        rw [hrecent] at hmem
        refine List.mem_append_left _ ((List.mem_append.mp hmem).resolve_left fun hin => ?_)
        -- the oldest has as many others behind it as there were frees since
        obtain ⟨holdest, hfull⟩ := hdropped a hin
        have hall : h.recent = [] ++ a :: kept := holdest
        have hbehind := ha.behind hall hbefore
        omega

theorem Accounted.getElem?_eq_none_iff (ha : Accounted past h) :
    h.live[a]? = none ↔ ¬ InUse past a := by
  rw [← ha.live_iff, Std.TreeMap.contains_eq_isSome_getElem?]
  cases h.live[a]? <;> simp

/-! ## Courses -/

theorem free_of_live (h : LargeHeap) {address : Nat} (hlive : h.live.contains address = true) :
    h.free address = (.freed,
      { h with live := h.live.erase address, recent := remember h.recent address }) := by
  rw [LargeHeap.free, if_pos hlive]

theorem free_of_not_live (h : LargeHeap) {address : Nat}
    (hlive : ¬ h.live.contains address = true) :
    h.free address = (if address ∈ h.recent then .alreadyFreed else .notOurs, h) := by
  rw [LargeHeap.free, if_neg hlive]
  by_cases hmem : address ∈ h.recent <;> simp [hmem]

namespace Course

variable {c : Course} {address : Nat}

/-- Every call is accounted for. -/
theorem accounted_perform (ha : Accounted c.past c.heap) (call : Call) :
    Accounted (c.perform call).past (c.perform call).heap := by
  cases call with
  | allocate offer size =>
      cases offer with
      | none => exact ha
      | some address => exact ha.record address _
  | reallocate offer address newSize =>
      cases hlive : c.heap.live[address]? with
      | none => simpa [perform, reallocate, hlive] using ha
      | some oldSize =>
          cases offer with
          | none => simpa [perform, reallocate, hlive] using ha
          | some target =>
              simpa [perform, reallocate, hlive] using (ha.vacate address).record target _
  | free address =>
      by_cases hlive : c.heap.live.contains address = true
      · simpa [perform, free_of_live _ hlive] using ha.free ((ha.live_iff address).mp hlive)
      · simp only [perform, free_of_not_live _ hlive]
        rw [if_neg (by split <;> nofun)]
        exact ha

theorem accounted_after (calls : List Call) :
    Accounted (after calls).past (after calls).heap := by
  have hrun (c : Course) (ha : Accounted c.past c.heap) :
      Accounted (calls.foldl perform c).past (calls.foldl perform c).heap := by
    induction calls generalizing c with
    | nil => exact ha
    | cons call calls ih => exact ih (c.perform call) (accounted_perform ha call)
  exact hrun ⟨empty, []⟩ accounted_empty

/-- The heap answers as the history says, and a call that fails changes nothing. -/
structure AnswersByHistory (c : Course) : Prop where
  freed_iff (a : Nat) : (c.heap.free a).1 = .freed ↔ InUse c.past a
  alreadyFreed {a n : Nat} : FreedAgo a n c.past → n < recentLimit →
    (c.heap.free a).1 = .alreadyFreed
  freedAgo {a : Nat} : (c.heap.free a).1 = .alreadyFreed → ∃ n, FreedAgo a n c.past
  notOurs {a : Nat} : ¬ InUse c.past a → (∀ n, ¬ FreedAgo a n c.past) →
    (c.heap.free a).1 = .notOurs
  free_unchanged {a : Nat} : (c.heap.free a).1 ≠ .freed → (c.heap.free a).2 = c.heap
  reallocate_notOurs (offer : Option Nat) (a size : Nat) :
    c.heap.reallocate offer a size = .notOurs ↔ ¬ InUse c.past a
  reallocate_failed (offer : Option Nat) (a size : Nat) :
    c.heap.reallocate offer a size = .failed ↔ InUse c.past a ∧ offer = none
  reallocate_unchanged {offer : Option Nat} {a : Nat} (size : Nat) :
    ¬ InUse c.past a ∨ offer = none → c.perform (.reallocate offer a size) = c
  recent_not_inUse : ∀ a ∈ c.heap.recent, ¬ InUse c.past a
  recent_nodup : c.heap.recent.Nodup
  recent_length_le : c.heap.recent.length ≤ recentLimit

theorem answersByHistory_of_accounted (ha : Accounted c.past c.heap) : c.AnswersByHistory where
  freed_iff a := by
    rw [← ha.live_iff]
    by_cases hlive : c.heap.live.contains a = true
    · simp [free_of_live _ hlive, hlive]
    · rw [free_of_not_live _ hlive]
      split <;> simp [hlive]
  alreadyFreed hfreed hlate := by
    have hlive := mt (ha.live_iff _).mp hfreed.not_inUse
    rw [free_of_not_live _ hlive, if_pos (ha.kept hfreed hlate)]
  freedAgo {a} hfree := by
    by_cases hlive : c.heap.live.contains a = true
    · simp [free_of_live _ hlive] at hfree
    · rw [free_of_not_live _ hlive] at hfree
      refine ha.freed a (Decidable.byContradiction fun hmem => ?_)
      simp [hmem] at hfree
  notOurs {a} hidle hnever := by
    rw [free_of_not_live _ (mt (ha.live_iff a).mp hidle), if_neg]
    intro hmem
    obtain ⟨n, hfreed⟩ := ha.freed a hmem
    exact hnever n hfreed
  free_unchanged {a} hfree := by
    by_cases hlive : c.heap.live.contains a = true
    · simp [free_of_live _ hlive] at hfree
    · rw [free_of_not_live _ hlive]
  reallocate_notOurs offer a size := by
    rw [← ha.getElem?_eq_none_iff]
    cases hlive : c.heap.live[a]? <;> cases offer <;> simp [reallocate, hlive]
  reallocate_failed offer a size := by
    rw [← Decidable.not_not (p := InUse c.past a), ← ha.getElem?_eq_none_iff]
    cases hlive : c.heap.live[a]? <;> cases offer <;> simp [reallocate, hlive]
  reallocate_unchanged {offer a} size hfails := by
    rw [← ha.getElem?_eq_none_iff] at hfails
    rcases hfails with hidle | rfl
    · simp [perform, reallocate, hidle]
    · cases hlive : c.heap.live[a]? <;> simp [perform, reallocate, hlive]
  recent_not_inUse a hmem := by
    obtain ⟨n, hfreed⟩ := ha.freed a hmem
    exact hfreed.not_inUse
  recent_nodup := ha.nodup
  recent_length_le := ha.length_le

/-- After any calls, whatever addresses the outer allocator has offered, the heap answers as the
history says. -/
theorem answersByHistory_after (calls : List Call) :
    (after calls).AnswersByHistory :=
  answersByHistory_of_accounted (accounted_after calls)

example : ((after [.allocate (some 16) 1, .reallocate (some 32) 16 2, .free 32]).heap.free 32).1 =
    .alreadyFreed := rfl

end Course

end TypedHeap.LargeHeap
