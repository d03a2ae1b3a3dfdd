import TypedHeap.Proofs.Congruence
import TypedHeap.Proofs.Supply

/-! # Frees

A free is judged by what became of the slot of its address before. It ends an allocation, and the
slot waits in its region behind the others; or it reports one violation, and nothing else changes.
Whether one thread alone uses the heap makes no difference.
-/

namespace TypedHeap

open Heap (Move)

namespace Guard

variable {g g' : Guard}

/-! ## One thread or many -/

def usedAlone (g : Guard) (alone : Bool) : Guard :=
  { g with config := { g.config with singleThreaded := alone } }

theorem congruence_usedAlone (alone : Bool) : Congruence fun g g' => g' = g.usedAlone alone := by
  have hspares : SparesAccount (·.usedAlone alone) := ⟨fun _ => rfl, fun _ => rfl, fun _ => rfl,
    fun _ => rfl, fun _ => rfl, fun _ _ => rfl, fun _ _ => rfl, fun _ _ => rfl⟩
  refine congruence_of_sameState (fun h => ?_) (fun h s => ?_) fun {g _} h n => ?_
  · exact h ▸ ⟨rfl, rfl, rfl, rfl⟩
  · exact h ▸ rfl
  · exact h ▸ hspares.note (fun _ => rfl) g n

theorem free_usedAlone (g : Guard) (alone : Bool) (address : Nat) :
    (g.usedAlone alone).free address = (g.free address).usedAlone alone :=
  (congruence_usedAlone alone).free rfl address

/-! ## What a free comes to -/

/-- The slot is free, and waits in its region behind those that waited before. -/
structure Retires (g g' : Guard) (s : Slot) : Prop where
  freed : ∃ header, g'.heap.claimed? s = some header ∧ header.phase = some .freed
  queued : ∃ r r', g.heap.region? s.region = some r ∧ g'.heap.region? s.region = some r' ∧
    s.base ∉ r.free.toList ∧ r'.free.toList = r.free.toList ++ [s.base]

/-- Freeing the start of an object in use retires its slot. -/
theorem retires_free (k : g.heap.Kept g.registry) {address : Nat} {s : Slot}
    (hh : g.Heads address s) : g.Retires (g.free address) s := by
  obtain ⟨hm, _⟩ := free_of_heads k hh
  obtain ⟨r, hs, _⟩ := k.framed.resolve?_eq_some_iff.mp hh.resolved
  obtain ⟨hout, hregion⟩ := putBack_free k hh hs.region_eq
  obtain ⟨r', hs', hcarves'⟩ := hm.carved_self k
  have hphase : ((g.free address).heap.headerAt s.base).phase = some .freed :=
    congrArg Header.phase (hm.headerAt_self k)
  have hne : (g.free address).heap.headerAt s.base ≠ .blank := fun heq => nomatch heq ▸ hphase
  exact ⟨⟨_, ((k.move hm).claimed?_eq_some_iff hs').mpr ⟨hcarves', rfl, hne⟩, hphase⟩, r, _,
    hs.region_eq, hregion, hout, Queue.toList_push ..⟩

theorem Spent.not_heads (k : g.heap.Kept g.registry) {address : Nat} {s : Slot}
    (hs : g.Spent address s) : ¬ g.Heads address s := by
  intro hh
  obtain ⟨r, header, hslot, hl⟩ := hh.inSlot k.framed
  obtain ⟨old, hclaimed, hphase⟩ := hs.freed
  obtain ⟨_, rfl, hlive⟩ := (k.live?_eq_some_iff hslot).mp hl
  obtain ⟨_, rfl, _⟩ := (k.claimed?_eq_some_iff hslot).mp hclaimed
  exact nomatch (Header.phase_of_isLive hlive).symm.trans hphase

/-- What a free of an address in the slot `s` comes to. -/
inductive FreeOutcome (g : Guard) (address : Nat) (s : Slot) : Guard → Prop where
  | released {g' : Guard} (heads : g.Heads address s) (retires : g.Retires g' s)
      (calm : g.Calm g') : FreeOutcome g address s g'
  | again {g' : Guard} (spent : g.Spent address s) (same : g.SameParts g')
      (reported : g'.violations = g.violations ++ [.doubleFree address]) : FreeOutcome g address s g'
  | astray {g' : Guard} (not_heads : ¬ g.Heads address s) (not_spent : ¬ g.Spent address s)
      (same : g.SameParts g') {reason : String}
      (reported : g'.violations = g.violations ++ [.badFree address reason]) :
      FreeOutcome g address s g'

theorem outcome_free (k : g.heap.Kept g.registry) (hg : g.halted = false) {address : Nat} {s : Slot}
    (hres : g.heap.resolve? address = some s) (hne : address ≠ 0) :
    g.FreeOutcome address s (g.free address) := by
  by_cases hh : g.Heads address s
  · exact .released hh (retires_free k hh) (free_of_heads k hh).2
  · have hb := g.silent_bump .frees
    obtain ⟨v, hfree, hjudged⟩ := free_of_not_heads k hres hh hne
    have hsame : g.SameParts (g.free address) := by
      rw [hfree]
      exact hb.toSameParts.trans (sameParts_report ..)
    have hreported : (g.free address).violations = g.violations ++ [v] := by
      rw [hfree, violations_report (hb.halted_eq.trans hg), hb.violations_eq]
    rcases hjudged with ⟨hspent, rfl⟩ | ⟨hnot, reason, rfl⟩
    · exact .again hspent hsame hreported
    · exact .astray hh hnot hsame hreported

/-- In every reachable state, a free of an address in the reserved range reports nothing iff an
object in use starts there, and then its slot waits behind the others of its region. It reports a
double free iff an object that was freed last started there, a bad free in all other cases, and
changes nothing but the account whenever it reports. None of it depends on whether one thread alone
uses the heap. -/
theorem free_judged (hr : g.Reachable) {address : Nat} (hc : g.heap.contains address = true)
    (hne : address ≠ 0) :
    ∃ s, g.heap.resolve? address = some s ∧
      ((g.free address).violations = g.violations ↔ g.Heads address s) ∧
      ((g.free address).violations = g.violations ++ [.doubleFree address] ↔
        g.Spent address s) ∧
      ((∃ reason, (g.free address).violations = g.violations ++ [.badFree address reason]) ↔
        ¬ g.Heads address s ∧ ¬ g.Spent address s) ∧
      (g.Heads address s → g.Retires (g.free address) s) ∧
      ((g.free address).violations ≠ g.violations → g.SameParts (g.free address)) ∧
      ∀ alone, (g.usedAlone alone).free address = (g.free address).usedAlone alone := by
  have k := hr.kept
  obtain ⟨s, hres⟩ := k.framed.exists_slot_of_contains hc
  refine ⟨s, hres, ?_⟩
  have hcase := outcome_free k hr.halted_eq hres hne
  have halone (alone : Bool) := free_usedAlone g alone address
  generalize g.free address = after at hcase halone
  cases hcase with
  | released heads retires calm =>
      have hnot : ¬ g.Spent address s := fun hs => hs.not_heads k heads
      simp [calm.violations_eq, heads, retires, hnot, halone]
  | again spent same reported =>
      simp [reported, spent, spent.not_heads k, same, halone]
  | astray not_heads not_spent same reported =>
      simp [reported, not_heads, not_spent, same, halone]

/-- The object at `0x400030` is in use and the one at `0x400070` was moved away. -/
theorem recycled_free_judged :
    recycled.Reachable ∧ (recycled.free 0x400030).violations = recycled.violations ∧
      (recycled.free 0x400070).violations = recycled.violations ++ [.doubleFree 0x400070] ∧
      ∃ reason, (recycled.free 0x400034).violations =
        recycled.violations ++ [.badFree 0x400034 reason] := by
  have hr := reachable_occupied.later run_recycling
  have hlive : recycled.heap.resolve? 0x400030 = some ⟨3, 0x400000, 64⟩ := by decide +kernel
  have hgone : recycled.heap.resolve? 0x400070 = some ⟨3, 0x400040, 64⟩ := by decide +kernel
  have hinside : recycled.heap.resolve? 0x400034 = some ⟨3, 0x400000, 64⟩ := by decide +kernel
  have hcontains : recycled.heap.contains 0x400030 = true ∧
      recycled.heap.contains 0x400070 = true ∧ recycled.heap.contains 0x400034 = true := by
    decide +kernel
  refine ⟨hr, ?_, ?_, ?_⟩
  · obtain ⟨s, hres, hsilent, _⟩ := free_judged hr hcontains.1 (by decide)
    obtain rfl := Option.some.inj (hlive.symm.trans hres)
    exact hsilent.mpr ⟨hres, rfl, by decide +kernel⟩
  · obtain ⟨s, hres, _, hdouble, _⟩ := free_judged hr hcontains.2.1 (by decide)
    obtain rfl := Option.some.inj (hgone.symm.trans hres)
    have hphase : (recycled.heap.claimed? ⟨3, 0x400040, 64⟩).map (·.phase) =
        some (some .freed) := by decide +kernel
    exact hdouble.mpr ⟨hres, rfl, Option.map_eq_some_iff.mp hphase⟩
  · obtain ⟨s, hres, _, _, hbad, _⟩ := free_judged hr hcontains.2.2 (by decide)
    obtain rfl := Option.some.inj (hinside.symm.trans hres)
    exact hbad.mpr ⟨fun h => absurd h.user_eq (by decide), fun h => absurd h.user_eq (by decide)⟩

end Guard

end TypedHeap
