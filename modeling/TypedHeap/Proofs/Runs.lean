import TypedHeap.Guard.Copy
import TypedHeap.Proofs.Builtins
import TypedHeap.Proofs.Checks
import TypedHeap.Proofs.Histories

/-! # Runs

A guard goes from state to state by operations on any addresses, with any answers of the system and
of the outer allocator. The state is reachable if every operation was permitted: blocks of the outer
allocator and foreign memory lie outside the reserved range. Every reachable state keeps the custody
of slots, whatever was called with which pointers.
-/

namespace TypedHeap

open Heap (Move Moves)

inductive Event where
  | allocate (size : Nat) (type : TypeHash) (grant : Grant)
  | allocateZeroed (count size : Nat) (type : TypeHash) (grant : Grant)
  | reallocate (address size : Nat) (grant : Grant)
  | free (address : Nat)
  | check (p : Pointer) (expected : TypeHash)
  | checkBounds (allowed : Bounds) (address : Nat) (lb ub : Int)
  | fill (target : Nat) (value : UInt8) (length : Nat)
  | copy (target source length : Nat)

def Guard.perform (g : Guard) : Event → Guard
  | .allocate size type grant => (g.allocate size type grant).2
  | .allocateZeroed count size type grant => (g.allocateZeroed count size type grant).2
  | .reallocate address size grant => (g.reallocate address size grant).2
  | .free address => g.free address
  | .check p expected => (g.checkPointer p expected).2
  | .checkBounds allowed address lb ub => g.checkBounds allowed address lb ub
  | .fill target value length => g.fill target value length
  | .copy target source length => g.copy target source length

def Grant.opening : Grant := ⟨none, none⟩

namespace Event

/-- Blocks are offered and foreign bytes are written outside the reserved range only. -/
def Permitted (g : Guard) : Event → Prop
  | allocate size _ grant => g.OffersOutside grant.block size
  | allocateZeroed count size _ grant => g.OffersOutside grant.block (count * size)
  | reallocate _ size grant => g.OffersOutside grant.block size
  | fill target _ length => g.heap.contains target = false → g.heap.range.Avoids target length
  | copy target _ length => g.heap.contains target = false → g.heap.range.Avoids target length
  | free _ | check .. | checkBounds .. => True

instance (g : Guard) : (e : Event) → Decidable (e.Permitted g)
  | allocate size _ grant => inferInstanceAs (Decidable (g.OffersOutside grant.block size))
  | allocateZeroed count size _ grant =>
      inferInstanceAs (Decidable (g.OffersOutside grant.block (count * size)))
  | reallocate _ size grant => inferInstanceAs (Decidable (g.OffersOutside grant.block size))
  | fill target _ length =>
      inferInstanceAs (Decidable (g.heap.contains target = false → g.heap.range.Avoids target length))
  | copy target _ length =>
      inferInstanceAs (Decidable (g.heap.contains target = false → g.heap.range.Avoids target length))
  | free _ => .isTrue trivial
  | check .. => .isTrue trivial
  | checkBounds .. => .isTrue trivial

def refusal : Event → Option String
  | allocate _ _ grant | allocateZeroed _ _ _ grant | reallocate _ _ grant => grant.refusal
  | free _ | check .. | checkBounds .. | fill .. | copy .. => none

/-- The event ends the allocation in the slot: it is freed, moved, or resized in its place. -/
def Ends (g : Guard) (s : Slot) : Event → Prop
  | free address => g.Heads address s
  | reallocate address size grant =>
      g.Heads address s ∧ ∃ b, (g.reallocate address size grant).1 = .ok b
  | _ => False

/-- The event frees or reallocates the object in the slot, or writes to the slot. -/
def Touches (g : Guard) (s : Slot) : Event → Prop
  | free address | reallocate address .. => g.Heads address s
  | fill target .. | copy target .. => g.heap.resolve? target = some s
  | allocate .. | allocateZeroed .. | check .. | checkBounds .. => False

theorem touches_of_ends {g : Guard} {s : Slot} {e : Event} (h : e.Ends g s) : e.Touches g s := by
  cases e with
  | free address => exact h
  | reallocate address size grant => exact h.1
  | _ => exact h.elim

end Event

namespace Guard

/-- What an operation does to the slots: it renews each of them once at most, ends the allocations in
those of which `ends` holds, and loses one only if the system opens no memory. -/
structure Effect (g g' : Guard) (refusal : Option String) (ends : Slot → Prop)
    (turns : List (Slot × Heap.Turn)) : Prop where
  moves : Moves g.registry g.heap turns g'.heap
  config_eq : g'.config = g.config
  registry_eq : g'.registry = g.registry
  once (s : Slot) : Heap.renewals s turns ≤ 1
  ends_iff (s : Slot) : Heap.endsIn s turns = true ↔ ends s
  refused {s : Slot} : (s, .lost) ∈ turns → refusal ≠ none

variable {g g' : Guard} {refusal : Option String}

theorem SameHeap.effect (h : g.SameHeap g') {ends : Slot → Prop} (hends : ∀ s, ¬ ends s) :
    g.Effect g' refusal ends [] := by
  refine ⟨?_, h.config_eq, h.registry_eq, fun s => Nat.zero_le _, fun s => ?_, nofun⟩
  · rw [h.heap_eq]
    exact .done g.heap
  · exact ⟨nofun, fun he => absurd he (hends s)⟩

theorem effect_of_move {s : Slot} {turn : Heap.Turn} (m : Move g.registry g.heap s turn g'.heap)
    (hconfig : g'.config = g.config) (hregistry : g'.registry = g.registry)
    (hrefused : turn = .lost → refusal ≠ none)
    {ends : Slot → Prop} (hends : ∀ t, ends t ↔ t = s ∧ turn.ends = true) :
    g.Effect g' refusal ends [(s, turn)] := by
  refine ⟨.one m, hconfig, hregistry, fun t => List.countP_le_length, fun t => ?_, fun hlost => ?_⟩
  case refine_2 => exact hrefused (Prod.mk.inj (List.mem_singleton.mp hlost)).2.symm
  rw [hends]
  simp only [Heap.endsIn, List.any_cons, List.any_nil, Bool.or_false, Bool.and_eq_true,
    decide_eq_true_eq]
  exact ⟨fun he => ⟨he.1.symm, he.2⟩, fun he => ⟨he.1.symm, he.2⟩⟩

theorem Placed.effect {size : Nat} {type : TypeHash} {fresh : Bounds}
    (hp : g.Placed size type refusal (.ok fresh) g') {ends : Slot → Prop} (hends : ∀ s, ¬ ends s) :
    ∃ turns, g.Effect g' refusal ends turns := by
  cases hp with
  | block _ same calm =>
      exact ⟨[], SameHeap.effect ⟨calm.config_eq, calm.registry_eq, same⟩ hends⟩
  | slot move calm =>
      exact ⟨_, effect_of_move move calm.config_eq calm.registry_eq nofun fun t =>
        ⟨fun he => absurd he (hends t), fun he => nomatch he.2⟩⟩

/-- An operation has its effect, or it stops at a fault and spares all objects but those it is
about. -/
inductive Outcome (g g' : Guard) (refusal : Option String) (ends about : Slot → Prop) : Prop where
  | ended {turns : List (Slot × Heap.Turn)} (effect : g.Effect g' refusal ends turns) :
      Outcome g g' refusal ends about
  | stopped (halted : g'.halted = true) (spared : g.heap.Spares g'.heap about) :
      Outcome g g' refusal ends about

theorem Placed.outcome {size : Nat} {type : TypeHash} {answer : Except AllocError Bounds}
    (hp : g.Placed size type refusal answer g') {ends : Slot → Prop} (hends : ∀ s, ¬ ends s)
    (about : Slot → Prop) : g.Outcome g' refusal ends about := by
  cases answer with
  | ok fresh =>
      obtain ⟨_, he⟩ := hp.effect hends
      exact .ended he
  | error e =>
      cases hp with
      | refused same calm =>
          exact .ended (SameHeap.effect ⟨calm.config_eq, calm.registry_eq, same⟩ hends)
      | lost refused move calm =>
          exact .ended (effect_of_move move calm.config_eq calm.registry_eq (fun _ => refused) fun t =>
            ⟨fun he => absurd he (hends t), fun he => nomatch he.2⟩)
      | worn halted _ spared => exact .stopped halted (spared.mono fun _ => False.elim)

theorem Heads.unique {address : Nat} {s t : Slot} (hs : g.Heads address s)
    (ht : g.Heads address t) : s = t := Option.some.inj (hs.resolved.symm.trans ht.resolved)

theorem Heads.iff {address : Nat} {s : Slot} (hs : g.Heads address s) (t : Slot) :
    g.Heads address t ↔ t = s :=
  ⟨fun ht => ht.unique hs, fun heq => heq ▸ hs⟩

theorem Reallocated.outcome {address size : Nat} {answer : Except AllocError Bounds}
    (hr : g.Reallocated address size refusal answer g') :
    g.Outcome g' refusal (fun s => g.Heads address s ∧ ∃ b, answer = .ok b) (g.Heads address) := by
  have hfails (e : AllocError) : ¬ ∃ b : Bounds, (.error e : Except AllocError Bounds) = .ok b := by
    rintro ⟨_, ⟨⟩⟩
  cases hr with
  | fresh null placed => exact placed.outcome (fun s hs => hs.1.ne_zero null) _
  | foreign resolved _ same =>
      refine .ended (same.effect fun s hs => ?_)
      cases resolved.symm.trans hs.1.resolved
  | refused same => exact .ended (same.effect fun s hs => hfails _ hs.2)
  | unplaced _ placed => exact placed.outcome (fun s hs => hfails _ hs.2) _
  | worn heads halted spared => exact .stopped halted (spared.mono fun t heq => heq ▸ heads)
  | inPlace heads move calm =>
      refine .ended (effect_of_move move calm.config_eq calm.registry_eq Heap.Turn.noConfusion
        fun t => ?_)
      rw [heads.iff]
      exact ⟨fun he => ⟨he.1, rfl⟩, fun he => ⟨he.1, _, rfl⟩⟩
  | @moved s type fresh g₁ _ heads placed move calm =>
      -- the moves that place the copy, and then the release of the old slot
      have hnone : ∀ t : Slot, ¬ False := fun _ => id
      obtain ⟨turns, he⟩ := placed.effect hnone
      refine @Outcome.ended _ _ _ _ _ (turns ++ [(s, .released)]) ⟨?_,
        calm.config_eq.trans he.config_eq, calm.registry_eq.trans he.registry_eq, fun t => ?_,
        fun t => ?_, fun {t} hlost => ?_⟩
      · exact he.moves.append (he.registry_eq ▸ move)
      · have honce := he.once t
        rw [Heap.renewals_append]
        simpa [Heap.renewals, Heap.Turn.renews] using honce
      · have hends := he.ends_iff t
        simp only [Heap.endsIn, List.any_append, Bool.or_eq_true] at hends ⊢
        rw [hends, heads.iff, false_or]
        simp only [List.any_cons, List.any_nil, Bool.or_false, Bool.and_eq_true,
          decide_eq_true_eq]
        exact ⟨fun he => ⟨he.1.symm, _, rfl⟩, fun he => ⟨he.1.symm, rfl⟩⟩
      · rcases List.mem_append.mp hlost with hfirst | hlast
        · exact he.refused hfirst
        · cases List.mem_singleton.mp hlast

theorem effect_checkPointer (k : g.heap.Kept g.registry) (p : Pointer) (expected : TypeHash) :
    ∃ turns, g.Effect (g.checkPointer p expected).2 none (fun _ => False) turns := by
  rcases checkPointer_heap k p expected with hsame | ⟨s, hm, hconfig, hregistry⟩
  · exact ⟨[], hsame.effect fun _ => id⟩
  · exact ⟨_, effect_of_move hm hconfig hregistry nofun fun t =>
      ⟨False.elim, fun he => nomatch he.2⟩⟩

/-- Every permitted operation is a sequence of moves that ends just the allocations it is to end,
unless a fault stops it. -/
theorem outcome_perform (k : g.heap.Kept g.registry) {e : Event} (hp : e.Permitted g) :
    g.Outcome (g.perform e) e.refusal (e.Ends g) (e.Touches g) := by
  cases e with
  | allocate size type grant => exact (placed_allocate k type hp).outcome (fun _ => id) _
  | allocateZeroed count size type grant =>
      exact (placed_allocateZeroed k type hp).outcome (fun _ => id) _
  | reallocate address size grant => exact (reallocated_reallocate k address hp).outcome
  | free address =>
      by_cases hh : ∃ s, g.Heads address s
      · obtain ⟨s, hs⟩ := hh
        obtain ⟨hm, hcalm⟩ := free_of_heads k hs
        refine .ended (effect_of_move hm hcalm.config_eq hcalm.registry_eq nofun fun t => ?_)
        exact (hs.iff t).trans ⟨fun heq => ⟨heq, rfl⟩, And.left⟩
      · have hnone : ∀ s, ¬ g.Heads address s := fun s hs => hh ⟨s, hs⟩
        exact .ended ((sameHeap_free k hnone).effect hnone)
  | check p expected =>
      obtain ⟨_, he⟩ := effect_checkPointer k p expected
      exact .ended he
  | checkBounds allowed address lb ub =>
      exact .ended ((g.sameParts_checkBounds allowed address lb ub).sameHeap.effect fun _ => id)
  | fill target value length => exact .ended ((sameHeap_fill k value hp).effect fun _ => id)
  | copy target source length => exact .ended ((sameHeap_copy k source hp).effect fun _ => id)

theorem effect_perform (k : g.heap.Kept g.registry) {e : Event} (hp : e.Permitted g)
    (hg : (g.perform e).halted = false) :
    ∃ turns, g.Effect (g.perform e) e.refusal (e.Ends g) turns := by
  cases outcome_perform k hp with
  | ended effect => exact ⟨_, effect⟩
  | stopped halted _ => exact nomatch hg.symm.trans halted

namespace Effect

variable {ends : Slot → Prop} {turns : List (Slot × Heap.Turn)} {s : Slot}

theorem kept (he : g.Effect g' refusal ends turns) (k : g.heap.Kept g.registry) :
    g'.heap.Kept g'.registry := he.registry_eq ▸ he.moves.kept k

theorem renewals_eq (he : g.Effect g' refusal ends turns) (k : g.heap.Kept g.registry)
    (hs : g'.heap.Sole s) :
    Heap.renewals s turns =
      if (g'.heap.headerAt s.base).epoch = (g.heap.headerAt s.base).epoch then 0 else 1 := by
  have hepoch := he.moves.epoch_eq k hs
  rcases Nat.le_one_iff_eq_zero_or_eq_one.mp (he.once s) with hzero | hone
  · rw [hepoch, hzero, if_pos (Nat.add_zero _)]
  · rw [hepoch, hone, if_neg (Nat.succ_ne_self _)]

end Effect

/-! ## Runs of events -/

/-- From `g` the events lead to `g'`, and the guard runs until then. -/
inductive Run : Guard → List Event → Guard → Prop where
  | done (g : Guard) : Run g [] g
  | step {g g' : Guard} {e : Event} {es : List Event} (permitted : e.Permitted g)
      (runs : (g.perform e).halted = false) (rest : Run (g.perform e) es g') : Run g (e :: es) g'

/-- A guard was created, with its reserved range in the address space, and events led to `g`. -/
inductive Reachable : Guard → Prop where
  | of {g₀ g : Guard} {config : Config} {registry : Registry} {raw : Nat}
      {skips : Nat → Nat} {es : List Event}
      (created : Guard.create config registry raw skips = .ok g₀)
      (addressable : g₀.heap.start + g₀.heap.range.size < Word.limit) (run : Run g₀ es g) :
      Reachable g

/-- The same, where all memory that was asked for was opened. -/
inductive Served : Guard → Prop where
  | of {g₀ g : Guard} {config : Config} {registry : Registry} {raw : Nat}
      {skips : Nat → Nat} {es : List Event}
      (created : Guard.create config registry raw skips = .ok g₀)
      (addressable : g₀.heap.start + g₀.heap.range.size < Word.limit) (run : Run g₀ es g)
      (granted : ∀ e ∈ es, e.refusal = none) : Served g

/-- Some event of the run ends the allocation in the slot. -/
def EndsIn (s : Slot) : Guard → List Event → Prop
  | _, [] => False
  | g, e :: es => e.Ends g s ∨ EndsIn s (g.perform e) es

def renewals (s : Slot) : Guard → List Event → Nat
  | _, [] => 0
  | g, e :: es =>
      (if ((g.perform e).heap.headerAt s.base).epoch = (g.heap.headerAt s.base).epoch then 0
        else 1) + renewals s (g.perform e) es

theorem create_eq_ok {config : Config} {registry : Registry} {raw : Nat}
    {skips : Nat → Nat} (hg : create config registry raw skips = .ok g) :
    ∃ heap, heap.Created config raw ∧
      g = ⟨config, registry, heap, .empty, .blank, .zero, [], false⟩ := by
  unfold create at hg
  cases hh : Heap.create config raw skips with
  | error e => simp [hh, Except.map] at hg
  | ok heap =>
      simp only [hh, Except.map, Except.ok.injEq] at hg
      exact ⟨heap, Heap.created_of_create hh, hg.symm⟩

theorem create_kept {config : Config} {registry : Registry} {raw : Nat}
    {skips : Nat → Nat} (hg : create config registry raw skips = .ok g) :
    g.heap.Kept g.registry ∧ g.registry = registry ∧ g.halted = false := by
  obtain ⟨heap, hcreated, rfl⟩ := create_eq_ok hg
  exact ⟨hcreated.kept registry, rfl, rfl⟩

namespace Run

variable {es : List Event} {s : Slot}

theorem append {g'' : Guard} {es' : List Event} (hr : g.Run es g') (hr' : g'.Run es' g'') :
    g.Run (es ++ es') g'' := by
  induction hr with
  | done => exact hr'
  | step permitted runs _ ih => exact .step permitted runs (ih hr')

theorem kept (hr : g.Run es g') (k : g.heap.Kept g.registry) : g'.heap.Kept g'.registry := by
  induction hr with
  | done => exact k
  | step permitted runs _ ih =>
      obtain ⟨_, he⟩ := effect_perform k permitted runs
      exact ih (he.kept k)

/-- What every move of a slot preserves, runs do. -/
theorem preserves {P : Heap → Prop}
    (hmove : ∀ {registry h h' s turn}, Move registry h s turn h' → P h → P h')
    (hr : g.Run es g') (k : g.heap.Kept g.registry) (hp : P g.heap) : P g'.heap := by
  induction hr with
  | done => exact hp
  | step permitted runs _ ih =>
      obtain ⟨_, he⟩ := effect_perform k permitted runs
      exact ih (he.kept k) (he.moves.preserves hmove hp)

theorem halted_eq (hr : g.Run es g') (hg : g.halted = false) : g'.halted = false := by
  induction hr with
  | done => exact hg
  | step _ runs _ ih => exact ih runs

theorem registry_eq (hr : g.Run es g') (k : g.heap.Kept g.registry) :
    g'.registry = g.registry := by
  induction hr with
  | done => rfl
  | step permitted runs _ ih =>
      obtain ⟨_, he⟩ := effect_perform k permitted runs
      exact (ih (he.kept k)).trans he.registry_eq

theorem range_eq (hr : g.Run es g') (k : g.heap.Kept g.registry) :
    g'.heap.range = g.heap.range := by
  induction hr with
  | done => rfl
  | step permitted runs _ ih =>
      obtain ⟨_, he⟩ := effect_perform k permitted runs
      exact (ih (he.kept k)).trans he.moves.range_eq

theorem resolve?_eq (hr : g.Run es g') (k : g.heap.Kept g.registry) (a : Nat) :
    g'.heap.resolve? a = g.heap.resolve? a := by
  induction hr with
  | done => rfl
  | step permitted runs _ ih =>
      obtain ⟨_, he⟩ := effect_perform k permitted runs
      exact (ih (he.kept k)).trans (he.moves.resolve?_eq k a)

theorem whole (hr : g.Run es g') (k : g.heap.Kept g.registry) (hw : g.heap.Whole)
    (granted : ∀ e ∈ es, e.refusal = none) : g'.heap.Whole := by
  induction hr with
  | done => exact hw
  | @step g g' e es permitted runs _ ih =>
      obtain ⟨turns, he⟩ := effect_perform k permitted runs
      have hopened := granted e List.mem_cons_self
      have hkept := he.moves.whole k hw fun s hlost => he.refused hlost hopened
      exact ih (he.kept k) hkept fun e' he' => granted e' (List.mem_cons_of_mem _ he')

theorem carved (hr : g.Run es g') (k : g.heap.Kept g.registry) (hc : g.heap.Carved s) :
    g'.heap.Carved s := hr.preserves (P := fun h => h.Carved s) (fun m => m.carved) k hc

theorem isSane (hr : g.Run es g') (k : g.heap.Kept g.registry) {base : Nat}
    (hsane : (g.heap.headerAt base).isSane = true) : (g'.heap.headerAt base).isSane = true := by
  induction hr with
  | done => exact hsane
  | step permitted runs _ ih =>
      obtain ⟨_, he⟩ := effect_perform k permitted runs
      exact ih (he.kept k) (he.moves.isSane k hsane)

theorem sole (hr : g.Run es g') (k : g.heap.Kept g.registry) (hs : g'.heap.Sole s) :
    g.heap.Sole s := fun _ ht => hs _ (hr.carved k ht)

/-- The epoch of a slot counts the events that renew it. -/
theorem epoch_eq (hr : g.Run es g') (k : g.heap.Kept g.registry) (hs : g'.heap.Sole s) :
    (g'.heap.headerAt s.base).epoch = (g.heap.headerAt s.base).epoch + g.renewals s es := by
  induction hr with
  | done g => rfl
  | step permitted runs rest ih =>
      obtain ⟨_, he⟩ := effect_perform k permitted runs
      have hnext := rest.sole (he.kept k) hs
      rw [ih (he.kept k) hs, he.moves.epoch_eq k hnext, he.renewals_eq k hnext, Nat.add_assoc]
      rfl

theorem untagged_eq (hr : g.Run es g') (k : g.heap.Kept g.registry) (hc : g.heap.Carved s)
    (hlive : (g.heap.headerAt s.base).isLive = true) (hends : ¬ g.EndsIn s es) :
    (g'.heap.headerAt s.base).untagged = (g.heap.headerAt s.base).untagged := by
  induction hr with
  | done => rfl
  | step permitted runs _ ih =>
      obtain ⟨turns, he⟩ := effect_perform k permitted runs
      have hnow : Heap.endsIn s turns = false := by
        rw [Bool.eq_false_iff]
        exact fun h => hends (.inl ((he.ends_iff s).mp h))
      have hstep := he.moves.untagged_eq k hc hlive hnow
      have hlive' := (congrArg Header.isLive hstep).trans hlive
      exact (ih (he.kept k) (he.moves.carved hc) hlive' fun h => hends (.inr h)).trans hstep

theorem idle (hr : g.Run es g') (k : g.heap.Kept g.registry) (hs : g'.heap.Sole s)
    (hidle : (g.heap.headerAt s.base).isLive = false) (hrenewals : g.renewals s es = 0) :
    (g'.heap.headerAt s.base).isLive = false := by
  induction hr with
  | done => exact hidle
  | step permitted runs rest ih =>
      obtain ⟨turns, he⟩ := effect_perform k permitted runs
      obtain ⟨hnow, hlater⟩ := Nat.add_eq_zero_iff.mp hrenewals
      have hnext := rest.sole (he.kept k) hs
      rw [← he.renewals_eq k hnext] at hnow
      exact ih (he.kept k) hs (he.moves.idle k hnext hidle hnow) hlater

theorem idle_of_ends (hr : g.Run es g') (k : g.heap.Kept g.registry) (hc : g.heap.Carved s)
    (hends : g.EndsIn s es) (hrenewals : g.renewals s es = 0) :
    (g'.heap.headerAt s.base).isLive = false := by
  induction hr with
  | done => exact hends.elim
  | step permitted runs rest ih =>
      obtain ⟨turns, he⟩ := effect_perform k permitted runs
      obtain ⟨hnow, hlater⟩ := Nat.add_eq_zero_iff.mp hrenewals
      have hcarved := he.moves.carved hc
      have hsole := (he.kept k).framed.sole hcarved
      rw [← he.renewals_eq k hsole] at hnow
      rcases hends with hfirst | hrest
      · have hidle := he.moves.idle_of_ends k hc ((he.ends_iff s).mpr hfirst) hnow
        have hlast := (rest.kept (he.kept k)).framed.sole (rest.carved (he.kept k) hcarved)
        exact rest.idle (he.kept k) hlast hidle hlater
      · exact ih (he.kept k) hcarved hrest hlater

end Run

namespace Reachable

theorem kept (hr : g.Reachable) : g.heap.Kept g.registry := by
  cases hr with
  | of created _ run => exact run.kept (create_kept created).1

theorem halted_eq (hr : g.Reachable) : g.halted = false := by
  cases hr with
  | of created _ run => exact run.halted_eq (create_kept created).2.2

/-- What new heaps have and every move of a slot preserves holds in every reachable state. -/
theorem preserves {P : Heap → Prop}
    (hmove : ∀ {registry h h' s turn}, Move registry h s turn h' → P h → P h')
    (hcreated : ∀ {config raw h}, Heap.Created config raw h → P h) (hr : g.Reachable) :
    P g.heap := by
  cases hr with
  | of created _ run =>
      refine run.preserves hmove (create_kept created).1 ?_
      obtain ⟨heap, hheap, rfl⟩ := create_eq_ok created
      exact hcreated hheap

theorem finish_lt (hr : g.Reachable) : g.heap.start + g.heap.range.size < Word.limit := by
  cases hr with
  | of created addressable run =>
      rw [Heap.start, run.range_eq (create_kept created).1]
      exact addressable

theorem later {es : List Event} (hr : g.Reachable) (run : g.Run es g') : g'.Reachable := by
  cases hr with
  | of created addressable first => exact .of created addressable (first.append run)

end Reachable

namespace Served

theorem reachable (hg : g.Served) : g.Reachable := by
  cases hg with
  | of created addressable run _ => exact .of created addressable run

theorem whole (hg : g.Served) : g.heap.Whole := by
  cases hg with
  | of created _ run granted =>
      obtain ⟨heap, hheap, rfl⟩ := create_eq_ok created
      exact run.whole (create_kept created).1 hheap.whole granted

theorem later {es : List Event} (hg : g.Served) (run : g.Run es g')
    (hes : ∀ e ∈ es, e.refusal = none) : g'.Served := by
  cases hg with
  | of created addressable first granted =>
      refine .of created addressable (first.append run) fun e he => ?_
      rcases List.mem_append.mp he with hfirst | hlast
      · exact granted e hfirst
      · exact hes e hlast

end Served

/-- The events are permitted one after the other, and the guard runs through them. -/
def runsThrough (g : Guard) : List Event → Bool
  | [] => true
  | e :: es => decide (e.Permitted g) && !(g.perform e).halted && (g.perform e).runsThrough es

theorem run_of_runsThrough {g : Guard} {es : List Event} (h : g.runsThrough es = true) :
    g.Run es (es.foldl perform g) := by
  induction es generalizing g with
  | nil => exact .done g
  | cons e es ih =>
      simp only [runsThrough, Bool.and_eq_true, decide_eq_true_eq, Bool.not_eq_true'] at h
      exact .step h.1.1 h.1.2 (ih h.2)

def smallest : Guard :=
  (create ⟨false, false, false, false, 20, false⟩ (.builtins .spread) 0x100000
    fun _ => 0).toOption.get (by decide +kernel)

theorem served_smallest : smallest.Served := by
  have hcreated : create ⟨false, false, false, false, 20, false⟩ (.builtins .spread) 0x100000
    (fun _ => 0) = .ok smallest := rfl
  exact .of hcreated (by decide +kernel) (.done smallest) nofun

theorem reachable_smallest : smallest.Reachable := served_smallest.reachable

def occupied : Guard := smallest.perform (.allocate 12 (.ofName NameHasher.spread "int32_t") .opening)

theorem reachable_occupied : occupied.Reachable :=
  reachable_smallest.later (.step (by decide +kernel) rfl (.done occupied))

def recycling : List Event := [
  .allocate 12 (.ofName NameHasher.spread "double") .opening,
  .free 0x400030,
  .reallocate 0x400070 100 .opening,
  .allocate 8 (.ofName NameHasher.spread "int32_t") .opening,
  .fill 0x400070 0xFF 12]

def recycled : Guard := recycling.foldl perform occupied

theorem run_recycling : occupied.Run recycling recycled :=
  .step (by decide +kernel) rfl (.step trivial rfl (.step (by decide +kernel) rfl
    (.step (by decide +kernel) rfl (.step (by decide +kernel) rfl (.done recycled)))))

end Guard

end TypedHeap
