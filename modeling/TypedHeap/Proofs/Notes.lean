import TypedHeap.Guard.Check
import TypedHeap.Proofs.Account

/-! # Notes

An operation tells the account of its guard what it does in notes: what is counted, the lines and
traces to write, violations, and the end. What becomes of a note is for the configuration to say,
and it is entered in the account alone.
-/

namespace TypedHeap

/-! ## What is counted besides violations -/

namespace Counter

def Plain (c : Counter) : Prop := ∀ f : Fault, f.counter ≠ c

def ways : List Counter := [registryLookups, fastTypeChecks, slowTypeChecks, charTypeChecks,
  nonFatTypeChecks, probeLimitMisses]

theorem plain_of_mem_ways {c : Counter} (h : c ∈ ways) : c.Plain := by
  intro f hf
  subst hf
  cases f <;> revert h <;> decide

end Counter

theorem Fault.counter_injective {f f' : Fault} (h : f.counter = f'.counter) : f = f' := by
  cases f <;> cases f' <;> first | rfl | nomatch h

theorem Fault.alwaysOn_counter (f : Fault) : f.counter.alwaysOn = true := by cases f <;> rfl

namespace Verdict

theorem ofOffset_counters (registry : Registry) (slot : Slot) (size : Nat) (cache : Cache.Chain)
    (owner : TypeRecord) (address : Nat) (expected : TypeHash) (offset : Nat) :
    (ofOffset registry slot size cache owner address expected offset).counters ⊆ Counter.ways := by
  have hrecalled : [Counter.fastTypeChecks] ⊆ Counter.ways := by decide
  have hfound : [Counter.slowTypeChecks, .registryLookups] ⊆ Counter.ways := by decide
  have hmissed (missed : Layout.Lookup) : [.slowTypeChecks, .registryLookups] ++
      (if missed = .probeLimit then [.probeLimitMisses] else []) ⊆ Counter.ways := by
    split <;> decide
  have hcoerced (missed : Layout.Lookup) := List.append_subset.mpr
    ⟨hmissed missed, (by decide : [Counter.registryLookups] ⊆ Counter.ways)⟩
  unfold ofOffset
  simp only
  split
  · exact hrecalled
  · split
    · exact hfound
    · split
      · exact hmissed _
      · split
        · exact hcoerced _
        · exact hcoerced _

theorem ofType_counters (registry : Registry) (slot : Slot) (size : Nat) (cache : Cache.Chain)
    (owner : TypeRecord) (address : Nat) (expected : TypeHash) :
    (ofType registry slot size cache owner address expected).counters ⊆ Counter.ways := by
  unfold ofType
  split
  · exact List.nil_subset _
  · exact ofOffset_counters ..

theorem ofLive_counters (registry : Registry) (slot : Slot) (header : Header) (cache : Cache.Chain)
    (p : Pointer) (expected : TypeHash) :
    (ofLive registry slot header cache p expected).counters ⊆ Counter.ways := by
  have hwhole : [Counter.charTypeChecks] ⊆ Counter.ways := by decide
  unfold ofLive
  simp only
  split
  · exact List.nil_subset _
  · split
    · exact hwhole
    · split
      · exact List.nil_subset _
      · split
        · exact List.nil_subset _
        · exact ofType_counters ..

end Verdict

theorem Guard.judge_counters (g : Guard) (p : Pointer) (expected : TypeHash) :
    (g.judge p expected).counters ⊆ Counter.ways := by
  have hforeign : [Counter.nonFatTypeChecks] ⊆ Counter.ways := by decide
  unfold judge
  simp only
  split
  · exact hforeign
  · split
    · exact List.nil_subset _
    · split
      · exact List.nil_subset _
      · split
        · exact List.nil_subset _
        · split
          · exact List.nil_subset _
          · split
            · exact List.nil_subset _
            · exact Verdict.ofLive_counters ..

/-! ## Notes -/

theorem Line.violation?_of_isTrace {l : Line} (h : l.isTrace = true) : l.violation? = none := by
  cases l <;> first | rfl | nomatch h

/-- What an operation tells the account of its guard. -/
inductive Note where
  | count (c : Counter) (plain : c.Plain)
  | line (l : Line) (quiet : l.violation? = none)
  | trace (l : Line) (traced : l.isTrace = true)
  | violation (v : Violation)
  /-- The end, which no switch decides on. -/
  | stop (l : Line) (quiet : l.violation? = none)

namespace Guard

def note (g : Guard) : Note → Guard
  | .count c _ => g.bump c
  | .line l _ => g.write l
  | .trace l _ => g.trace l
  | .violation v => g.report v
  | .stop l _ => g.halt l

/-! ## What becomes of notes -/

theorem note_of_halted {g : Guard} (hg : g.halted = true) (n : Note) : g.note n = g := by
  have hhalt (l : Line) : g.halt l = g := by
    rw [halt, write_of_halted hg, ← hg]
  cases n with
  | count c _ => exact bump_of_halted hg c
  | line l _ => exact write_of_halted hg l
  | trace l _ => simp only [note, trace, write_of_halted hg, ite_self]
  | violation v =>
      simp only [note, report, bump_of_halted hg, write_of_halted hg, hhalt, ite_self]
  | stop l _ => exact hhalt l

theorem journal_bump (g : Guard) (c : Counter) : (g.bump c).journal = g.journal := by
  rw [bump_eq]

theorem suffix_write (g : Guard) (l : Line) : g.journal <:+ (g.write l).journal := by
  unfold write
  split
  · exact List.suffix_refl _
  · exact List.suffix_cons ..

theorem suffix_note (g : Guard) (n : Note) : g.journal <:+ (g.note n).journal := by
  cases n with
  | count c _ => simp only [note, journal_bump, List.suffix_refl]
  | line l _ => exact g.suffix_write l
  | trace l _ =>
      unfold note trace
      simp only
      split
      · exact g.suffix_write l
      · exact List.suffix_refl _
  | violation v =>
      have hwritten := (g.bump v.fault.counter).suffix_write (.violation v)
      rw [journal_bump] at hwritten
      unfold note report
      simp only
      split
      · exact hwritten.trans (suffix_write ..)
      · exact hwritten
  | stop l _ => exact g.suffix_write l

/-- All notes but violations change neither the violations nor their counters. -/
theorem quiet_note {n : Note} (hn : ∀ v, n ≠ .violation v) (g : Guard) :
    (g.note n).violations = g.violations ∧
      ∀ f : Fault, (g.note n).tally.get f.counter = g.tally.get f.counter := by
  cases n with
  | count c plain =>
      exact ⟨(g.silent_bump c).violations_eq, fun f => g.get_bump_of_ne fun heq => plain f heq.symm⟩
  | line l quiet =>
      exact ⟨(g.silent_write quiet).violations_eq,
        fun f => congrArg (Tally.get · f.counter) (g.tally_write l)⟩
  | trace l traced =>
      exact ⟨(g.silent_trace (Line.violation?_of_isTrace traced)).violations_eq,
        fun f => congrArg (Tally.get · f.counter) (g.tally_trace l)⟩
  | violation v => exact absurd rfl (hn v)
  | stop l quiet =>
      exact ⟨(g.silent_write quiet).violations_eq,
        fun f => congrArg (Tally.get · f.counter) (g.tally_write l)⟩

theorem get_counter_report {g : Guard} (hg : g.halted = false) (v : Violation) (f : Fault) :
    (g.report v).tally.get f.counter =
      g.tally.get f.counter + if v.fault = f then 1 else 0 := by
  rw [get_report hg f.alwaysOn_counter]
  by_cases hf : v.fault = f
  · rw [if_pos hf, if_pos (congrArg Fault.counter hf)]
  · rw [if_neg hf, if_neg fun heq => hf (Fault.counter_injective heq)]

structure SameState (g g' : Guard) : Prop where
  registry_eq : g'.registry = g.registry
  heap_eq : g'.heap = g.heap
  large_eq : g'.large = g.large
  memory_eq : g'.memory = g.memory

namespace SameState

variable {g g' g'' : Guard}

theorem symm (h : g.SameState g') : g'.SameState g :=
  ⟨h.registry_eq.symm, h.heap_eq.symm, h.large_eq.symm, h.memory_eq.symm⟩

theorem trans (h : g.SameState g') (h' : g'.SameState g'') : g.SameState g'' :=
  ⟨h'.registry_eq.trans h.registry_eq, h'.heap_eq.trans h.heap_eq, h'.large_eq.trans h.large_eq,
    h'.memory_eq.trans h.memory_eq⟩

end SameState

theorem SameParts.sameState {g g' : Guard} (h : g.SameParts g') : g.SameState g' :=
  ⟨h.registry_eq, h.heap_eq, h.large_eq, h.memory_eq⟩

theorem sameState_note (g : Guard) (n : Note) : g.SameState (g.note n) := by
  cases n with
  | count c _ => exact (g.silent_bump c).sameState
  | line l _ => exact (g.sameParts_write l).sameState
  | trace l traced => exact (g.silent_trace (Line.violation?_of_isTrace traced)).sameState
  | violation v => exact (g.sameParts_report v).sameState
  | stop l _ => exact (g.sameParts_halt l).sameState

/-! ## What leaves the account alone -/

/-- `f` changes nothing of the account, and no switch that decides on a note other than a
violation. -/
structure SparesAccount (f : Guard → Guard) : Prop where
  profile_eq (g : Guard) : (f g).config.profile = g.config.profile
  debug_eq (g : Guard) : (f g).config.debug = g.config.debug
  tally_eq (g : Guard) : (f g).tally = g.tally
  journal_eq (g : Guard) : (f g).journal = g.journal
  halted_eq (g : Guard) : (f g).halted = g.halted
  withTally (g : Guard) (tally : Tally) : f { g with tally } = { f g with tally }
  withJournal (g : Guard) (journal : List Line) : f { g with journal } = { f g with journal }
  withHalted (g : Guard) (halted : Bool) : f { g with halted } = { f g with halted }

namespace SparesAccount

variable {f : Guard → Guard}

theorem bump (hf : SparesAccount f) (g : Guard) (c : Counter) : (f g).bump c = f (g.bump c) := by
  have hpassed : ((f g).halted || !(f g).counts c) = (g.halted || !g.counts c) := by
    rw [counts, hf.halted_eq, hf.profile_eq, counts]
  unfold Guard.bump
  rw [hpassed, hf.tally_eq]
  simp only [Tally.countOnce_eq]
  split
  · rfl
  · exact (hf.withTally ..).symm

theorem write (hf : SparesAccount f) (g : Guard) (line : Line) :
    (f g).write line = f (g.write line) := by
  have hhalted := hf.halted_eq g
  cases hg : g.halted with
  | true => rw [write_of_halted (hhalted.trans hg), write_of_halted hg]
  | false =>
      rw [write_of_running (hhalted.trans hg), write_of_running hg, hf.journal_eq]
      exact (hf.withJournal ..).symm

theorem trace (hf : SparesAccount f) (g : Guard) (line : Line) :
    (f g).trace line = f (g.trace line) := by
  unfold Guard.trace
  rw [hf.debug_eq, hf.write]
  split <;> rfl

theorem halt (hf : SparesAccount f) (g : Guard) (line : Line) :
    (f g).halt line = f (g.halt line) := by
  unfold Guard.halt
  rw [hf.write]
  exact (hf.withHalted ..).symm

theorem note (hf : SparesAccount f) (hfatal : ∀ g : Guard, (f g).config.fatal = g.config.fatal)
    (g : Guard) (n : Note) : (f g).note n = f (g.note n) := by
  cases n with
  | count c _ => exact hf.bump g c
  | line l _ => exact hf.write g l
  | trace l _ => exact hf.trace g l
  | violation v =>
      simp only [Guard.note, report, hf.bump, hf.write, hf.halt, hfatal]
      split <;> rfl
  | stop l _ => exact hf.halt g l

end SparesAccount

end Guard

end TypedHeap
