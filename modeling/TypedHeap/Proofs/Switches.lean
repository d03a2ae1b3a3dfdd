import Mathlib.Data.List.Forall2
import TypedHeap.Proofs.Requests
import TypedHeap.Proofs.SubObjects

/-! # Runs under other switches

Tracing, profiling and the use by one thread decide what becomes of notes and nothing else, so runs
that differ in them cannot be told apart. A run that is to stop at the first violation is the run
that goes on, cut off where that one reports first.
-/

namespace TypedHeap

/-- Both fail alike, or both succeed with results that are related. -/
inductive Paired {ε α β : Type} (R : α → β → Prop) : Except ε α → Except ε β → Prop where
  | error (e : ε) : Paired R (.error e) (.error e)
  | ok {a : α} {b : β} (related : R a b) : Paired R (.ok a) (.ok b)

namespace Guard

variable {g₀ g g' : Guard}

/-! ## Courses -/

/-- What requests made one after the other come to: the answers with the guard behind each. The
request at which a guard comes to an end gets no answer, and is the last one. -/
def course (g : Guard) : List Request → List (Option Answer × Guard)
  | [] => []
  | r :: rs =>
      let (answer, next) := g.reply judge r
      if next.halted then [(none, next)] else (some answer, next) :: next.course rs

/-! ## Accounts under other switches -/

def written (g : Guard) : List Line := g.journal.filter (!·.isTrace)

theorem trace_eq (g : Guard) (l : Line) : g.trace l = { g with journal := (g.trace l).journal } := by
  unfold trace write
  repeat' split
  all_goals rfl

theorem written_trace {l : Line} (traced : l.isTrace = true) (g : Guard) :
    (g.trace l).written = g.written := by
  unfold trace Guard.write
  split
  · split
    · rfl
    · simp [written, traced]
  · rfl

/-- The guards agree in all but traces, the counters that only profiled checks keep, and the
switches that decide on them. -/
structure Agrees (g g' : Guard) : Prop extends SameState g g' where
  fatal_eq : g'.config.fatal = g.config.fatal
  halted_eq : g'.halted = g.halted
  written_eq : g'.written = g.written
  tally_eq {c : Counter} (always : c.alwaysOn = true) : g'.tally.get c = g.tally.get c

namespace Agrees

theorem violations_eq (ha : g.Agrees g') : g'.violations = g.violations := by
  have hwritten (g : Guard) : g.violations = (g.written.filterMap Line.violation?).reverse := by
    have hquiet (l : Line) : (if !l.isTrace then l.violation? else none) = l.violation? := by
      cases l <;> rfl
    simp only [violations, written, List.filterMap_filter, hquiet]
  rw [hwritten, ha.written_eq, ← hwritten]

theorem bump (ha : g.Agrees g') (c : Counter) : (g.bump c).Agrees (g'.bump c) := by
  cases hg : g.halted with
  | true =>
      rw [bump_of_halted hg, bump_of_halted (ha.halted_eq.trans hg)]
      exact ha
  | false =>
      have hcounted {d : Counter} (always : d.alwaysOn = true) :
          (g'.bump c).tally.get d = (g.bump c).tally.get d := by
        rw [get_bump (ha.halted_eq.trans hg) always, get_bump hg always, ha.tally_eq always]
      rw [bump_eq g, bump_eq g']
      exact { ha with tally_eq := hcounted }

theorem write (ha : g.Agrees g') (l : Line) : (g.write l).Agrees (g'.write l) := by
  cases hg : g.halted with
  | true =>
      rw [write_of_halted hg, write_of_halted (ha.halted_eq.trans hg)]
      exact ha
  | false =>
      have hwritten : g'.journal.filter (!·.isTrace) = g.journal.filter (!·.isTrace) := ha.written_eq
      rw [write_of_running hg, write_of_running (ha.halted_eq.trans hg)]
      exact { ha with written_eq := by simp only [written, List.filter_cons, hwritten] }

theorem trace (ha : g.Agrees g') {l : Line} (traced : l.isTrace = true) :
    (g.trace l).Agrees (g'.trace l) := by
  have hwritten : (g'.trace l).written = (g.trace l).written := by
    rw [written_trace traced, written_trace traced, ha.written_eq]
  rw [trace_eq g, trace_eq g']
  exact { ha with written_eq := hwritten }

theorem halt (ha : g.Agrees g') (l : Line) : (g.halt l).Agrees (g'.halt l) :=
  { ha.write l with halted_eq := rfl }

theorem report (ha : g.Agrees g') (v : Violation) : (g.report v).Agrees (g'.report v) := by
  have hwritten := (ha.bump v.fault.counter).write (.violation v)
  unfold Guard.report
  simp only [hwritten.fatal_eq]
  split
  · exact hwritten.halt _
  · exact hwritten

theorem note (ha : g.Agrees g') (n : Note) : (g.note n).Agrees (g'.note n) := by
  cases n with
  | count c _ => exact ha.bump c
  | line l _ => exact ha.write l
  | trace l traced => exact ha.trace traced
  | violation v => exact ha.report v
  | stop l _ => exact ha.halt l

end Agrees

theorem congruence_agrees : Congruence Agrees :=
  congruence_of_sameState Agrees.toSameState
    (fun ha _ => { ha with registry_eq := rfl, heap_eq := rfl, large_eq := rfl, memory_eq := rfl })
    Agrees.note

/-- The same answer or none, the same violations, and guards that agree. -/
inductive SameStep : Option Answer × Guard → Option Answer × Guard → Prop where
  | intro {answer : Option Answer} {g g' : Guard} (agrees : g.Agrees g')
      (violations_eq : g'.violations = g.violations) : SameStep (answer, g) (answer, g')

theorem Agrees.course (ha : g.Agrees g') (rs : List Request) :
    List.Forall₂ SameStep (g.course rs) (g'.course rs) := by
  induction rs generalizing g g' with
  | nil => exact .nil
  | cons r rs ih =>
      have hreply := congruence_agrees.reply_judge Agrees.toSameState ha r
      unfold Guard.course
      generalize g.reply judge r = first, g'.reply judge r = first' at hreply
      cases hreply with
      | intro hrelated =>
          have hnext := hrelated.related Agrees.halted_eq
          simp only [hnext.halted_eq]
          split
          · exact .cons (.intro hnext hnext.violations_eq) .nil
          · exact .cons (.intro hnext hnext.violations_eq) (ih hnext)

/-! ## Stopping at the first violation -/

def strict (g : Guard) : Guard := { g with config := { g.config with fatal := true } }

theorem sameState_strict (g : Guard) : g.SameState g.strict := ⟨rfl, rfl, rfl, rfl⟩

theorem sparesAccount_strict : SparesAccount strict :=
  ⟨fun _ => rfl, fun _ => rfl, fun _ => rfl, fun _ => rfl, fun _ => rfl, fun _ _ => rfl,
    fun _ _ => rfl, fun _ _ => rfl⟩

/-- After `g₀`, the guard `g'` came to an end at the violation `v`, while `g` went on. It has written
the lines that `g` wrote up to `v`, which is the first one among them, has counted it and is done. -/
structure Stopped (g₀ : Guard) (v : Violation) (g g' : Guard) : Prop where
  halted_eq : g'.halted = true
  written : ∃ earlier later, g'.journal = .stopping :: .violation v :: earlier ∧
    g.journal = later ++ .violation v :: earlier
  first : g'.violations = g₀.violations ++ [v]
  counted (f : Fault) : g'.tally.get f.counter =
    g₀.tally.get f.counter + if v.fault = f then 1 else 0

/-- Where the guard that goes on and the one that stops have come from `g₀`. -/
inductive Sides (g₀ : Guard) : Guard → Guard → Prop where
  | level {g : Guard} (lenient : g.config.fatal = false) (quiet : g.violations = g₀.violations)
      (counted : ∀ f : Fault, g.tally.get f.counter = g₀.tally.get f.counter) :
      Sides g₀ g g.strict
  | stopped {v : Violation} {g g' : Guard} (state : g.SameState g') (stopped : Stopped g₀ v g g') :
      Sides g₀ g g'

theorem strict_note {n : Note} (hn : ∀ v, n ≠ .violation v) (g : Guard) :
    g.strict.note n = (g.note n).strict ∧ (g.note n).config = g.config := by
  cases n with
  | count c _ => exact ⟨sparesAccount_strict.bump g c, (g.silent_bump c).config_eq⟩
  | line l quiet => exact ⟨sparesAccount_strict.write g l, (g.silent_write quiet).config_eq⟩
  | trace l traced =>
      exact ⟨sparesAccount_strict.trace g l,
        (g.silent_trace (Line.violation?_of_isTrace traced)).config_eq⟩
  | violation v => exact absurd rfl (hn v)
  | stop l quiet => exact ⟨sparesAccount_strict.halt g l, (g.silent_write quiet).config_eq⟩

theorem journal_report (hg : g.halted = false) (v : Violation) :
    (g.report v).journal =
      (if g.config.fatal then [.stopping] else []) ++ .violation v :: g.journal := by
  have hbump := g.silent_bump v.fault.counter
  have hrunning : (g.bump v.fault.counter).halted = false := hbump.halted_eq.trans hg
  have hconfig : ((g.bump v.fault.counter).write (.violation v)).config = g.config :=
    (sameParts_write ..).config_eq.trans hbump.config_eq
  have hviolation : ((g.bump v.fault.counter).write (.violation v)).journal =
      .violation v :: g.journal := by
    rw [write_of_running hrunning, journal_bump]
  have hwritten : ((g.bump v.fault.counter).write (.violation v)).halted = false := by
    rw [write_of_running hrunning]
    exact hrunning
  unfold report
  simp only [hconfig]
  split
  · rw [halt, write_of_running hwritten, hviolation]
    rfl
  · exact hviolation

theorem stopped_report (hg : g.halted = false) (lenient : g.config.fatal = false)
    (quiet : g.violations = g₀.violations)
    (counted : ∀ f : Fault, g.tally.get f.counter = g₀.tally.get f.counter) (v : Violation) :
    Stopped g₀ v (g.report v) (g.strict.report v) where
  halted_eq := halted_report (g := g.strict) hg v
  written := by
    refine ⟨g.journal, [], journal_report (g := g.strict) hg v, ?_⟩
    rw [journal_report hg, lenient]
    rfl
  first := by
    rw [violations_report (g := g.strict) hg, ← quiet]
    rfl
  counted f := by
    rw [get_counter_report (g := g.strict) hg, ← counted f]
    rfl

theorem Stopped.behind {v : Violation} {after after' : Guard} (hs : Stopped g₀ v g g')
    (left : g.SameAccount after) (right : g'.SameAccount after') : Stopped g₀ v after after' where
  halted_eq := right.halted_eq.trans hs.halted_eq
  written := by
    rw [right.journal_eq, left.journal_eq]
    exact hs.written
  first := by
    rw [violations, right.journal_eq]
    exact hs.first
  counted f := by rw [right.tally_eq, hs.counted f]

theorem Sides.note (h : Sides g₀ g g') (n : Note) : Sides g₀ (g.note n) (g'.note n) := by
  cases h with
  | level lenient quiet counted =>
      by_cases hviolation : ∃ v, n = .violation v
      · obtain ⟨v, rfl⟩ := hviolation
        cases hg : g.halted with
        | true =>
            rw [note_of_halted hg, note_of_halted (g := g.strict) hg]
            exact .level lenient quiet counted
        | false =>
            have hstate : (g.report v).SameState (g.strict.report v) :=
              (sameState_note g (.violation v)).symm.trans
                (g.sameState_strict.trans (sameState_note g.strict (.violation v)))
            exact .stopped hstate (stopped_report hg lenient quiet counted v)
      · have hquiet : ∀ v, n ≠ .violation v := fun v hv => hviolation ⟨v, hv⟩
        obtain ⟨hstrict, hconfig⟩ := strict_note hquiet g
        obtain ⟨hviolations, htally⟩ := quiet_note hquiet g
        rw [hstrict]
        exact .level ((congrArg Config.fatal hconfig).trans lenient) (hviolations.trans quiet)
          fun f => (htally f).trans (counted f)
  | stopped state hs =>
      obtain ⟨earlier, later, hwritten, hafter⟩ := hs.written
      obtain ⟨more, hmore⟩ := g.suffix_note n
      rw [note_of_halted hs.halted_eq]
      refine .stopped ((sameState_note g n).symm.trans state)
        { hs with written := ⟨earlier, more ++ later, hwritten, ?_⟩ }
      rw [← hmore, hafter, List.append_assoc]

theorem Sides.sameState (h : Sides g₀ g g') : g.SameState g' := by
  cases h with
  | level _ _ _ => exact g.sameState_strict
  | stopped state _ => exact state

theorem congruence_sides (g₀ : Guard) : Congruence (Sides g₀) := by
  refine congruence_of_sameState Sides.sameState (fun {g g'} h s => ?_) Sides.note
  cases h with
  | level lenient quiet counted => exact .level (g := g.holding s) lenient quiet counted
  | stopped _ hs =>
      exact .stopped ⟨rfl, rfl, rfl, rfl⟩ (hs.behind ⟨rfl, rfl, rfl, rfl⟩ ⟨rfl, rfl, rfl, rfl⟩)

/-- The second course is the first one, of guards that stop, up to the first violation after `g`. -/
inductive Follows : Guard → List (Option Answer × Guard) → List (Option Answer × Guard) → Prop where
  | done (g : Guard) : Follows g [] []
  | step {g next : Guard} {answer : Option Answer} {steps steps' : List (Option Answer × Guard)}
      (quiet : next.violations = g.violations) (rest : Follows next steps steps') :
      Follows g ((answer, next) :: steps) ((answer, next.strict) :: steps')
  | abort {g next next' : Guard} {answer : Option Answer} {v : Violation}
      {steps : List (Option Answer × Guard)} (stopped : Stopped g v next next') :
      Follows g ((answer, next) :: steps) [(none, next')]

/-- Behind a request, the strict guard is level with the other one or has stopped. -/
theorem level_or_stopped (h : UpToEnd (Sides g₀) g g') :
    (g' = g.strict ∧ g.config.fatal = false ∧ g.violations = g₀.violations) ∨
      ∃ v, Stopped g₀ v g g' := by
  cases h with
  | intro related left right same =>
      cases related with
      | level _ _ _ =>
          cases same rfl with
          | level lenient quiet _ => exact .inl ⟨rfl, lenient, quiet⟩
          | stopped _ hs => exact .inr ⟨_, hs⟩
      | stopped _ hs => exact .inr ⟨_, hs.behind left right⟩

theorem follows_course (lenient : g.config.fatal = false) (rs : List Request) :
    Follows g (g.course rs) (g.strict.course rs) := by
  induction rs generalizing g with
  | nil => exact .done g
  | cons r rs ih =>
      have hstart : Sides g g g.strict := .level lenient rfl fun _ => rfl
      have hreply := (congruence_sides g).reply_judge Sides.sameState hstart r
      unfold course
      generalize g.reply judge r = first, g.strict.reply judge r = first' at hreply
      cases hreply with
      | @intro answer next next' hrelated =>
          rcases level_or_stopped hrelated with ⟨rfl, lenient, quiet⟩ | ⟨v, hs⟩
          · have hhalted : next.strict.halted = next.halted := rfl
            simp only [hhalted]
            split
            · exact .step quiet (.done next)
            · exact .step quiet (ih lenient)
          · simp only [hs.halted_eq, if_true]
            split
            · exact .abort hs
            · exact .abort hs

/-- Switches change no course. For all requests, wherever the heap lies and whatever slots are left
out, the switches for traces, profiles and the use by one thread alone are told by traces and the
counters of profiled checks only. And a guard that is to stop at the first violation takes the same
steps as one that goes on, up to the first one at which that one reports; there it counts and writes
the violation and comes to an end. -/
theorem courses_under_switches (config : Config) (registry : Registry) (raw : Nat)
    (skips : Nat → Nat) (rs : List Request) :
    (∀ debug profile alone : Bool,
      Paired (fun g g' => g.Agrees g' ∧ List.Forall₂ SameStep (g.course rs) (g'.course rs))
        (create config registry raw skips)
        (create { config with debug, profile, singleThreaded := alone } registry raw skips)) ∧
    Paired (fun g g' => g' = g.strict ∧ Follows g (g.course rs) (g'.course rs))
      (create { config with fatal := false } registry raw skips)
      (create { config with fatal := true } registry raw skips) := by
  refine ⟨fun debug profile alone => ?_, ?_⟩
  · have hheap : Heap.create { config with debug, profile, singleThreaded := alone } raw skips =
        Heap.create config raw skips := rfl
    have hagrees (g : Guard) : g.Agrees { g with
        config := { g.config with debug, profile, singleThreaded := alone } } :=
      ⟨⟨rfl, rfl, rfl, rfl⟩, rfl, rfl, rfl, fun _ => rfl⟩
    unfold create
    rw [hheap]
    cases Heap.create config raw skips with
    | error e => exact .error e
    | ok heap => exact .ok ⟨hagrees _, (hagrees _).course rs⟩
  · have hheap (fatal : Bool) : Heap.create { config with fatal } raw skips =
        Heap.create config raw skips := rfl
    unfold create
    rw [hheap false, hheap true]
    cases Heap.create config raw skips with
    | error e => exact .error e
    | ok heap => exact .ok ⟨rfl, follows_course rfl rs⟩

def freeingTwice : List Request := [
  .event (.allocate 64 (.ofName NameHasher.spread "int32_t") .opening),
  .event (.free 0x700030),
  .event (.free 0x700030),
  .event (.allocate 64 (.ofName NameHasher.spread "int32_t") .opening)]

example : (vacant.course freeingTwice).map (·.1.isSome) = [true, true, true, true] ∧
    (vacant.strict.course freeingTwice).map (·.1.isSome) = [true, true, false] := by
  decide +kernel

end Guard

end TypedHeap
