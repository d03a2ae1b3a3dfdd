import TypedHeap.Guard.Basic

/-! # The account of a guard

Counting and writing change the tally and the journal only. The violations reported so far are
read off the journal, and a guard that runs reports each one it finds.
-/

namespace TypedHeap

def Line.violation? : Line → Option Violation
  | .violation v => some v
  | _ => none

namespace Guard

def violations (g : Guard) : List Violation := (g.journal.filterMap Line.violation?).reverse

/-- `g` and `g'` agree in all but the tally, the journal and whether they run. -/
structure SameParts (g g' : Guard) : Prop where
  config_eq : g'.config = g.config
  registry_eq : g'.registry = g.registry
  heap_eq : g'.heap = g.heap
  large_eq : g'.large = g.large
  memory_eq : g'.memory = g.memory

/-- The heap and what its slots are judged by are the same in `g` and `g'`. -/
structure SameHeap (g g' : Guard) : Prop where
  config_eq : g'.config = g.config
  registry_eq : g'.registry = g.registry
  heap_eq : g'.heap = g.heap

structure Calm (g g' : Guard) : Prop where
  config_eq : g'.config = g.config
  registry_eq : g'.registry = g.registry
  violations_eq : g'.violations = g.violations
  halted_eq : g'.halted = g.halted

/-- Nothing but the tally and lines that are no violations sets `g'` apart from `g`. -/
structure Silent (g g' : Guard) : Prop extends SameParts g g' where
  violations_eq : g'.violations = g.violations
  halted_eq : g'.halted = g.halted

theorem SameParts.trans {g g' g'' : Guard} (h : g.SameParts g') (h' : g'.SameParts g'') :
    g.SameParts g'' :=
  ⟨h'.config_eq.trans h.config_eq, h'.registry_eq.trans h.registry_eq,
    h'.heap_eq.trans h.heap_eq, h'.large_eq.trans h.large_eq, h'.memory_eq.trans h.memory_eq⟩

theorem SameParts.sameHeap {g g' : Guard} (h : g.SameParts g') : g.SameHeap g' :=
  ⟨h.config_eq, h.registry_eq, h.heap_eq⟩

theorem SameHeap.trans {g g' g'' : Guard} (h : g.SameHeap g') (h' : g'.SameHeap g'') :
    g.SameHeap g'' :=
  ⟨h'.config_eq.trans h.config_eq, h'.registry_eq.trans h.registry_eq, h'.heap_eq.trans h.heap_eq⟩

theorem Calm.trans {g g' g'' : Guard} (h : g.Calm g') (h' : g'.Calm g'') : g.Calm g'' :=
  ⟨h'.config_eq.trans h.config_eq, h'.registry_eq.trans h.registry_eq,
    h'.violations_eq.trans h.violations_eq, h'.halted_eq.trans h.halted_eq⟩

theorem Silent.calm {g g' : Guard} (h : g.Silent g') : g.Calm g' :=
  ⟨h.config_eq, h.registry_eq, h.violations_eq, h.halted_eq⟩

theorem Silent.refl (g : Guard) : g.Silent g := ⟨⟨rfl, rfl, rfl, rfl, rfl⟩, rfl, rfl⟩

theorem Silent.trans {g g' g'' : Guard} (h : g.Silent g') (h' : g'.Silent g'') : g.Silent g'' :=
  ⟨h.toSameParts.trans h'.toSameParts, h'.violations_eq.trans h.violations_eq,
    h'.halted_eq.trans h.halted_eq⟩

theorem bump_eq (g : Guard) (c : Counter) : g.bump c = { g with tally := (g.bump c).tally } := by
  unfold bump
  split <;> rfl

theorem get_bump_of_ne (g : Guard) {c d : Counter} (hne : c ≠ d) :
    (g.bump c).tally.get d = g.tally.get d := by
  unfold bump
  split
  · rfl
  · rw [Tally.get_countOnce, if_neg hne, Nat.add_zero]

theorem bump_of_halted {g : Guard} (hg : g.halted = true) (c : Counter) : g.bump c = g :=
  if_pos (by simp [hg])

theorem write_of_halted {g : Guard} (hg : g.halted = true) (line : Line) : g.write line = g :=
  if_pos hg

theorem write_of_running {g : Guard} (hg : g.halted = false) (line : Line) :
    g.write line = { g with journal := line :: g.journal } :=
  if_neg (Bool.eq_false_iff.mp hg)

theorem silent_bump (g : Guard) (c : Counter) : g.Silent (g.bump c) := by
  unfold bump
  split <;> exact ⟨⟨rfl, rfl, rfl, rfl, rfl⟩, rfl, rfl⟩

theorem silent_bumps (cs : List Counter) (g : Guard) : g.Silent (cs.foldl bump g) := by
  induction cs generalizing g with
  | nil => exact .refl g
  | cons c cs ih => exact (g.silent_bump c).trans (ih (g.bump c))

theorem silent_write (g : Guard) {line : Line} (h : line.violation? = none) :
    g.Silent (g.write line) := by
  unfold write
  split
  · exact .refl g
  · exact ⟨⟨rfl, rfl, rfl, rfl, rfl⟩, by simp [violations, h], rfl⟩

theorem silent_trace (g : Guard) {line : Line} (h : line.violation? = none) :
    g.Silent (g.trace line) := by
  unfold trace
  split
  · exact g.silent_write h
  · exact .refl g

theorem sameParts_write (g : Guard) (line : Line) : g.SameParts (g.write line) := by
  unfold write
  split <;> exact ⟨rfl, rfl, rfl, rfl, rfl⟩

theorem sameParts_halt (g : Guard) (line : Line) : g.SameParts (g.halt line) := by
  obtain ⟨hconfig, hregistry, hheap, hlarge, hmemory⟩ := g.sameParts_write line
  exact ⟨hconfig, hregistry, hheap, hlarge, hmemory⟩

theorem violations_halt (g : Guard) {line : Line} (h : line.violation? = none) :
    (g.halt line).violations = g.violations := (g.silent_write h).violations_eq

theorem sameParts_report (g : Guard) (v : Violation) : g.SameParts (g.report v) := by
  have hwrite := (g.silent_bump v.fault.counter).toSameParts.trans
    (sameParts_write (g.bump v.fault.counter) (.violation v))
  unfold report
  simp only
  split
  · exact hwrite.trans (sameParts_halt ..)
  · exact hwrite

theorem violations_report {g : Guard} (hg : g.halted = false) (v : Violation) :
    (g.report v).violations = g.violations ++ [v] := by
  have hb := g.silent_bump v.fault.counter
  have hbump : (g.bump v.fault.counter).halted = false := hb.halted_eq.trans hg
  have hwrite : ((g.bump v.fault.counter).write (.violation v)).violations =
      g.violations ++ [v] := by
    rw [← hb.violations_eq]
    simp [write, hbump, violations, Line.violation?]
  unfold report
  simp only
  split
  · rw [← hwrite]
    exact (silent_write _ rfl).violations_eq
  · exact hwrite

theorem halted_report {g : Guard} (hg : g.halted = false) (v : Violation) :
    (g.report v).halted = g.config.fatal := by
  have hb := g.silent_bump v.fault.counter
  have hbump : (g.bump v.fault.counter).halted = false := hb.halted_eq.trans hg
  have hwrite : ((g.bump v.fault.counter).write (.violation v)).halted = false := by
    simp [write, hbump]
  have hconfig : ((g.bump v.fault.counter).write (.violation v)).config = g.config :=
    (sameParts_write ..).config_eq.trans hb.config_eq
  unfold report
  simp only [hconfig]
  split
  · next hf => exact hf.symm
  · next hf => rw [hwrite, Bool.eq_false_iff.mpr hf]

/-! ## What is counted

The errors and the registry lookups are counted in any guard that runs, profiled or not.
-/

variable {g : Guard} {c : Counter}

theorem get_bump (hg : g.halted = false) (hc : c.alwaysOn = true) (d : Counter) :
    (g.bump d).tally.get c = g.tally.get c + if d = c then 1 else 0 := by
  by_cases hcounts : g.counts d = true
  · simp [bump, hg, hcounts, Tally.get_countOnce]
  · have hne : d ≠ c := fun heq => hcounts (by simp [counts, heq, hc])
    simp [bump, hg, hcounts, hne]

theorem get_bumps (hg : g.halted = false) (hc : c.alwaysOn = true) (ds : List Counter) :
    (ds.foldl bump g).tally.get c = g.tally.get c + ds.count c := by
  induction ds generalizing g with
  | nil => rfl
  | cons d ds ih =>
      have hbump : (g.bump d).halted = false := (g.silent_bump d).halted_eq.trans hg
      rw [List.foldl_cons, ih hbump, get_bump hg hc, List.count_cons]
      simp only [beq_iff_eq]
      omega

theorem tally_write (g : Guard) (line : Line) : (g.write line).tally = g.tally := by
  unfold write
  split <;> rfl

theorem tally_trace (g : Guard) (line : Line) : (g.trace line).tally = g.tally := by
  unfold trace
  split
  · exact g.tally_write line
  · rfl

theorem get_report (hg : g.halted = false) (hc : c.alwaysOn = true) (v : Violation) :
    (g.report v).tally.get c = g.tally.get c + if v.fault.counter = c then 1 else 0 := by
  have hwrite : ((g.bump v.fault.counter).write (.violation v)).tally =
      (g.bump v.fault.counter).tally := tally_write ..
  rw [← get_bump hg hc, ← hwrite]
  unfold report
  simp only
  split
  · exact congrArg (Tally.get · c) (tally_write ..)
  · rfl

end Guard

end TypedHeap
