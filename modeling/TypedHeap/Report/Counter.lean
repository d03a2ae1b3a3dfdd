import TypedHeap.Json.Value

/-! # Counters

What is counted, and the numbers themselves.
-/

namespace TypedHeap

inductive Counter where
  | typeErrors
  | boundsErrors
  | useAfterFreeErrors
  | doubleFreeErrors
  | badFreeErrors
  | sanityErrors
  | registryLookups
  | typeChecks
  | fastTypeChecks
  | slowTypeChecks
  | charTypeChecks
  | nonFatTypeChecks
  | probeLimitMisses
  | boundsChecks
  | allocations
  | frees
  deriving DecidableEq, Inhabited

namespace Counter

def all : List Counter := [typeErrors, boundsErrors, useAfterFreeErrors, doubleFreeErrors,
  badFreeErrors, sanityErrors, registryLookups, typeChecks, fastTypeChecks, slowTypeChecks,
  charTypeChecks, nonFatTypeChecks, probeLimitMisses, boundsChecks, allocations, frees]

/-- Counted whether or not checks are profiled: the errors and the registry lookups. -/
def alwaysOn : Counter → Bool
  | typeErrors | boundsErrors | useAfterFreeErrors | doubleFreeErrors | badFreeErrors
  | sanityErrors | registryLookups => true
  | _ => false

def fieldName : Counter → String
  | typeErrors => "type_errors"
  | boundsErrors => "bounds_errors"
  | useAfterFreeErrors => "use_after_free_errors"
  | doubleFreeErrors => "double_free_errors"
  | badFreeErrors => "bad_free_errors"
  | sanityErrors => "sanity_errors"
  | registryLookups => "registry_lookups"
  | typeChecks => "type_checks"
  | fastTypeChecks => "fast_type_checks"
  | slowTypeChecks => "slow_type_checks"
  | charTypeChecks => "char_type_checks"
  | nonFatTypeChecks => "non_fat_type_checks"
  | probeLimitMisses => "probe_limit_misses"
  | boundsChecks => "bounds_checks"
  | allocations => "allocations"
  | frees => "frees"

def name : Counter → String
  | typeErrors => "TypeErrors"
  | boundsErrors => "BoundsErrors"
  | useAfterFreeErrors => "UseAfterFreeErrors"
  | doubleFreeErrors => "DoubleFreeErrors"
  | badFreeErrors => "BadFreeErrors"
  | sanityErrors => "SanityErrors"
  | registryLookups => "RegistryLookups"
  | typeChecks => "TypeChecks"
  | fastTypeChecks => "FastTypeChecks"
  | slowTypeChecks => "SlowTypeChecks"
  | charTypeChecks => "CharTypeChecks"
  | nonFatTypeChecks => "NonFatTypeChecks"
  | probeLimitMisses => "ProbeLimitMisses"
  | boundsChecks => "BoundsChecks"
  | allocations => "Allocations"
  | frees => "Frees"

def ofName? (name : String) : Option Counter := all.find? (·.name = name)

end Counter

structure Tally where
  typeErrors : Nat
  boundsErrors : Nat
  useAfterFreeErrors : Nat
  doubleFreeErrors : Nat
  badFreeErrors : Nat
  sanityErrors : Nat
  registryLookups : Nat
  typeChecks : Nat
  fastTypeChecks : Nat
  slowTypeChecks : Nat
  charTypeChecks : Nat
  nonFatTypeChecks : Nat
  probeLimitMisses : Nat
  boundsChecks : Nat
  allocations : Nat
  frees : Nat
  deriving DecidableEq

namespace Tally

def zero : Tally := ⟨0, 0, 0, 0, 0, 0, 0, 0, 0, 0, 0, 0, 0, 0, 0, 0⟩

def get (t : Tally) : Counter → Nat
  | .typeErrors => t.typeErrors
  | .boundsErrors => t.boundsErrors
  | .useAfterFreeErrors => t.useAfterFreeErrors
  | .doubleFreeErrors => t.doubleFreeErrors
  | .badFreeErrors => t.badFreeErrors
  | .sanityErrors => t.sanityErrors
  | .registryLookups => t.registryLookups
  | .typeChecks => t.typeChecks
  | .fastTypeChecks => t.fastTypeChecks
  | .slowTypeChecks => t.slowTypeChecks
  | .charTypeChecks => t.charTypeChecks
  | .nonFatTypeChecks => t.nonFatTypeChecks
  | .probeLimitMisses => t.probeLimitMisses
  | .boundsChecks => t.boundsChecks
  | .allocations => t.allocations
  | .frees => t.frees

def add (t : Tally) (n : Nat) : Counter → Tally
  | .typeErrors => { t with typeErrors := t.typeErrors + n }
  | .boundsErrors => { t with boundsErrors := t.boundsErrors + n }
  | .useAfterFreeErrors => { t with useAfterFreeErrors := t.useAfterFreeErrors + n }
  | .doubleFreeErrors => { t with doubleFreeErrors := t.doubleFreeErrors + n }
  | .badFreeErrors => { t with badFreeErrors := t.badFreeErrors + n }
  | .sanityErrors => { t with sanityErrors := t.sanityErrors + n }
  | .registryLookups => { t with registryLookups := t.registryLookups + n }
  | .typeChecks => { t with typeChecks := t.typeChecks + n }
  | .fastTypeChecks => { t with fastTypeChecks := t.fastTypeChecks + n }
  | .slowTypeChecks => { t with slowTypeChecks := t.slowTypeChecks + n }
  | .charTypeChecks => { t with charTypeChecks := t.charTypeChecks + n }
  | .nonFatTypeChecks => { t with nonFatTypeChecks := t.nonFatTypeChecks + n }
  | .probeLimitMisses => { t with probeLimitMisses := t.probeLimitMisses + n }
  | .boundsChecks => { t with boundsChecks := t.boundsChecks + n }
  | .allocations => { t with allocations := t.allocations + n }
  | .frees => { t with frees := t.frees + n }

theorem get_add (t : Tally) (n : Nat) (c d : Counter) :
    (t.add n c).get d = t.get d + if c = d then n else 0 := by
  cases c <;> cases d <;> rfl

def set (t : Tally) (n : Nat) : Counter → Tally
  | .typeErrors => { t with typeErrors := n }
  | .boundsErrors => { t with boundsErrors := n }
  | .useAfterFreeErrors => { t with useAfterFreeErrors := n }
  | .doubleFreeErrors => { t with doubleFreeErrors := n }
  | .badFreeErrors => { t with badFreeErrors := n }
  | .sanityErrors => { t with sanityErrors := n }
  | .registryLookups => { t with registryLookups := n }
  | .typeChecks => { t with typeChecks := n }
  | .fastTypeChecks => { t with fastTypeChecks := n }
  | .slowTypeChecks => { t with slowTypeChecks := n }
  | .charTypeChecks => { t with charTypeChecks := n }
  | .nonFatTypeChecks => { t with nonFatTypeChecks := n }
  | .probeLimitMisses => { t with probeLimitMisses := n }
  | .boundsChecks => { t with boundsChecks := n }
  | .allocations => { t with allocations := n }
  | .frees => { t with frees := n }

/-- Count once more. If nobody else counts, then the number is read, and the next one is stored. -/
def countOnce (t : Tally) (alone : Bool) (c : Counter) : Tally :=
  if alone then t.set (t.get c + 1) c else t.add 1 c

theorem countOnce_eq (t : Tally) (alone : Bool) (c : Counter) : t.countOnce alone c = t.add 1 c := by
  cases alone with
  | false => rfl
  | true => cases c <;> rfl

theorem get_countOnce (t : Tally) (alone : Bool) (c d : Counter) :
    (t.countOnce alone c).get d = t.get d + if c = d then 1 else 0 := by
  rw [countOnce_eq, get_add]

def errors (t : Tally) : Nat :=
  t.typeErrors + t.boundsErrors + t.useAfterFreeErrors + t.doubleFreeErrors + t.badFreeErrors +
    t.sanityErrors

def toJson (t : Tally) : Json.Value :=
  .ofMembers (Counter.all.map fun c => (c.fieldName, .nat (t.get c)))

def column (width n : Nat) : String :=
  let digits := toString n
  String.ofList (List.replicate (width - digits.length) ' ') ++ digits

private def row (label : String) (n : Nat) : String :=
  label ++ String.ofList (List.replicate (22 - label.length) ' ') ++ column 12 n

def lines (t : Tally) : List String := [
  row "type errors" t.typeErrors,
  row "bounds errors" t.boundsErrors,
  row "use-after-free errors" t.useAfterFreeErrors,
  row "double free errors" t.doubleFreeErrors,
  row "bad free errors" t.badFreeErrors,
  row "sanity errors" t.sanityErrors,
  row "registry lookups" t.registryLookups,
  row "type checks" t.typeChecks ++ " (fast " ++ toString t.fastTypeChecks ++ ", slow " ++
    toString t.slowTypeChecks ++ ", char " ++ toString t.charTypeChecks ++ ", non-fat " ++
    toString t.nonFatTypeChecks ++ ")",
  row "probe limit misses" t.probeLimitMisses,
  row "bounds checks" t.boundsChecks,
  row "allocations" t.allocations ++ " (frees " ++ toString t.frees ++ ")"]

def render (t : Tally) : String := "\n".intercalate t.lines

end Tally

end TypedHeap
