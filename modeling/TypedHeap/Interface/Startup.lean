import TypedHeap.Config.Environment
import TypedHeap.Guard.Basic
import TypedHeap.Registry.Catalog

/-! # Starting from the environment

The configuration comes from environment variables, and the types from the file that one of them
names, if it is set.
-/

namespace TypedHeap.Interface

inductive StartError where
  | config (e : ConfigError)
  | unreadable (path : String)
  | registry (e : RegistryError)
  | heap (e : HeapError)
  deriving DecidableEq

def StartError.message : StartError → String
  | .config e => e.message
  | .unreadable path => "could not read " ++ path
  | .registry e => e.message
  | .heap e => e.message

structure Surroundings where
  hasher : NameHasher
  env : Config.Variables
  file : String → Option String
  /-- Where the heap is reserved, and which slots are left out. -/
  heapStart : Nat
  skips : Nat → Nat

def registryOf (s : Surroundings) : Except StartError Registry :=
  match s.env "TYCHE_TYPES" with
  | none => .ok (.builtins s.hasher)
  | some path =>
      match s.file path with
      | none => .error (.unreadable path)
      | some text => (Registry.parse s.hasher text).mapError .registry

def start (s : Surroundings) : Except StartError Guard := do
  let config ← (Config.ofEnvironment s.env).mapError .config
  let registry ← registryOf s
  (Guard.create config registry s.heapStart s.skips).mapError .heap

end TypedHeap.Interface
