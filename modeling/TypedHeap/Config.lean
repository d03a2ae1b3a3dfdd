import TypedHeap.Word

/-! # Configuration

The switches of one instance, fixed once it is built.
-/

namespace TypedHeap

structure Config where
  /-- Trace every check, allocation and free. -/
  debug : Bool
  /-- Keep the counters of checks as well as those of errors. -/
  profile : Bool
  fatal : Bool
  /-- Promise that one thread at a time uses the instance. -/
  singleThreaded : Bool
  regionShift : Nat
  /-- Start each region at a random slot. -/
  aslr : Bool
  deriving DecidableEq

inductive ConfigError where
  | regionShift (shift : Nat)
  | variable (name value : String)
  deriving DecidableEq

namespace Config

def leastShift : Nat := 20

def mostShift : Nat := 36

def standard : Config := ⟨false, false, false, false, 32, true⟩

def isValid (c : Config) : Bool := leastShift ≤ c.regionShift && c.regionShift ≤ mostShift

def validate (c : Config) : Except ConfigError Unit :=
  if c.isValid then .ok () else .error (.regionShift c.regionShift)

def regionSize (c : Config) : Nat := 2 ^ c.regionShift

end Config

def ConfigError.message : ConfigError → String
  | .regionShift shift =>
      "region shift " ++ toString shift ++ " is outside " ++ toString Config.leastShift ++ "..=" ++
        toString Config.mostShift
  | .variable name value =>
      "environment variable " ++ name ++ " has unparsable value \x60" ++ value ++ "\x60"

end TypedHeap
