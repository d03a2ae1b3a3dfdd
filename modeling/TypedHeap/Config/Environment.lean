import TypedHeap.Config
import TypedHeap.Text.Blank

/-! # Configuration from the environment

Each switch has a variable. One that is unset leaves the switch as it is by default. The shift is
looked at first, the other variables in the order of the switches.
-/

namespace TypedHeap.Config

/-- The values of environment variables; a value that is no text counts as unset. -/
abbrev Variables := String → Option String

/-- The value of a flag: one of a few words in any case, with blanks around it. -/
def flagOf? (value : String) : Option Bool :=
  let word := String.ofList ((Text.trim value.toList).map Char.toLower)
  if ["1", "true", "yes", "on"].contains word then some true
  else if ["0", "false", "no", "off", ""].contains word then some false
  else none

def readFlag (env : Variables) (name : String) (default : Bool) : Except ConfigError Bool :=
  match env name with
  | none => .ok default
  | some value =>
      match flagOf? value with
      | some b => .ok b
      | none => .error (.variable name value)

/-- A number of 32 bits in decimal digits, with at most one plus sign before them. -/
def numberOf? (cs : List Char) : Option Nat :=
  let digits := match cs with
    | '+' :: r => r
    | r => r
  if digits.isEmpty || !digits.all Char.isDigit then none
  else
    let n := digits.foldl (fun n d => n * 10 + (d.toNat - 48)) 0
    if n < 2 ^ 32 then some n else none

def readShift (env : Variables) (name : String) (default : Nat) : Except ConfigError Nat :=
  match env name with
  | none => .ok default
  | some value =>
      match numberOf? (Text.trim value.toList) with
      | some n => .ok n
      | none => .error (.variable name value)

def ofEnvironment (env : Variables) : Except ConfigError Config := do
  let regionShift ← readShift env "TYCHE_REGION_SHIFT" standard.regionShift
  let debug ← readFlag env "TYCHE_DEBUG" standard.debug
  let profile ← readFlag env "TYCHE_PROFILE" standard.profile
  let fatal ← readFlag env "TYCHE_FATAL" standard.fatal
  let singleThreaded ← readFlag env "TYCHE_SINGLE_THREADED" standard.singleThreaded
  let aslr ← readFlag env "TYCHE_ASLR" standard.aslr
  let config : Config := ⟨debug, profile, fatal, singleThreaded, regionShift, aslr⟩
  config.validate
  .ok config

end TypedHeap.Config
