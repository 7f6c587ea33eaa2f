import ValueFlow.Pointer
/-!
# Settings

What trades precision for time.  A preset fixes every setting; each can then be changed.
-/
namespace ValueFlow

inductive Preset where
  | fast
  | balanced
  | thorough
deriving DecidableEq, Repr, Inhabited

namespace Preset

def all : List Preset := [fast, balanced, thorough]

def name : Preset → String
  | fast     => "fast"
  | balanced => "balanced"
  | thorough => "thorough"

/-- The preset with a name, in upper or lower case. -/
def ofName? (s : String) : Option Preset := all.find? (fun p => p.name == s.map Char.toLower)

end Preset

/-- The most precise class of pointers that a volatile load may claim to read. -/
inductive Floor where
  | glob
  | nonstack
  | top
deriving DecidableEq, Repr, Inhabited

namespace Floor

def all : List Floor := [glob, nonstack, top]

def name : Floor → String
  | glob     => "glob"
  | nonstack => "nonstack"
  | top      => "top"

def ofName? (s : String) : Option Floor := all.find? (fun f => f.name == s)

def pointer : Floor → Pointer
  | glob     => .anyGlobal
  | nonstack => .nonStack
  | top      => .top

end Floor

structure Settings where
  preset : Preset
  /-- how often the solver lets one node become pending -/
  maxRequeue : UInt64
  /-- floating-point constants of read-only globals are kept -/
  floatConstants : Bool
  volatileFloor : Floor
  /-- dead registers are dropped after each node -/
  livenessTrim : Bool
  /-- functions of a program may be analysed side by side -/
  parallel : Bool
deriving DecidableEq, Repr

inductive SettingsError where
  | outOfRange (maxRequeue : UInt64)
  | missingVersion
  | unsupportedVersion (found : Nat)
  | unknownPreset (name : String)
  /-- the text is not of the expected form -/
  | malformed
  /-- the file could not be read -/
  | unreadable
deriving DecidableEq, Repr, Inhabited

/-- The names of all presets, after one that is none. -/
def unknownPresetMessage (name : String) : String :=
  "Unknown preset '" ++ name ++ "'. Valid presets: fast, balanced, thorough"

def SettingsError.message : SettingsError → String
  | outOfRange n         =>
    "Invalid range for field 'max_requeue_per_node': " ++ Nat.repr n.toNat
      ++ " not in 1..=1000000. The solver needs at least one visit per node"
  | missingVersion       =>
    "Missing 'version' field in configuration file. Add 'version: 1' to the top of your YAML file."
  | unsupportedVersion n =>
    "Unsupported configuration version " ++ Nat.repr n ++ ". Supported versions: 1"
  | unknownPreset name   => unknownPresetMessage name
  | malformed            => "YAML parsing error"
  | unreadable           => "IO error"

namespace Settings

def ofPreset (p : Preset) : Settings where
  preset := p
  maxRequeue := match p with | .fast => 8 | .balanced => 64 | .thorough => 1024
  floatConstants := p != .fast
  volatileFloor := .glob
  livenessTrim := true
  parallel := p != .fast

/-- The settings used where none are given. -/
def standard : Settings := ofPreset .balanced

instance : Inhabited Settings := ⟨standard⟩

def isValid (s : Settings) : Bool := 0 < s.maxRequeue.toNat && s.maxRequeue.toNat ≤ 1000000

def validate (s : Settings) : Except SettingsError Unit :=
  if s.isValid then .ok () else .error (.outOfRange s.maxRequeue)

end Settings
end ValueFlow
