import ValueFlow.Settings
import ValueFlow.Yaml.Document
/-!
# Settings as a text

Settings are kept in a YAML text of version 1: a preset, and overrides section by section.  A section
that is given replaces the preset's; what is left out inside it is as in the standard settings.
-/
namespace ValueFlow
namespace Settings

open Yaml (Tree)

/-! ## Scalars -/

def bool? : Tree → Option Bool
  | .plain text =>
    if ["true", "True", "TRUE"].contains text then some true
    else if ["false", "False", "FALSE"].contains text then some false
    else none
  | _ => none

/-- The digits of a whole number in decimal; a leading zero makes it no number. -/
def decimal? (l : List Char) : Option Nat :=
  if 1 < l.length && l.head? = some '0' then none else Yaml.number? 10 l

/-- A whole number without a minus sign, in decimal or with the mark of another radix. -/
def natural? (l : List Char) : Option Nat :=
  match (match l with | '+' :: rest => rest | _ => l) with
  | '0' :: 'x' :: rest => Yaml.number? 16 rest
  | '0' :: 'o' :: rest => Yaml.number? 8 rest
  | '0' :: 'b' :: rest => Yaml.number? 2 rest
  | digits             => decimal? digits

def natBelow? (limit : Nat) : Tree → Option Nat
  | .plain text => (natural? text.toList).bind fun n => if n < limit then some n else none
  | _           => none

/-! ## Sections -/

/-- The entries of a section with no keys but `allowed`, each at most once. -/
def fields? (allowed : List String) : Tree → Option (List (String × Tree))
  | .mapping es =>
    let keys := es.map Prod.fst
    if keys.all allowed.contains && decide keys.Nodup then some es else none
  | .plain text => if text = "" then some [] else none
  | .quoted _   => none

/-- The entry of a key, which may be left out or null. -/
def optional {α : Type} (read? : Tree → Option α) (key : String) (es : List (String × Tree)) : Option (Option α) :=
  match es.lookup key with
  | none   => some none
  | some n => if n.isNull then some none else (read? n).map some

def withDefault {α : Type} (read? : Tree → Option α) (key : String) (default : α) (es : List (String × Tree)) :
    Option α :=
  match es.lookup key with
  | none   => some default
  | some n => read? n

structure Overrides where
  maxRequeue : Option UInt64
  floatConstants : Option Bool
  volatileFloor : Option Floor
  livenessTrim : Option Bool
  parallel : Option Bool

def Overrides.none : Overrides := ⟨.none, .none, .none, .none, .none⟩

def section? {α : Type} (key : String) (read? : Tree → Option α) (default : α) (n : Tree) : Option α :=
  (fields? [key] n).bind (withDefault read? key default)

def overrides? (n : Tree) : Option Overrides := do
  let es ← fields? ["solver", "readonly", "builtins", "liveness_trim", "parallel"] n
  let solver := section? "max_requeue_per_node" (fun n => (natBelow? UInt64.size n).map UInt64.ofNat) standard.maxRequeue
  let readonly := section? "propagate_float_constants" bool? standard.floatConstants
  let builtins := section? "volatile_load_floor" (fun n => n.scalar?.bind Floor.ofName?) standard.volatileFloor
  return ⟨← optional solver "solver" es, ← optional readonly "readonly" es, ← optional builtins "builtins" es,
    ← optional bool? "liveness_trim" es, ← optional bool? "parallel" es⟩

structure Draft where
  version : Option Nat
  preset : Option String
  overrides : Option Overrides

def draft? (n : Tree) : Option Draft := do
  let es ← fields? ["version", "preset", "overrides"] n
  return ⟨← optional (natBelow? UInt32.size) "version" es, ← optional Tree.scalar? "preset" es,
    ← optional overrides? "overrides" es⟩

/-! ## Reading -/

def override (s : Settings) (o : Overrides) : Settings where
  preset := s.preset
  maxRequeue := o.maxRequeue.getD s.maxRequeue
  floatConstants := o.floatConstants.getD s.floatConstants
  volatileFloor := o.volatileFloor.getD s.volatileFloor
  livenessTrim := o.livenessTrim.getD s.livenessTrim
  parallel := o.parallel.getD s.parallel

/-- The settings of a draft.  The version is looked at first, then the preset, and last the range. -/
def ofDraft (d : Draft) : Except SettingsError Settings := do
  match d.version with
  | none   => .error .missingVersion
  | some v => if v ≠ 1 then .error (.unsupportedVersion v)
  let preset ← match d.preset with
    | none      => pure Preset.balanced
    | some name =>
      match Preset.ofName? name with
      | some p => pure p
      | none   => .error (.unknownPreset name)
  let s := (ofPreset preset).override (d.overrides.getD .none)
  s.validate
  return s

def ofText (text : String) : Except SettingsError Settings :=
  match (Yaml.document? text).bind draft? with
  | some d => ofDraft d
  | none   => .error .malformed

/-- The settings in a file, whose contents are `none` when it cannot be read. -/
def ofFile (contents : Option String) : Except SettingsError Settings :=
  match contents with
  | some text => ofText text
  | none      => .error .unreadable

/-! ## Writing -/

def boolText : Bool → String
  | true  => "true"
  | false => "false"

/-- The text of settings, every one of them overridden. -/
def text (s : Settings) : String :=
  "version: 1\n"
    ++ "preset: " ++ s.preset.name ++ "\n"
    ++ "overrides:\n"
    ++ "  solver:\n"
    ++ "    max_requeue_per_node: " ++ Nat.repr s.maxRequeue.toNat ++ "\n"
    ++ "  readonly:\n"
    ++ "    propagate_float_constants: " ++ boolText s.floatConstants ++ "\n"
    ++ "  builtins:\n"
    ++ "    volatile_load_floor: " ++ s.volatileFloor.name ++ "\n"
    ++ "  liveness_trim: " ++ boolText s.livenessTrim ++ "\n"
    ++ "  parallel: " ++ boolText s.parallel ++ "\n"

end Settings
end ValueFlow
