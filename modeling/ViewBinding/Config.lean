import ViewBinding.Json.Reader
import ViewBinding.Settings
import ViewBinding.Toml.Reader

/-!
# Configuration texts

Mount options and settings read from JSON or TOML. Each of the two structures may be written as a
map or as the list of its fields in order; names that mean nothing are passed over.
-/

namespace ViewBinding

inductive ConfigFormat where
  | json
  | toml
deriving DecidableEq, Repr

/-- A text of some format that holds no configuration. -/
structure ConfigError where
  format : ConfigFormat
deriving DecidableEq, Repr

/-- How the message of the error begins. -/
def ConfigError.message (e : ConfigError) : String :=
  match e.format with
  | .json => "invalid JSON config: "
  | .toml => "invalid TOML config: "

/-- Mount options with a selector, and settings. -/
structure ViewConfig where
  selector : String
  data : Option Store := none
  settings : Settings := {}

def ViewConfig.options (config : ViewConfig) : MountOptions :=
  { target := .selector config.selector, data := config.data }

def settingNames : List String := ["directive_prefix", "delimiters", "echo_model_updates"]

def configNames : List String := ["el", "data", "bind"]

/-- The fields of a structure with given names that is written as a map or a list. An exact list is
not longer than the names. -/
def fields? (exact : Bool) (names : List String) : Value → Option (List (String × Value))
  | .map entries => some entries
  | .list items => if exact && names.length < items.length then none else some (names.zip items)
  | _ => none

/-- Reads the delimiters from a list. An exact list holds nothing else. -/
def delimiters? (exact : Bool) : Value → Option Delimiters
  | .list (.string opening :: .string closing :: rest) =>
    if exact && !rest.isEmpty then none else some ⟨opening, closing⟩
  | _ => none

/-- Reads a field, or takes what stands for a missing one. -/
def field? {α : Type} (fields : List (String × Value)) (name : String) (missing : α)
    (read : Value → Option α) : Option α :=
  match Dict.get? name fields with
  | some value => read value
  | none => some missing

/-- Reads settings; a missing field has its standard value. -/
def Settings.ofValue? (exact : Bool) (value : Value) : Option Settings := do
  let fields ← fields? exact settingNames value
  let standard : Settings := {}
  let directiveStart ← field? fields "directive_prefix" standard.directiveStart Value.asString?
  let delimiters ← field? fields "delimiters" standard.delimiters (delimiters? exact)
  let echo ← field? fields "echo_model_updates" standard.echo Value.asBool?
  return { directiveStart, delimiters, echo }

/-- Reads initial data: null is none. -/
def initialData? : Value → Option (Option Store)
  | .null => some none
  | .map entries => some (some ⟨entries⟩)
  | _ => none

/-- Reads a configuration; only its selector is required. -/
def ViewConfig.ofValue? (exact : Bool) (value : Value) : Option ViewConfig := do
  let fields ← fields? exact configNames value
  let selector ← (Dict.get? "el" fields).bind Value.asString?
  let data ← field? fields "data" none initialData?
  let settings ← field? fields "bind" {} (Settings.ofValue? exact)
  return { selector, data, settings }

namespace Json

/-- The members with known names. None may be repeated, and every name must be text. -/
def knownMembers? (names : List String) :
    List (Option String × Json) → Option (List (String × Json))
  | [] => some []
  | (name, member) :: rest => do
    let name ← name
    let known ← knownMembers? names rest
    if !names.contains name then return known
    if known.any fun (other, _) => other == name then none
    return (name, member) :: known

/-- The value of a structure within arrays and objects nested at most so deep. Members with other
names are passed over, whatever they are. -/
def structure? (depth : Nat) (names : List String) (readField : String → Json → Option Value) :
    Json → Option Value
  | .object members => do
    guard (depth ≠ 0)
    let known ← knownMembers? names members
    let entries ← known.mapM fun (name, member) => return (name, ← readField name member)
    return .map (Dict.ofList entries)
  | .array items => do
    guard (depth ≠ 0 ∧ items.length ≤ names.length)
    let values ← (names.zip items).mapM fun (name, item) => readField name item
    return .list values
  | json => json.toValue? depth

def settingsValue? (depth : Nat) (json : Json) : Option Value :=
  structure? depth settingNames (fun _ field => field.toValue? (depth - 1)) json

def configValue? (json : Json) : Option Value :=
  structure? maxDepth configNames
    (fun name field =>
      if name = "bind" then settingsValue? (maxDepth - 1) field
      else field.toValue? (maxDepth - 1))
    json

end Json

def ViewConfig.read (format : ConfigFormat) (text : String) : Except ConfigError ViewConfig :=
  let config := match format with
    | .json => do ViewConfig.ofValue? true (← (← Json.parse? text).configValue?)
    | .toml => do ViewConfig.ofValue? false (← Toml.parse? text)
  match config with
  | some config => .ok config
  | none => .error ⟨format⟩

end ViewBinding
