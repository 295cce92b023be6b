/-
CilProbe/Engine/Config.lean

How an engine is set up.  Settings come from presets or from a look-up of named
values, such as environment variables; a value that is blank counts as absent.
-/
import CilProbe.Error
import CilProbe.Probe.Insertion
import CilProbe.Text.Blank

namespace CilProbe

/-! ### Checking -/

/-- How thoroughly instrumented bodies are checked. -/
inductive VerifyMode where
  /-- Not at all. -/
  | off
  /-- Their structure. -/
  | structural
  /-- Their structure and their stack. -/
  | full
  deriving DecidableEq, Repr, Inhabited

/-! ### Names of settings -/

namespace Setting

/-- Whether the engine is on. -/
def enabled : String := "DOTWEAVE_PROFILER_ENABLED"

/-- The file that rules are read from. -/
def integrationsFile : String := "DOTWEAVE_INTEGRATIONS_FILE"

/-- The integrations that are off. -/
def disabledIntegrations : String := "DOTWEAVE_DISABLED_INTEGRATIONS"

/-- The runtime version to attach to. -/
def runtimeVersion : String := "DOTWEAVE_RUNTIME_VERSION"

/-- Passes that a layout may take. -/
def maxLayoutPasses : String := "DOTWEAVE_MAX_LAYOUT_PASSES"

/-- How thoroughly instrumented bodies are checked. -/
def verify : String := "DOTWEAVE_VERIFY"

end Setting

namespace VerifyMode

/-- The mode's name. -/
def display : VerifyMode → String
  | .off => "off"
  | .structural => "structural"
  | .full => "full"

/-- Read a mode, in any case and with blanks around it. -/
def parse (text : String) : Except Error VerifyMode :=
  match Text.foldCase (Text.trim text) with
  | "off" | "none" | "0" => .ok .off
  | "structural" => .ok .structural
  | "full" => .ok .full
  | _ => .error (.invalidConfig Setting.verify text)

end VerifyMode

/-! ### Configurations -/

/-- How an engine is set up. -/
structure Config where
  /-- Whether it is on. -/
  enabled : Bool := true
  /-- The file that rules are read from. -/
  integrationsFile : Option String := none
  /-- The integrations that are off. -/
  disabledIntegrations : List String := []
  /-- The runtime version to attach to. -/
  runtimeHint : Option String := none
  /-- Passes that a layout may take. -/
  maxLayoutPasses : Nat := defaultPassLimit
  /-- How often an emission is tried again. -/
  retryLimit : Nat := 3
  /-- How thoroughly instrumented bodies are checked. -/
  verify : VerifyMode := .structural
  deriving DecidableEq, Repr

namespace Config

/-- The usual set-up. -/
def standard : Config := {}

/-- An engine that is off. -/
def disabled : Config := { enabled := false }

/-- An engine that checks everything it can. -/
def strict : Config := { verify := .full }

/-! ### Reading settings -/

/-- The largest count that a setting can give. -/
def countLimit : Nat := 0xFFFFFFFFFFFFFFFF

/-- Read a yes or no. -/
def readFlag (key text : String) : Except Error Bool :=
  match Text.foldCase (Text.trim text) with
  | "1" | "true" | "yes" | "on" => .ok true
  | "0" | "false" | "no" | "off" => .ok false
  | _ => .error (.invalidConfig key text)

/-- Read a positive count. -/
def readCount (key text : String) : Except Error Nat :=
  match (Text.readDecimal? countLimit (Text.trim text)).filter (0 < ·) with
  | some n => .ok n
  | none => .error (.invalidConfig key text)

/-- The names in a list with commas or semicolons between them. -/
def readNames (text : String) : List String :=
  let pieces := (Text.splitChars ',' text.toList).flatMap (Text.splitChars ';')
  ((pieces.map Text.trimChars).filter (!·.isEmpty)).map String.ofList

/-- The set-up that named values describe; an engine is off unless they say that
it is on. -/
def ofLookup (lookup : String → Option String) : Except Error Config := do
  let value (key : String) := (lookup key).filter fun text => !(Text.trim text).isEmpty
  let enabled ←
    match value Setting.enabled with
    | some text => readFlag Setting.enabled text
    | none => pure false
  let maxLayoutPasses ←
    match value Setting.maxLayoutPasses with
    | some text => readCount Setting.maxLayoutPasses text
    | none => pure standard.maxLayoutPasses
  let verify ←
    match value Setting.verify with
    | some text => VerifyMode.parse text
    | none => pure standard.verify
  return { standard with
    enabled, maxLayoutPasses, verify
    integrationsFile := value Setting.integrationsFile
    disabledIntegrations := (value Setting.disabledIntegrations).elim [] readNames
    runtimeHint := (value Setting.runtimeVersion).map Text.trim }

end Config

end CilProbe
