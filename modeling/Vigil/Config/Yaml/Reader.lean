import Vigil.Config.Setting
import Vigil.Config.Yaml.Node

/-!
# Vigil.Config.Yaml.Reader — settings written in YAML

* `Yaml.read` — the settings in a text, whose root has to be a mapping.
-/

namespace Vigil.Yaml

mutual

/-- A node as a setting. Keys are texts or integers; another key ends the
program. -/
def Node.toSetting : Node → Except SettingFault Setting
  | .null => pure .unset
  | .bad => pure .unset
  | .bool b => pure (.bool b)
  | .int i => pure (.int i)
  | .real text =>
    match Double.ofText? text with
    | some d => pure (.float d)
    | none => throw .malformed
  | .str text => pure (.str text)
  | .list items => do return .list (← Node.toItems items)
  | .map pairs => do return .table (← Node.toEntries pairs [])

def Node.toItems : List Node → Except SettingFault (List Setting)
  | [] => pure []
  | n :: rest => do
    let v ← Node.toSetting n
    return v :: (← Node.toItems rest)

def Node.toEntries : List (Node × Node) → List (String × Setting) →
    Except SettingFault (List (String × Setting))
  | [], entries => pure entries
  | (.str key, n) :: rest, entries => do
    let v ← Node.toSetting n
    Node.toEntries rest (Setting.insertEntry key v entries)
  | (.int key, n) :: rest, entries => do
    let v ← Node.toSetting n
    Node.toEntries rest (Setting.insertEntry (Digits.ofInt key) v entries)
  | _ :: _, _ => throw .aborted

end

/-- The settings in a text. One without a document has none, and there is at
most one document. -/
def read (text : String) : Except SettingFault Setting := do
  let some root? := document? text | throw .malformed
  match ← (root?.getD (.map [])).toSetting with
  | .table entries => pure (.table entries)
  | _ => throw .malformed

end Vigil.Yaml
