import Vigil.Config.Dotenv
import Vigil.Config.Format
import Vigil.Config.LogFilter
import Vigil.Config.Path
import Vigil.Config.Toml.Quoted

/-!
# Vigil.Config.Basic — the configuration

The configuration starts from defaults. A configuration file is put over
them, and variables that start with `SIFT_` are put over the file; two
underscores in a variable's name lead into a section. A `.env` file adds
variables first. A section may also be a list of its entries in order.

* `Config.load` — the configuration that files and variables give.
* `Config.render` — the configuration as a file that gives it again.
-/

namespace Vigil

structure Config where
  logFilter : String
  maxLoopRounds : Option Nat
  includeStats : Bool
  maxPending : Option Nat
  lineMaps : Bool
deriving DecidableEq, Repr

inductive ConfigError where
  /-- A source cannot be read, or a setting has no fitting value. -/
  | unusable
  | badFilter (filter : String)
  /-- A count is too large to be written down. -/
  | unwritable
deriving DecidableEq, Repr

def ConfigError.message : ConfigError → String
  | .unusable => "Failed to load configuration"
  | .badFilter filter => "Invalid log filter '" ++ filter ++ "'"
  | .unwritable => "Failed to render configuration: out-of-range value for u64 type"

inductive ConfigStop where
  | error (cause : ConfigError)
  /-- The program ends at once: a variable cannot be set, a file holds a key
  that is no name, a path leads before the start of a list, a filter is torn, or
  has too many quotes in a row. -/
  | aborted
deriving DecidableEq, Repr

namespace Config

def default : Config := ⟨"info", none, false, none, false⟩

/-! ## From settings -/

/-- A section; one that is missing is empty. -/
def section? (root : Setting) (name : String) : Option Setting :=
  match root.get? name with
  | none => some (.table [])
  | some (.table es) => some (.table es)
  | some (.list xs) => some (.list xs)
  | some _ => none

/-- An entry of a section, read by `read`; a missing one has its default. In a
list it is found by its position. -/
def field? {α : Type} (sec : Setting) (position : Nat) (name : String) (fallback : α)
    (read : Setting → Option α) : Option α :=
  let entry := match sec with
    | .list xs => xs[position]?
    | s => s.get? name
  match entry with
  | none => some fallback
  | some v => read v

def optionalCount? : Setting → Option (Option Nat)
  | .unset => some none
  | v => v.count?.map some

def ofSettings? (root : Setting) : Option Config := do
  let log ← section? root "log"
  let engine ← section? root "engine"
  let triggers ← section? root "triggers"
  let debug ← section? root "debug"
  pure
    { logFilter := ← field? log 0 "filter" default.logFilter Setting.text?
      maxLoopRounds := ← field? engine 0 "max_loop_iterations" none optionalCount?
      includeStats := ← field? engine 1 "include_stats" false Setting.bool?
      maxPending := ← field? triggers 0 "max_pending" none optionalCount?
      lineMaps := ← field? debug 0 "filemaps" false Setting.bool? }

/-! ## From variables -/

/-- What a variable's text stands for: a truth value, a number, or itself. -/
def settingOf (text : String) : Setting :=
  let word := text.toLower
  if word = "true" then .bool true
  else if word = "false" then .bool false
  else
    let int? := (Digits.integer? true text.toList).filter fun i => Word.IsSigned i
    match int?, Double.ofText? text with
    | some i, _ => .int i
    | none, some d => .float d
    | none, none => .str text

def settingPath? (name : String) : Option (List Setting.Step) :=
  let name := (Setting.lowerName name).toList
  let start := "sift_".toList
  if start.isPrefixOf name then
    let path := (String.ofList (name.drop start.length)).splitOn "__"
    some (Setting.path (".".intercalate path))
  else none

def withVars? (root : Setting) (vars : Vars) : Option Setting :=
  vars.foldlM (fun s (name, text) =>
    match settingPath? name with
    | some path => Setting.put? path (settingOf text) s
    | none => some s) root

/-! ## From files -/

/-- Settings with those of a file put over them. The names at its top may
spell paths. -/
def withFile? (root file : Setting) : Option Setting :=
  file.entries.foldlM (fun s (name, v) => Setting.put? (Setting.path name) v s) root

def defaultFile : String := "sift.toml"

/-- Settings in the file that was asked for, which has to exist, or in the
default one. A file of no known format cannot be used. -/
def fileSettings (fs : Files) (path? : Option String) : Except SettingFault Setting :=
  match Format.find? fs (path?.getD defaultFile) with
  | some (some format, text) => format.read text
  | some (none, _) => throw .malformed
  | none => if path?.isSome then throw .malformed else pure (.table [])

/-! ## Loading -/

/-- Variables, those of the `.env` file included. -/
def allVars? (fs : Files) (vars : Vars) : Option Vars :=
  match fs.read? ".env" with
  | some text => Dotenv.load? vars text
  | none => some vars

def usable (filter : String) : Except ConfigStop Bool :=
  match LogFilter.check filter with
  | .ok _ => pure true
  | .error .malformed => pure false
  | .error .torn => throw .aborted

/-- The configuration, from the file that was asked for or the default one. -/
def load (fs : Files) (vars : Vars) (path? : Option String) : Except ConfigStop Config := do
  let some vars := allVars? fs vars | throw .aborted
  let file ← match fileSettings fs (path? <|> vars.lookup "SIFT_CONFIG_PATH") with
    | .ok file => pure file
    | .error .malformed => throw (.error .unusable)
    | .error .aborted => throw .aborted
  let some root := (withFile? (.table []) file).bind (withVars? · vars) | throw .aborted
  let some config := ofSettings? root | throw (.error .unusable)
  let override ← match vars.lookup "RUST_LOG" with
    | some filter => usable filter
    | none => pure false
  if override then pure config
  else if ← usable config.logFilter then pure config
  else throw (.error (.badFilter config.logFilter))

/-! ## Text -/

def countLine (name : String) : Option Nat → String
  | some n => name ++ " = " ++ Digits.padded 1 n ++ "\n"
  | none => ""

def boolLine (name : String) (b : Bool) : String :=
  name ++ " = " ++ (if b then "true" else "false") ++ "\n"

/-- Whether a count can stand in a configuration file, whose integers are
signed words. -/
def isWritable (n : Option Nat) : Bool := n.all fun n => Word.IsSigned n

def text (c : Config) : String :=
  "[log]\nfilter = " ++ Toml.quoted c.logFilter ++ "\n\n[engine]\n"
    ++ countLine "max_loop_iterations" c.maxLoopRounds ++ boolLine "include_stats" c.includeStats
    ++ "\n[triggers]\n" ++ countLine "max_pending" c.maxPending
    ++ "\n[debug]\n" ++ boolLine "filemaps" c.lineMaps

/-- The configuration as a configuration file. A count that cannot be written
is noticed before the filter is. -/
def render (c : Config) : Except ConfigStop String :=
  if !(isWritable c.maxLoopRounds && isWritable c.maxPending) then throw (.error .unwritable)
  else if !Toml.isQuotable c.logFilter then throw .aborted
  else pure c.text

end Config

end Vigil
