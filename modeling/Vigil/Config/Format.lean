import Vigil.Config.Ini
import Vigil.Config.Json5
import Vigil.Config.Ron
import Vigil.Config.Toml.Reader
import Vigil.Config.Yaml.Reader
import Vigil.Files
import Vigil.Json.Reader

/-!
# Vigil.Config.Format — formats of configuration files

The ending of a file's name tells its format. A path that leads to no file may
still name one: without its ending.

* `Format.read` — the settings that a text gives.
* `Format.find?` — the file that a path names.
-/

namespace Vigil

mutual

/-- A JSON tree as a setting. Of members of one name the last counts, and an
integer beyond a signed word is a double. -/
def Setting.ofJson : Json → Setting
  | .null => .unset
  | .bool b => .bool b
  | .int i => if Word.IsSigned i then .int i else .float (.ofInt i)
  | .float d => .float d
  | .str s => .str s
  | .arr items => .list (ofJsonItems items)
  | .obj members => .table (ofJsonMembers members [])

def Setting.ofJsonItems : List Json → List Setting
  | [] => []
  | j :: rest => Setting.ofJson j :: ofJsonItems rest

def Setting.ofJsonMembers : List (String × Json) → List (String × Setting) → List (String × Setting)
  | [], entries => entries
  | (name, j) :: rest, entries =>
    ofJsonMembers rest (Setting.insertEntry name (Setting.ofJson j) entries)

end

inductive Format where
  | toml
  | json
  | yaml
  | ini
  | ron
  | json5
deriving DecidableEq, Repr

namespace Format

def endings : Format → List String
  | .toml => ["toml"]
  | .json => ["json"]
  | .yaml => ["yaml", "yml"]
  | .ini => ["ini"]
  | .ron => ["ron"]
  | .json5 => ["json5"]

/-- All formats, in the order in which files are looked for. -/
def all : List Format := [.toml, .json, .yaml, .ini, .ron, .json5]

def withoutMark (text : String) : String :=
  match text.toList with
  | '\ufeff' :: rest => String.ofList rest
  | _ => text

def readJson? (text : String) : Option Setting :=
  match (Json.read? text).map Setting.ofJson with
  | some (.table entries) => some (.table entries)
  | _ => none

def read (f : Format) (text : String) : Except SettingFault Setting :=
  let text := withoutMark text
  let orMalformed (v : Option Setting) : Except SettingFault Setting :=
    match v with
    | some s => pure s
    | none => throw .malformed
  match f with
  | .toml => orMalformed (Toml.read? text)
  | .json => orMalformed (readJson? text)
  | .yaml => Yaml.read text
  | .ini => orMalformed (Ini.read? text)
  | .ron => orMalformed (Ron.read? text)
  | .json5 => orMalformed (Json5.read? text)

def ofPath? (path : String) : Option Format :=
  all.find? fun f => f.endings.any fun e => Files.hasExtension path e

/-- Path of a file whose name is given without its ending. Idle parts at the
end are dropped, and there is no name in `..`. -/
def complete? (path ending : String) : Option String :=
  let parts := ((path.splitOn "/").reverse.dropWhile Files.isIdle).reverse
  match parts.getLast? with
  | none | some ".." => none
  | some _ => some ("/".intercalate parts ++ "." ++ ending)

/-- The file that a path names, with its format and its text: the file itself,
or else one whose name has an ending more. -/
def find? (fs : Files) (path : String) : Option (Option Format × String) :=
  match fs.read? path with
  | some text => some (ofPath? path, text)
  | none => all.findSome? fun f => f.endings.findSome? fun e => do
    let text ← fs.read? (← complete? path e)
    pure (some f, text)

end Format

end Vigil
