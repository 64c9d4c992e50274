import Vigil.Files
import Vigil.Script

/-!
# Vigil.Sources — units in files

Units are named by files or by directories. A directory stands for the unit
files directly in it, in the order of their names.
-/

namespace Vigil

namespace Files

/-- Whether a name is that of a unit file: something before `.json`. -/
def isUnitName (name : String) : Bool := hasExtension name "json"

def unitFiles (fs : Files) (paths : List String) : List String :=
  paths.flatMap fun path =>
    if fs.isDir path then
      let names := (fs.names path).filter isUnitName
      (names.mergeSort fun a b => decide (a ≤ b)).map (join path)
    else [path]

def loadScript (fs : Files) (path : String) (firstStmt : StmtId) : Except LoadError Script :=
  match fs.read? path with
  | none => throw .unreadable
  | some text => do
    let u ← Doc.Unit.ofText text
    Script.load u firstStmt

def loadEach (fs : Files) : List String → StmtId → Except LoadError (List Script)
  | [], _ => pure []
  | path :: rest, firstStmt => do
    let s ← fs.loadScript path firstStmt
    let more ← fs.loadEach rest s.nextStmt
    pure (s :: more)

def loadScripts (fs : Files) (paths : List String) : Except LoadError (List Script) :=
  fs.loadEach (fs.unitFiles paths) 1

end Files

end Vigil
