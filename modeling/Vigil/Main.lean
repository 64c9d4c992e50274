import Vigil.Command

/-!
# Vigil.Main — the program

Reads the files and variables a command may need, carries the command out,
prints what it printed and ends as it ended.
-/

open Vigil

namespace Vigil.Program

/-- Rounds a loop may take before the program gives up. -/
def fuel : Nat := 1000000000000000

/-- Files a command may read, besides the `.env` file. -/
def paths (i : Invocation) (vars : Vars) : List String :=
  let asked := i.config?.toList ++ (vars.lookup "SIFT_CONFIG_PATH").toList
  let endings := Format.all.flatMap Format.endings
  let configs := (Config.defaultFile :: asked).flatMap fun p =>
    p :: endings.filterMap (Format.complete? p)
  let units := match i.command with
    | .check unit | .describe unit _ _ | .run unit _ _ => [unit]
    | .config => []
  configs ++ units

/-- Variables that can have an effect. -/
def knownVars : List String :=
  ["SIFT_CONFIG_PATH", "SIFT_LOG", "SIFT_ENGINE", "SIFT_TRIGGERS", "SIFT_DEBUG",
    "SIFT_LOG__FILTER", "SIFT_ENGINE__MAX_LOOP_ITERATIONS", "SIFT_ENGINE__INCLUDE_STATS",
    "SIFT_TRIGGERS__MAX_PENDING", "SIFT_DEBUG__FILEMAPS", "SIFT_LOG[0]", "SIFT_ENGINE[0]",
    "SIFT_ENGINE[1]", "SIFT_TRIGGERS[0]", "SIFT_DEBUG[0]", "RUST_LOG"]

def mentioned (text : String) : List String :=
  text.splitToList (fun c => !(c.isAlphanum || c = '_' || c = '.'))

def readEach (paths : List String) : IO (List (String × String)) :=
  paths.filterMapM fun (path : String) => do
    try
      let text ← IO.FS.readFile path
      pure (some (path, text))
    catch _ => pure none

def readVars (names : List String) : IO Vars :=
  names.eraseDups.filterMapM fun name => do
    if name.isEmpty then pure none
    else pure ((← IO.getEnv name).map fun value => (name, value))

/-- Carry out what the arguments ask for; gives the exit code. -/
def run (args : List String) : IO UInt32 := do
  match Invocation.parse? args with
  | none =>
    IO.eprintln "usage: [--config PATH] check UNIT | describe UNIT [--compact] [--stats]"
    IO.eprintln "  | run UNIT [--advance SECS]... [--stats] | config"
    pure 2
  | some i =>
    let env ← readEach [".env"]
    let vars ← readVars (knownVars ++ env.flatMap fun (_, text) => mentioned text)
    let files ← readEach (paths i ((Config.allVars? (.ofList env) vars).getD vars))
    let report := i.perform (.ofList (env ++ files)) vars fuel
    IO.print report.output
    match report.ending with
    | .failure cause => IO.eprintln ("Error: " ++ cause.message)
    | .success | .aborted => pure ()
    pure (UInt32.ofNat report.code)

end Vigil.Program

def main (args : List String) : IO UInt32 := Vigil.Program.run args
