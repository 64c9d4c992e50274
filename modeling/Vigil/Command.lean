import Vigil.Config.Basic
import Vigil.Lint
import Vigil.Sources
import Vigil.Stmt.Text
import Vigil.World.Schedule

/-!
# Vigil.Command — the command line

Four commands: `check` reports what is wrong with a unit, `describe` prints
its statements, `run` executes it and drives its triggers, and `config`
prints the configuration. An option's value stands in the next argument or
after an equals sign.

* `Invocation.parse?` — what the arguments ask for.
* `Invocation.perform` — what is printed and how the program ends.
-/

namespace Vigil

inductive Command where
  | check (unit : String)
  | describe (unit : String) (compact stats : Bool)
  /-- Run a unit, then advance network time by some seconds, step by step. -/
  | run (unit : String) (advance : List Double) (stats : Bool)
  | config
deriving Repr

structure Invocation where
  config? : Option String
  command : Command
deriving Repr

/-! ## Arguments -/

namespace Invocation

inductive CommandName where
  | check
  | describe
  | run
  | config
deriving DecidableEq, Repr

def CommandName.ofText? : String → Option CommandName
  | "check" => some .check
  | "describe" => some .describe
  | "run" => some .run
  | "config" => some .config
  | _ => none

structure Draft where
  command? : Option CommandName
  /-- Option given before the command, and after it. -/
  config? : Option String
  innerConfig? : Option String
  unit? : Option String
  compact : Bool
  stats : Bool
  advance : List Double
  /-- Everything that follows is an operand. -/
  literal : Bool

namespace Draft

def empty : Draft := ⟨none, none, none, none, false, false, [], false⟩

def takesValue (d : Draft) (option : String) : Bool :=
  option = "config" || (option = "advance" && d.command? = some .run)

/-- An option with its value. An option of this sort is given once in its
place, only `--advance` repeatedly. -/
def setValue? (d : Draft) (option value : String) : Option Draft :=
  if option = "advance" then
    (Double.ofText? value).map fun secs => { d with advance := d.advance ++ [secs] }
  else if value.isEmpty then none
  else
    match d.command? with
    | none => if d.config?.isSome then none else some { d with config? := some value }
    | some _ => if d.innerConfig?.isSome then none else some { d with innerConfig? := some value }

/-- An option without a value; it is given once. -/
def setFlag? (d : Draft) (option : String) : Option Draft :=
  match d.command?, option with
  | some .describe, "compact" => if d.compact then none else some { d with compact := true }
  | some .describe, "stats" | some .run, "stats" =>
    if d.stats then none else some { d with stats := true }
  | _, _ => none

def operand? (d : Draft) (arg : String) : Option Draft :=
  match d.command? with
  | none =>
    if d.literal then none
    else (CommandName.ofText? arg).map fun c => { d with command? := some c }
  | some .config => none
  | some _ => if d.unit?.isSome ∨ arg.isEmpty then none else some { d with unit? := some arg }

def isValue (arg : String) : Bool :=
  match arg.toList with
  | '-' :: _ :: _ => false
  | _ => true

/-- The name of an option and the value after its equals sign. -/
def splitOption (text : List Char) : String × Option String :=
  let name := String.ofList (text.takeWhile (· ≠ '='))
  match text.dropWhile (· ≠ '=') with
  | _ :: value => (name, some (String.ofList value))
  | [] => (name, none)

def read? : List String → Draft → Option Draft
  | [], d => some d
  | arg :: rest, d =>
    if d.literal then do read? rest (← d.operand? arg)
    else
      match arg.toList with
      | ['-', '-'] => read? rest { d with literal := true }
      | '-' :: '-' :: text =>
        match splitOption text, rest with
        | (name, some value), rest =>
          if d.takesValue name then do read? rest (← d.setValue? name value) else none
        | (name, none), value :: rest' =>
          if d.takesValue name then
            if isValue value then do read? rest' (← d.setValue? name value) else none
          else do read? (value :: rest') (← d.setFlag? name)
        | (name, none), [] => d.setFlag? name
      | '-' :: _ :: _ => none
      | _ => do read? rest (← d.operand? arg)

def finish? (d : Draft) : Option Invocation := do
  let config? := d.innerConfig? <|> d.config?
  match ← d.command?, d.unit? with
  | .check, some unit => pure ⟨config?, .check unit⟩
  | .describe, some unit => pure ⟨config?, .describe unit d.compact d.stats⟩
  | .run, some unit => pure ⟨config?, .run unit d.advance d.stats⟩
  | .config, none => pure ⟨config?, .config⟩
  | _, _ => none

end Draft

def parse? (args : List String) : Option Invocation :=
  (Draft.read? args .empty).bind Draft.finish?

end Invocation

/-! ## Results -/

inductive CommandError where
  | config (cause : ConfigError)
  | unreadable (path : String)
  | notAUnit (path : String)
  | load (path : String) (cause : LoadError)
  | construction (name : String) (errors : Nat)
  | fault (f : Fault)
  | timeStep (secs : Double)
deriving Repr

def CommandError.message : CommandError → String
  | .config cause => cause.message
  | .unreadable path => "Failed to read " ++ path
  | .notAUnit path => "Invalid unit " ++ path
  | .load path .unreadable => "failed to read " ++ path
  | .load _ .notJson | .load _ .notAUnit => "invalid script unit"
  | .load _ (.construction name ds) => LoadError.refusal name ds
  | .construction name errors => name ++ ": " ++ Digits.padded 1 errors ++ " construction error(s)"
  | .fault f => f.message
  | .timeStep secs => "Time step out of range: " ++ secs.plain

inductive Ending where
  | success
  | failure (cause : CommandError)
  /-- The engine gave up: an abort, or a loop without end. -/
  | aborted

structure Report where
  output : String
  ending : Ending

namespace Report

def code (r : Report) : Nat :=
  match r.ending with
  | .success => 0
  | .failure _ => 1
  | .aborted => 101

def fail (cause : CommandError) : Report := ⟨"", .failure cause⟩

def stop : ConfigStop → Report
  | .error e => .fail (.config e)
  | .aborted => ⟨"", .aborted⟩

def lines (ls : List String) : String := String.join (ls.map (· ++ "\n"))

end Report

/-! ## Commands -/

namespace Command

def checkUnit (fs : Files) (path : String) : Report :=
  match fs.read? path with
  | none => .fail (.unreadable path)
  | some text =>
    match Doc.Unit.ofText text with
    | .error _ => .fail (.notAUnit path)
    | .ok u =>
      let s := Script.build u 1
      let problems := s.diagnostics.map Diagnostic.text
      if s.hasErrors then ⟨Report.lines problems, .failure (.construction s.name s.errorCount)⟩
      else
        let findings := s.lint
        let verdict := s.name ++ ": ok ("
          ++ Digits.padded 1 (s.diagnostics.length + findings.length) ++ " warning(s))"
        ⟨Report.lines (problems ++ findings.map Finding.text ++ [verdict]), .success⟩

def describeUnit (fs : Files) (config : Config) (path : String) (compact stats : Bool) : Report :=
  match fs.loadScript path 1 with
  | .error e => .fail (.load path e)
  | .ok s =>
    let mode : OutlineMode := if compact then .compact else .readable
    ⟨s.body.text mode (stats || config.includeStats) [] ++ "\n", .success⟩

def drain : Exec (List String) := do
  let w ← get
  let events ← Exec.ofStop (w.events.toList.mapM (Event.text w.heap))
  set { w with output := #[], events := #[] }
  pure (w.output.toList ++ events.map ("event " ++ ·))

/-- A step of network time in seconds, to the nearest millisecond. -/
def timeStep? (secs : Double) : Option Interval :=
  let millis := Double.clamp Word.minSigned Word.maxSigned (secs.mul (.ofInt 1000)).roundAway
  Interval.ofNanos? (millis * Interval.milli)

def endingOf : Stop → Ending
  | .fault f => .failure (.fault f)
  | .abort _ | .exhausted => .aborted

def advanceEach (fuel : Nat) : List Double → World → List String → List String × Ending × World
  | [], w, printed => (printed, .success, w)
  | secs :: rest, w, printed =>
    match timeStep? secs with
    | none => (printed, .failure (.timeStep secs), w)
    | some d =>
      match w.now.shift? d with
      | none => (printed, .aborted, w)
      | some time =>
        match (do World.advance fuel time; drain : Exec (List String)).run w with
        | (.error stop, w) => (printed, endingOf stop, w)
        | (.ok ls, w) => advanceEach fuel rest w (printed ++ ls)

def closing (s : Script) (result : Option Value) (stats : Bool) (w : World) :
    Except Stop (List String) := do
  let value ← match result with
    | some v => do pure ["=> " ++ (← w.heap.text v)]
    | none => pure []
  let number := Digits.padded 1
  let counts := "triggers: " ++ number w.stats.registered ++ " registered, "
    ++ number w.stats.fired ++ " fired, " ++ number w.stats.timedOut ++ " timed out, "
    ++ number w.pendingCount ++ " pending"
  let tree := if stats then [s.body.text .readable true w.journal] else []
  pure (value ++ [counts] ++ tree)

/-- Run the unit in a file. Nothing is printed when its body fails. -/
def runUnit (fs : Files) (config : Config) (fuel : Nat) (path : String) (advance : List Double)
    (stats : Bool) : Report :=
  match fs.loadScript path 1 with
  | .error e => .fail (.load path e)
  | .ok s =>
    let (f, w) :=
      (World.start .epoch ⟨config.maxLoopRounds, config.maxPending⟩).addFrame s.frameSize none
    let body : Exec (Option Value × List String) := do
      let out ← s.run fuel f
      World.checkAll fuel
      let ls ← drain
      pure (out.value, ls)
    match body.run w with
    | (.error stop, _) => ⟨"", endingOf stop⟩
    | (.ok (result, ls), w) =>
      match advanceEach fuel advance w ls with
      | (printed, .success, w) =>
        match closing s result stats w with
        | .ok last => ⟨Report.lines (printed ++ last), .success⟩
        | .error stop => ⟨Report.lines printed, endingOf stop⟩
      | (printed, ending, _) => ⟨Report.lines printed, ending⟩

end Command

def Invocation.perform (i : Invocation) (fs : Files) (vars : Vars) (fuel : Nat) : Report :=
  match Config.load fs vars i.config? with
  | .error stop => .stop stop
  | .ok config =>
    match i.command with
    | .check unit => Command.checkUnit fs unit
    | .describe unit compact stats => Command.describeUnit fs config unit compact stats
    | .run unit advance stats => Command.runUnit fs config fuel unit advance stats
    | .config =>
      match config.render with
      | .error stop => .stop stop
      | .ok text => ⟨text, .success⟩

end Vigil
