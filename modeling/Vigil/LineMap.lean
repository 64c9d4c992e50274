import Vigil.Script

/-!
# Vigil.LineMap — from source lines to statements

For every tracked file, the statements that stand in it, ordered by where
they start; statements that start at the same place keep the order in which
they were recorded. Nothing is recorded before tracking starts or for a file
that is not tracked.
-/

namespace Vigil

structure Landmark where
  span : Span
  stmt : StmtId
deriving DecidableEq, Repr

namespace Landmark

/-- Swap the landmark at `i` back as long as the one before it starts after it. -/
def swapBack (marks : Array Landmark) : (i : Nat) → i < marks.size → Array Landmark
  | 0, _ => marks
  | i + 1, hi =>
    if marks[i].span.startsAfter marks[i + 1].span then
      swapBack (marks.swap i (i + 1)) i (by simp only [Array.size_swap]; omega)
    else marks

/-- Take in one more landmark. Mostly it is the last one; otherwise it is swapped
back into its place. -/
def pushOnto (m : Landmark) (marks : Array Landmark) : Array Landmark :=
  swapBack (marks.push m) marks.size (by simp)

end Landmark

/-- Line maps of the tracked files; `none` when there is no tracking. -/
structure LineMaps where
  files : Option (List (String × Array Landmark))

namespace LineMaps

def off : LineMaps := ⟨none⟩

/-- Start tracking; maps that exist are kept. -/
def enable (m : LineMaps) : LineMaps := ⟨some (m.files.getD [])⟩

def isEnabled (m : LineMaps) : Bool := m.files.isSome

/-- Landmarks of a file, in order; `none` when it is not tracked. -/
def file? (m : LineMaps) (file : String) : Option (Array Landmark) :=
  m.files.bind (·.lookup file)

def landmarks (m : LineMaps) (file : String) : List Landmark :=
  ((m.file? file).getD #[]).toList

def track (m : LineMaps) (file : String) : LineMaps :=
  match m.files with
  | none => m
  | some files => if (files.lookup file).isSome then m else ⟨some ((file, #[]) :: files)⟩

def update (file : String) (g : Array Landmark → Array Landmark) :
    List (String × Array Landmark) → List (String × Array Landmark)
  | [] => []
  | (name, marks) :: rest =>
    if name = file then (name, g marks) :: rest else (name, marks) :: update file g rest

/-- Record a statement; a file that is not tracked stays so. -/
def record (m : LineMaps) (file : String) (mark : Landmark) : LineMaps :=
  ⟨m.files.map (update file mark.pushOnto)⟩

/-- First statement that starts on a line. -/
def atLine? (m : LineMaps) (file : String) (line : Nat) : Option StmtId :=
  ((m.landmarks file).find? (·.span.startLine == line)).map (·.stmt)

/-- Record the statements of a script, if it names its file. -/
def recordScript (m : LineMaps) (s : Script) : LineMaps :=
  match s.file? with
  | none => m
  | some file =>
    s.placed.foldl (fun m (span, stmt) => m.record file ⟨span, stmt⟩) (m.track file)

end LineMaps

end Vigil
