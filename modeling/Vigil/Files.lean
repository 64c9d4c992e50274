/-!
# Vigil.Files — a picture of a directory tree

The files a command may read, with their texts. Directories that hold
something need not be listed; an empty one is listed without a text.

A path is followed part by part from the top of the tree: every part but the
last has to be a directory, `.` stays there and `..` goes back up. What lies
outside of the tree does not exist.
-/

namespace Vigil

/-- Files and directories below one directory. -/
structure Files where
  /-- Paths by their components; a directory has no text. -/
  nodes : List (List String × Option String)

namespace Files

/-! ## Paths -/

/-- Parts of a path that are empty or `.` lead nowhere else. -/
def isIdle (part : String) : Bool := part = "" || part = "."

/-- Components of a path; idle ones do not count. -/
def components (path : String) : List String := (path.splitOn "/").filter fun c => !isIdle c

/-- A path without idle parts at its ends. -/
def tidy (path : String) : String :=
  let inner := (path.splitOn "/").dropWhile isIdle
  "/".intercalate (inner.reverse.dropWhile isIdle).reverse

def join (dir name : String) : String :=
  if dir.isEmpty ∨ dir.toList.getLast? = some '/' then dir ++ name else dir ++ "/" ++ name

/-- Whether the name at the end of a path is a stem, a point and `ending`. -/
def hasExtension (path ending : String) : Bool :=
  let name := (((components path).getLast?).getD "").toList
  let ending := ('.' :: ending.toList)
  ending.isSuffixOf name && ending.length < name.length

/-! ## The tree -/

/-- The tree of files with their texts; a path that ends in a slash is a
directory. -/
def ofList (files : List (String × String)) : Files :=
  ⟨files.map fun (path, text) =>
    (components path, if path.toList.getLast? = some '/' then none else some text)⟩

def isDirAt (fs : Files) (place : List String) : Bool :=
  place.isEmpty || fs.nodes.any fun (p, text) =>
    place.isPrefixOf p && (place.length < p.length || text.isNone)

/-- The place that parts of a path lead to; whether something is there is left
open. -/
def follow? (fs : Files) : (place : List String) → List String → Option (List String)
  | place, [] => some place
  | place, part :: rest =>
    if !fs.isDirAt place then none
    else if isIdle part then follow? fs place rest
    else if part = ".." then
      if place.isEmpty then none else follow? fs place.dropLast rest
    else follow? fs (place ++ [part]) rest

def place? (fs : Files) (path : String) : Option (List String) :=
  if path.toList.head? = some '/' then none else fs.follow? [] (path.splitOn "/")

def isDir (fs : Files) (path : String) : Bool := (fs.place? path).any fs.isDirAt

def read? (fs : Files) (path : String) : Option String := do
  (← fs.nodes.lookup (← fs.place? path))

def names (fs : Files) (dir : String) : List String :=
  match fs.place? dir with
  | none => []
  | some place =>
    (fs.nodes.filterMap fun (p, _) =>
      if place.isPrefixOf p then p[place.length]? else none).eraseDups

end Files

end Vigil
