import Vigil.Number.Decimal

/-!
# Vigil.Outline — a writer of descriptions

A description is either readable, with indented lines, or compact, a row of
tokens with single blanks between them. The same calls serve both: a readable
outline leaves out counts, a compact one leaves out blanks and line breaks.

In a readable outline no line ends in a blank and no two line breaks follow
each other.
-/

namespace Vigil

inductive OutlineMode where
  | readable
  | compact
deriving DecidableEq, Repr

structure Outline where
  mode : OutlineMode
  wantsStats : Bool
  /-- Text so far, the last character first. -/
  rev : List Char
  indent : Nat
  /-- Nothing was written on the current line yet. -/
  atLineStart : Bool
deriving DecidableEq, Repr

namespace Outline

def start (mode : OutlineMode) (wantsStats : Bool) : Outline := ⟨mode, wantsStats, [], 0, true⟩

def text (d : Outline) : String := String.ofList d.rev.reverse

def isReadable (d : Outline) : Bool := d.mode = .readable

/-- Statistics belong to readable outlines only. -/
def showsStats (d : Outline) : Bool := d.wantsStats && d.isReadable

/-- Text put right after what is there. -/
def append (s : String) (d : Outline) : Outline := { d with rev := s.toList.reverse ++ d.rev }

/-- Blanks at the end taken back. -/
def trim (d : Outline) : Outline := { d with rev := d.rev.dropWhile (· = ' ') }

def add (s : String) (d : Outline) : Outline :=
  match d.mode with
  | .readable =>
    if d.atLineStart then
      { d with rev := List.replicate d.indent '\t' ++ d.rev, atLineStart := false }.append s
    else d.append s
  | .compact => if d.rev.isEmpty then d.append s else (d.append " ").append s

/-- A token that takes back a blank before it. -/
def addTight (s : String) (d : Outline) : Outline :=
  if d.isReadable && !d.atLineStart then d.trim.append s else d.add s

/-- A number that only compact outlines show. -/
def addCount (n : Nat) (d : Outline) : Outline :=
  if d.isReadable then d else d.add (Digits.padded 1 n)

/-- A token that only readable outlines show. -/
def addReadable (s : String) (d : Outline) : Outline := if d.isReadable then d.add s else d

def blank (d : Outline) : Outline :=
  if d.isReadable && !d.atLineStart then d.append " " else d

/-- A line break, unless the line is empty. -/
def newline (d : Outline) : Outline :=
  if d.isReadable && !d.atLineStart then { d.trim.append "\n" with atLineStart := true } else d

def pushIndent (d : Outline) : Outline := { d with indent := d.indent + 1 }.newline

def popIndent (d : Outline) : Outline := { d with indent := d.indent - 1 }.newline

end Outline

end Vigil
