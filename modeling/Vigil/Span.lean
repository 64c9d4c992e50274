/-!
# Vigil.Span — source locations

A span gives the first and the last position of a piece of source, each a
line and a column. The span of zeros stands for an unknown location.
-/

namespace Vigil

structure Span where
  /-- First line, counted from one; zero when unknown. -/
  startLine : Nat
  startCol : Nat
  endLine : Nat
  endCol : Nat
deriving DecidableEq, Repr

namespace Span

def unknown : Span := ⟨0, 0, 0, 0⟩

instance : Inhabited Span := ⟨unknown⟩

/-- Whether position `(l₁, c₁)` comes before `(l₂, c₂)`. -/
def before (l₁ c₁ l₂ c₂ : Nat) : Bool := l₁ < l₂ || (l₁ = l₂ && c₁ < c₂)

def startsAfter (a b : Span) : Bool := before b.startLine b.startCol a.startLine a.startCol

/-- The least span that covers both; an unknown one adds no start. -/
def merge (a b : Span) : Span :=
  let first :=
    if a = unknown then b
    else if b = unknown then a
    else if b.startsAfter a then a else b
  let last := if before a.endLine a.endCol b.endLine b.endCol then b else a
  ⟨first.startLine, first.startCol, last.endLine, last.endCol⟩

end Span

end Vigil
