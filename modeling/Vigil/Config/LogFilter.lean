import Vigil.Config.Pattern
import Vigil.Number.Decimal
import Vigil.Text.Alphanumeric

/-!
# Vigil.Config.LogFilter — which log filters are well formed

A filter is a list of directives with commas between them; empty ones do not
count. A directive names a target, a span in brackets with fields in braces,
or both, and may give a level after an equals sign.

Parts of a directive are looked for in its text without the blanks around it,
and cut by byte positions out of the text with them. With blanks in front a
part is therefore some bytes off, and a cut may fall inside a character; then
the filter is *torn*, which is worse than being malformed.

* `LogFilter.check` — whether a filter is well formed, malformed or torn.
-/

namespace Vigil.LogFilter

inductive Refusal where
  | malformed
  /-- A part would begin or end inside a character. -/
  | torn
deriving DecidableEq, Repr

/-! ## Bytes -/

def dropBytes? : Nat → List Char → Option (List Char)
  | 0, text => some text
  | _ + 1, [] => none
  | n + 1, c :: rest => if c.utf8Size ≤ n + 1 then dropBytes? (n + 1 - c.utf8Size) rest else none

def takeBytes? : Nat → List Char → Option (List Char)
  | 0, _ => some []
  | _ + 1, [] => none
  | n + 1, c :: rest =>
    if c.utf8Size ≤ n + 1 then (takeBytes? (n + 1 - c.utf8Size) rest).map (c :: ·) else none

def cutFrom (text : List Char) (start : Nat) : Except Refusal (List Char) :=
  match dropBytes? start text with
  | some part => pure part
  | none => throw .torn

def cut (text : List Char) (start stop : Nat) : Except Refusal (List Char) := do
  match takeBytes? (stop - start) (← cutFrom text start) with
  | some part => pure part
  | none => throw .torn

/-! ## Parts -/

/-- A level: a word, or a number up to five. -/
def isLevel (text : List Char) : Bool :=
  let digits := match text with
    | '+' :: rest => rest
    | text => text
  (Digits.natural? digits).any (· ≤ 5)
    || ["trace", "debug", "info", "warn", "error", "off"].contains (String.ofList text).toLower

/-- Whether a field is well formed: a name, and maybe a value, which is a truth
value, a number or a pattern. -/
def isField (text : List Char) : Bool :=
  match text, text.dropWhile (· ≠ '=') with
  | [], _ => false
  | _, [] => true
  | _, _ :: value =>
    let value := value.takeWhile (· ≠ '=')
    let word := String.ofList value
    word = "true" || word = "false" || (Double.ofText? word).isSome || Pattern.isValid value

/-- A first character that is neither a bracket nor refused. -/
def isTargetStart (c : Char) : Bool := c = '-' || c = ':' || c = '_' || Text.isAlphanumeric c

/-! ## Directives -/

/-- Where a directive stands. A part that is open began at a byte. -/
inductive Place where
  | start
  | head (first : Nat)
  | span (first : Nat)
  | field (first : Nat)
  | fields
  | target
  | level (first : Nat)
deriving DecidableEq, Repr

def Place.step (text : List Char) (pos : Nat) (c : Char) : Place → Except Refusal Place
  | .start =>
    if c = '[' then pure (.span (pos + 1))
    else if isTargetStart c then pure (.head pos)
    else throw .malformed
  | .head first =>
    if c = '=' then do
      let _ ← cut text first pos
      pure (.level (pos + 1))
    else if c = '[' then do
      let _ ← cut text first pos
      pure (.span (pos + 1))
    else pure (.head first)
  | .span first =>
    if c = ']' then do
      let _ ← cut text first pos
      pure .target
    else if c = '\x7b' then do
      let _ ← cut text first pos
      pure (.field (pos + 1))
    else pure (.span first)
  | .field first =>
    if c = '\x7d' then do
      if isField (← cut text first pos) then pure .fields else throw .malformed
    else pure (.field first)
  | .fields => if c = ']' then pure .target else throw .malformed
  | .target => if c = '=' then pure (.level (pos + 1)) else throw .malformed
  | .level first => pure (.level first)

def Place.finish (text : List Char) : Place → Except Refusal Unit
  | .head first => do
    let _ ← cutFrom text first
    pure ()
  | .level first => do
    let level ← cutFrom text first
    if level.isEmpty || isLevel level then pure () else throw .malformed
  | .target => pure ()
  | .start | .span _ | .field _ | .fields => throw .malformed

def run (text : List Char) : (pos : Nat) → List Char → Place → Except Refusal Unit
  | _, [], p => p.finish text
  | pos, c :: rest, p => do run text (pos + c.utf8Size) rest (← p.step text pos c)

def directive (text : List Char) : Except Refusal Unit :=
  run text 0 (Text.trimEnd (Text.trimStart text)) .start

def check (filter : String) : Except Refusal Unit :=
  ((filter.splitOn ",").filter (· ≠ "")).forM fun d => directive d.toList

end Vigil.LogFilter
