/-!
# Vigil.Text.Utf8 — byte strings and their text

Script strings are arbitrary bytes. `encode` gives the bytes of a text,
`decode?` the text of well-formed bytes, and `lossy` a text for any bytes:
each longest run of bytes that starts a character and cannot be continued is
shown as one replacement character.

`lossy` is a machine that takes one byte at a time. Between characters it is
at `start`; inside one it knows the bits so far, how many bytes are owed and
in what range the next one must lie.
-/

namespace Vigil

/-- Bytes of a script string. -/
abbrev Bytes := List UInt8

namespace Utf8

def encode (text : String) : Bytes := text.toUTF8.toList

def decode? (bytes : Bytes) : Option String := String.fromUTF8? ⟨bytes.toArray⟩

/-- The character shown for bytes that spell none. -/
def replacement : Char := '�'

/-- Where the machine stands between two bytes. -/
inductive State where
  | start
  /-- Inside a character: `owed` more bytes, the next one in `low .. high`. -/
  | inside (bits owed low high : Nat)
deriving DecidableEq, Repr

def lead (b : Nat) : List Char × State :=
  if b < 0x80 then ([Char.ofNat b], .start)
  else if b < 0xC2 then ([replacement], .start)
  else if b < 0xE0 then ([], .inside (b - 0xC0) 1 0x80 0xBF)
  else if b = 0xE0 then ([], .inside 0 2 0xA0 0xBF)
  else if b = 0xED then ([], .inside 0xD 2 0x80 0x9F)
  else if b < 0xF0 then ([], .inside (b - 0xE0) 2 0x80 0xBF)
  else if b = 0xF0 then ([], .inside 0 3 0x90 0xBF)
  else if b < 0xF4 then ([], .inside (b - 0xF0) 3 0x80 0xBF)
  else if b = 0xF4 then ([], .inside 4 3 0x80 0x8F)
  else ([replacement], .start)

/-- One byte: the characters it completes and the state after it. -/
def step (state : State) (byte : UInt8) : List Char × State :=
  let b := byte.toNat
  match state with
  | .start => lead b
  | .inside bits owed low high =>
    if low ≤ b ∧ b ≤ high then
      let bits := bits * 64 + (b - 0x80)
      if owed ≤ 1 then ([Char.ofNat bits], .start) else ([], .inside bits (owed - 1) 0x80 0xBF)
    else
      -- the broken character shows as one mark, and the byte starts anew
      let (shown, next) := lead b
      (replacement :: shown, next)

def shown : State → Bytes → List Char
  | .start, [] => []
  | .inside .., [] => [replacement]
  | state, b :: rest =>
    let (chars, next) := step state b
    chars ++ shown next rest

def lossy (bytes : Bytes) : String := String.ofList (shown .start bytes)

end Utf8

/-! ## Hexadecimal -/

namespace Hex

/-- Lower-case hexadecimal digits of `n`, `width` of them. -/
def padded (width n : Nat) : String :=
  let text := Nat.toDigits 16 n
  String.ofList (List.replicate (width - text.length) '0' ++ text)

def ofBytes (bytes : Bytes) : String :=
  String.join (bytes.map fun b => padded 2 b.toNat)

def value? (c : Char) : Option Nat :=
  if '0' ≤ c ∧ c ≤ '9' then some (c.toNat - 48)
  else if 'a' ≤ c ∧ c ≤ 'f' then some (c.toNat - 87)
  else if 'A' ≤ c ∧ c ≤ 'F' then some (c.toNat - 55)
  else none

def number? (text : List Char) : Option Nat :=
  if text.isEmpty then none
  else text.foldlM (fun n c => (value? c).map (16 * n + ·)) 0

def toBytes? : List Char → Option Bytes
  | [] => some []
  | [_] => none
  | a :: b :: rest => do
    let high ← value? a
    let low ← value? b
    let tail ← toBytes? rest
    pure (UInt8.ofNat (16 * high + low) :: tail)

end Hex

end Vigil
