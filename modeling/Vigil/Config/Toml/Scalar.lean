import Vigil.Config.Setting
import Vigil.Config.Toml.Token

/-!
# Vigil.Config.Toml.Scalar — numbers and times

A number is an integer that fits a signed word, in one of four bases, or a
double. A date, a time of day, or both with an offset is taken as a text in
one fixed form.
-/

namespace Vigil.Toml

/-! ## Numbers -/

/-- Digits of a base, single underscores between them; the underscores are
left out. -/
def digits? (isDigit : Char → Bool) : List Char → Option (List Char)
  | [] => none
  | [c] => if isDigit c then some [c] else none
  | c :: '_' :: rest => if isDigit c then (digits? isDigit rest).map (c :: ·) else none
  | c :: rest => if isDigit c then (digits? isDigit rest).map (c :: ·) else none

/-- Number in a base below ten, or sixteen, whose digits were checked. -/
def numberIn (base : Nat) (digits : List Char) : Nat :=
  digits.foldl (fun n c => base * n + (Hex.value? c).getD 0) 0

def word? (i : Int) : Option Setting :=
  if Word.IsSigned i then some (.int i) else none

/-- A decimal numeral without its sign: no needless zero in front, digits
around the point. One past the finite doubles has to be negative. -/
def decimal? (negative : Bool) (text : List Char) : Option Setting := do
  let wholeText := text.takeWhile fun c => c.isDigit || c = '_'
  let whole ← digits? Char.isDigit wholeText
  if whole.head? = some '0' ∧ 1 < whole.length then none
  else
    let rest := text.dropWhile fun c => c.isDigit || c = '_'
    if rest.isEmpty then
      let n : Int := Digits.number 0 whole
      word? (if negative then -n else n)
    else
      let (fraction, rest) ← match rest with
        | '.' :: rest => do
          let digits ← digits? Char.isDigit (rest.takeWhile fun c => c.isDigit || c = '_')
          pure ('.' :: digits, rest.dropWhile fun c => c.isDigit || c = '_')
        | rest => pure ([], rest)
      let exponent ← match rest with
        | [] => pure []
        | e :: rest =>
          if e = 'e' ∨ e = 'E' then
            match rest with
            | '+' :: r => (digits? Char.isDigit r).map fun ds => 'e' :: '+' :: ds
            | '-' :: r => (digits? Char.isDigit r).map fun ds => 'e' :: '-' :: ds
            | r => (digits? Char.isDigit r).map fun ds => 'e' :: ds
          else none
      let d ← Double.ofText? (String.ofList (whole ++ fraction ++ exponent))
      if negative then pure (.float d.neg)
      else if d.isInfinite then none
      else pure (.float d)

def number? (text : List Char) : Option Setting :=
  match text with
  | '0' :: 'x' :: rest =>
    (digits? (fun c => (Hex.value? c).isSome) rest).bind fun ds => word? (numberIn 16 ds)
  | '0' :: 'o' :: rest =>
    (digits? (fun c => '0' ≤ c && c ≤ '7') rest).bind fun ds => word? (numberIn 8 ds)
  | '0' :: 'b' :: rest =>
    (digits? (fun c => c = '0' || c = '1') rest).bind fun ds => word? (numberIn 2 ds)
  | text =>
    let (negative, unsigned) :=
      match text with
      | '-' :: r => (true, r)
      | '+' :: r => (false, r)
      | r => (false, r)
    if unsigned = "inf".toList then some (.float (Double.infinity negative))
    else if unsigned = "nan".toList then some (.float Double.nan)
    else decimal? negative unsigned

/-! ## Times -/

/-- Two digits with a value in `lo .. hi`, off the front of a text. -/
def twoDigits? (lo hi : Nat) : List Char → Option (Nat × List Char)
  | a :: b :: rest => do
    let n ← Digits.natural? [a, b]
    if lo ≤ n ∧ n ≤ hi then some (n, rest) else none
  | _ => none

def mark? (c : Char) : List Char → Option (List Char)
  | x :: rest => if x = c then some rest else none
  | [] => none

def daysIn (year month : Nat) : Nat :=
  if month = 2 then
    if year % 4 = 0 ∧ (year % 100 ≠ 0 ∨ year % 400 = 0) then 29 else 28
  else if month = 4 ∨ month = 6 ∨ month = 9 ∨ month = 11 then 30
  else 31

def date? (text : List Char) : Option (String × List Char) := do
  let year ← if 4 ≤ text.length then Digits.natural? (text.take 4) else none
  let rest ← mark? '-' (text.drop 4)
  let (month, rest) ← twoDigits? 1 12 rest
  let rest ← mark? '-' rest
  let (day, rest) ← twoDigits? 1 (daysIn year month) rest
  pure (Digits.padded 4 year ++ "-" ++ Digits.padded 2 month ++ "-" ++ Digits.padded 2 day, rest)

/-- Digits after the point of a second; nine of them count, and zeros at the
end are left out. -/
def secondPart? (text : List Char) : Option (String × List Char) :=
  match text with
  | '.' :: rest =>
    let digits := rest.takeWhile Digits.isDigit
    let kept := ((digits.take 9).reverse.dropWhile (· = '0')).reverse
    if digits.isEmpty then none
    else some (String.ofList (if kept.isEmpty then [] else '.' :: kept), rest.dropWhile Digits.isDigit)
  | rest => some ("", rest)

/-- A time of day; a minute may have a sixty-first second. -/
def clock? (text : List Char) : Option (String × List Char) := do
  let (hour, rest) ← twoDigits? 0 23 text
  let (minute, rest) ← twoDigits? 0 59 (← mark? ':' rest)
  let (second, rest) ← twoDigits? 0 60 (← mark? ':' rest)
  let (part, rest) ← secondPart? rest
  let two := Digits.padded 2
  pure (two hour ++ ":" ++ two minute ++ ":" ++ two second ++ part, rest)

/-- An offset from universal time, if there is one; one of zero has no minus
sign. -/
def offset? (text : List Char) : Option (String × List Char) :=
  let signed (sign : String) (rest : List Char) : Option (String × List Char) := do
    let (hour, rest) ← twoDigits? 0 23 rest
    let (minute, rest) ← twoDigits? 0 59 (← mark? ':' rest)
    let sign := if hour = 0 ∧ minute = 0 then "+" else sign
    pure (sign ++ Digits.padded 2 hour ++ ":" ++ Digits.padded 2 minute, rest)
  match text with
  | 'Z' :: rest | 'z' :: rest => some ("Z", rest)
  | '+' :: rest => signed "+" rest
  | '-' :: rest => signed "-" rest
  | rest => some ("", rest)

def stamp? (text : List Char) : Option (String × List Char) :=
  match date? text with
  | none => clock? text
  | some (date, rest) =>
    let clock := match rest with
      | c :: rest => if c = 'T' ∨ c = 't' ∨ c = ' ' then clock? rest else none
      | [] => none
    match clock with
    | none => some (date, rest)
    | some (clock, rest) =>
      (offset? rest).map fun (offset, rest) => (date ++ "T" ++ clock ++ offset, rest)

end Vigil.Toml
