import Vigil.Expr.Text
import Vigil.Outline
import Vigil.World.Basic

/-!
# Vigil.Stmt.Text — describing statements

A readable description looks like the source; a compact one gives the number
of each form of statement followed by its parts, with their counts where they
vary. Access statistics come from the journal.
-/

namespace Vigil

/-! ## Parts -/

namespace Outline

def addTag (tag : StmtTag) (d : Outline) : Outline :=
  ((d.addReadable tag.name).addCount tag.code).blank

def done (d : Outline) : Outline := if d.isReadable then d.addTight ";" else d

def addParens (e : Expr) (d : Outline) : Outline :=
  d.add (if d.isReadable then "(" ++ e.text ++ ")" else e.text)

def addExprs (es : List Expr) (d : Outline) : Outline :=
  if d.isReadable then d.add (", ".intercalate (es.map (·.text)))
  else es.foldl (fun d e => d.add e.text) (d.addCount es.length)

def addNames (names : List String) (d : Outline) : Outline :=
  if d.isReadable then d.add (", ".intercalate names) else names.foldl (fun d n => d.add n) d

/-- When and how often a statement was executed, on a line of its own. -/
def addStats (j : Journal) (s : StmtId) (d : Outline) : Outline :=
  if d.showsStats then
    let time := match j.last? s with
      | some t => t.stamp
      | none => "<never>"
    (((((d.add "(@").add time).add " #").add (Digits.padded 1 (j.count s))).add ")").newline
  else d

def addTypeLabel (t : TypeCase) (d : Outline) : Outline :=
  let d := ((d.blank.add "type").blank).add t.ty.text
  match t.binding? with
  | some id => ((d.blank.add "as").blank).add id.name
  | none => d

/-- Labels one after the other, with commas before all but the first. -/
def addLabels {α : Type} (one : α → Outline → Outline) : List α → Outline → Outline
  | [], d => d
  | l :: rest, d => rest.foldl (fun d l => one l (d.addReadable ",")) (one l d)

def addCaseHead (labels : Labels) (d : Outline) : Outline :=
  match labels with
  | .default => (d.addReadable "default:").addCount 0
  | .values es =>
    let d := (d.addReadable "case").addCount es.length
    (addLabels (fun e d => d.blank.add e.text) es d).addReadable ":"
  | .types ts =>
    let d := (d.addReadable "case").addCount ts.length
    (addLabels addTypeLabel ts d).addReadable ":"

def addForHead (vars : List Ident) (valueVar : Option Ident) (target : Expr) (d : Outline) :
    Outline :=
  let names := ", ".intercalate (vars.map (·.name))
  let d := d.addReadable "("
  let d := if valueVar.isSome || 1 < vars.length then d.add ("[" ++ names ++ "]") else d.add names
  let d := match valueVar with
    | some v => d.add (", " ++ v.name)
    | none => d
  ((d.addReadable " in ").add target.text).addReadable ")"

/-- The body of a compound statement, one level deeper. -/
def nest (j : Journal) (s : StmtId) (body : Outline → Outline) (d : Outline) : Outline :=
  (body (d.pushIndent.addStats j s)).popIndent

end Outline

/-! ## Statements -/

namespace Stmt

def isNull : Stmt → Bool
  | .null _ => true
  | _ => false

mutual

def describe (j : Journal) : Stmt → Outline → Outline
  | .list _ body, d =>
    let d := if d.isReadable then d else (d.addTag .list).addCount body.length
    if body.isEmpty then d.done
    else ((describeLines j body (d.addReadable "\x7b").newline)).addReadable "\x7d"
  | .bodyList _ bodies, d =>
    if d.isReadable then describeBlocks j bodies d
    else describeRow j bodies ((d.addTag .bodyList).addCount bodies.length)
  | .expr _ e, d =>
    let d := if d.isReadable then d else d.addTag .expr
    (d.add e.text).done
  | .print _ args, d => ((d.addTag .print).addExprs args).done
  | .event _ name args, d =>
    (((((d.addTag .event).add name).addReadable "(").addExprs args).addReadable ")").done
  | .cond _ test thenBody elseBody, d =>
    let d := Outline.nest j thenBody.id (describe j thenBody) ((d.addTag .cond).addParens test)
    if d.isReadable then
      if elseBody.isNull then d else Outline.nest j elseBody.id (describe j elseBody) (d.add "else")
    else describe j elseBody d
  | .while _ test body, d => Outline.nest j body.id (describe j body) ((d.addTag .while).addParens test)
  | .for _ vars valueVar target body, d =>
    Outline.nest j body.id (describe j body) ((d.addTag .for).addForHead vars valueVar target)
  | .switch _ selector cases _, d =>
    let d := (((d.addTag .switch).add selector.text).blank).addReadable "\x7b"
    let d := describeCases j cases (d.pushIndent.addCount cases.length)
    (d.popIndent.addReadable "\x7d").newline
  | .add _ target, d => ((d.addTag .add).add target.text).done
  | .delete _ target, d => ((d.addTag .delete).add target.text).done
  | .next _, d => (d.addTag .next).done
  | .break _, d => (d.addTag .break).done
  | .fallthrough _, d => (d.addTag .fallthrough).done
  | .return _ (some e), d => (((d.addTag .return).addCount 1).addParens e).done
  | .return _ none, d => ((d.addTag .return).addCount 0).done
  | .init _ ids, d =>
    (((d.addTag .init).addCount ids.length).addNames (ids.map (·.name))).done
  | .null _, d => if d.isReadable then d.done else d.addTag .null
  | .when _ test body timeout timeoutBody isReturn, d =>
    let d := if isReturn && d.isReadable then (d.add "return").blank else d
    let d := Outline.nest j body.id (describe j body) ((d.addTag .when).addParens test)
    match timeout with
    | none => d
    | some t =>
      if d.isReadable then describeTimeout j timeoutBody (((d.add "timeout").blank).add t.text)
      else describeOption j timeoutBody (d.add t.text)

def describeLines (j : Journal) : List Stmt → Outline → Outline
  | [], d => d
  | s :: rest, d => describeLines j rest (describe j s d).newline

def describeBlocks (j : Journal) : List Stmt → Outline → Outline
  | [], d => d
  | s :: rest, d =>
    describeBlocks j rest ((Outline.nest j s.id (describe j s) (d.add "\x7b")).add "\x7d").newline

def describeRow (j : Journal) : List Stmt → Outline → Outline
  | [], d => d
  | s :: rest, d => describeRow j rest (describe j s d)

def describeTimeout (j : Journal) : Option Stmt → Outline → Outline
  | none, d => d.done
  | some s, d => Outline.nest j s.id (describe j s) d

def describeOption (j : Journal) : Option Stmt → Outline → Outline
  | none, d => d
  | some s, d => describe j s d

def describeCases (j : Journal) : List Case → Outline → Outline
  | [], d => d
  | .mk labels body _ :: rest, d =>
    describeCases j rest (Outline.nest j body.id (describe j body) (d.addCaseHead labels))

end

def text (s : Stmt) (mode : OutlineMode) (stats : Bool) (j : Journal) : String :=
  (describe j s (.start mode stats)).text

end Stmt

end Vigil
