import Vigil.Expr.Basic
import Vigil.Key

/-!
# Vigil.Stmt.Basic — executable statements

The statement tree a unit is built into. Every node has a location and a
number that no other statement has; the journal and the line maps refer to
statements by it.
-/

namespace Vigil

abbrev StmtId := Nat

structure StmtInfo where
  id : StmtId
  span : Span
deriving DecidableEq, Repr

/-- A label naming a type, optionally binding the value. -/
structure TypeCase where
  ty : Ty
  binding? : Option Ident
  span : Span
deriving DecidableEq, Repr

inductive Labels where
  | values (labels : List Expr)
  | types (labels : List TypeCase)
  | default
deriving Repr

/-- A type label as dispatch sees it: the arm it leads to. -/
structure TypeArm where
  ty : Ty
  binding? : Option Ident
  arm : Nat
deriving DecidableEq, Repr

/-- Where a switch goes: value labels by their key, type labels in the order
they are tried, and the default arm. -/
structure Dispatch where
  values : List (Key × Nat)
  types : List TypeArm
  default? : Option Nat
deriving DecidableEq, Repr

mutual

inductive Stmt where
  | list (info : StmtInfo) (body : List Stmt)
  /-- Handler bodies of one event; each runs whatever the others did. -/
  | bodyList (info : StmtInfo) (bodies : List Stmt)
  | expr (info : StmtInfo) (e : Expr)
  | print (info : StmtInfo) (args : List Expr)
  | event (info : StmtInfo) (name : String) (args : List Expr)
  | cond (info : StmtInfo) (test : Expr) (thenBody elseBody : Stmt)
  | while (info : StmtInfo) (test : Expr) (body : Stmt)
  | for (info : StmtInfo) (vars : List Ident) (valueVar : Option Ident) (target : Expr)
      (body : Stmt)
  | switch (info : StmtInfo) (selector : Expr) (cases : List Case) (dispatch : Dispatch)
  | add (info : StmtInfo) (target : Expr)
  | delete (info : StmtInfo) (target : Expr)
  | next (info : StmtInfo)
  | break (info : StmtInfo)
  | fallthrough (info : StmtInfo)
  | return (info : StmtInfo) (value : Option Expr)
  | init (info : StmtInfo) (idents : List Ident)
  | null (info : StmtInfo)
  /-- Wait for a condition; as `return when`, its result becomes the frame's. -/
  | when (info : StmtInfo) (test : Expr) (body : Stmt) (timeout : Option Expr)
      (timeoutBody : Option Stmt) (isReturn : Bool)

inductive Case where
  | mk (labels : Labels) (body : Stmt) (span : Span)

end

inductive StmtTag where
  | print | event | expr | cond | when | switch | for | next | break | return | add | delete
  | list | bodyList | init | fallthrough | while | null
deriving DecidableEq, Repr

namespace StmtTag

def name : StmtTag → String
  | .print => "print"
  | .event => "event"
  | .expr => "expr"
  | .cond => "if"
  | .when => "when"
  | .switch => "switch"
  | .for => "for"
  | .next => "next"
  | .break => "break"
  | .return => "return"
  | .add => "add"
  | .delete => "delete"
  | .list => "list"
  | .bodyList => "bodylist"
  | .init => "<init>"
  | .fallthrough => "fallthrough"
  | .while => "while"
  | .null => "null"

/-- Number of the form in compact descriptions. -/
def code : StmtTag → Nat
  | .print => 1
  | .event => 2
  | .expr => 3
  | .cond => 4
  | .when => 5
  | .switch => 6
  | .for => 7
  | .next => 8
  | .break => 9
  | .return => 10
  | .add => 11
  | .delete => 12
  | .list => 13
  | .bodyList => 14
  | .init => 15
  | .fallthrough => 16
  | .while => 17
  | .null => 18

/-- Forms after which the rest of a list is never reached. -/
def isJump : StmtTag → Bool
  | .break | .next | .fallthrough | .return => true
  | _ => false

/-- Forms the body of a case has to end in. -/
def endsCase : StmtTag → Bool
  | .break | .fallthrough | .return => true
  | _ => false

end StmtTag

namespace Case

def labels : Case → Labels
  | .mk labels _ _ => labels

def body : Case → Stmt
  | .mk _ body _ => body

def span : Case → Span
  | .mk _ _ span => span

def isDefault (c : Case) : Bool :=
  match c.labels with
  | .default => true
  | _ => false

end Case

namespace Stmt

def info : Stmt → StmtInfo
  | .list i _ | .bodyList i _ | .expr i _ | .print i _ | .event i _ _ | .cond i _ _ _
  | .while i _ _ | .for i _ _ _ _ | .switch i _ _ _ | .add i _ | .delete i _ | .next i
  | .break i | .fallthrough i | .return i _ | .init i _ | .null i | .when i _ _ _ _ _ => i

def id (s : Stmt) : StmtId := s.info.id

def span (s : Stmt) : Span := s.info.span

def tag : Stmt → StmtTag
  | .list .. => .list
  | .bodyList .. => .bodyList
  | .expr .. => .expr
  | .print .. => .print
  | .event .. => .event
  | .cond .. => .cond
  | .while .. => .while
  | .for .. => .for
  | .switch .. => .switch
  | .add .. => .add
  | .delete .. => .delete
  | .next _ => .next
  | .break _ => .break
  | .fallthrough _ => .fallthrough
  | .return .. => .return
  | .init .. => .init
  | .null _ => .null
  | .when .. => .when

/-! ## Static properties -/

mutual

/-- Form of the statement that ends this one, looking into lists; an empty
list ends in itself. -/
def lastTag : Stmt → StmtTag
  | .list _ body => lastTagOf body
  | s => s.tag

def lastTagOf : List Stmt → StmtTag
  | [] => .list
  | [s] => lastTag s
  | _ :: rest => lastTagOf rest

end

def labelsPure : Labels → Bool
  | .values es => Expr.isPureList es
  | _ => true

mutual

def isPure : Stmt → Bool
  | .list _ body | .bodyList _ body => isPureList body
  | .expr _ e => e.isPure
  | .print .. | .event .. | .init .. | .add .. | .delete .. => false
  | .cond _ test thenBody elseBody => test.isPure && isPure thenBody && isPure elseBody
  | .while _ test body => test.isPure && isPure body
  | .for _ _ _ target body => target.isPure && isPure body
  | .switch _ selector cases _ => selector.isPure && isPureCases cases
  | .next _ | .break _ | .fallthrough _ | .null _ => true
  | .return _ (some e) => e.isPure
  | .return _ none => true
  | .when _ test body _ (some timeoutBody) _ => test.isPure && isPure body && isPure timeoutBody
  | .when _ test body _ none _ => test.isPure && isPure body

def isPureList : List Stmt → Bool
  | [] => true
  | s :: rest => isPure s && isPureList rest

def isPureCases : List Case → Bool
  | [] => true
  | .mk labels body _ :: rest => labelsPure labels && isPure body && isPureCases rest

end

mutual

/-- The statement and all below it, each before its parts. -/
def preorder : Stmt → List Stmt
  | s@(.list _ body) | s@(.bodyList _ body) => s :: preorderList body
  | s@(.cond _ _ thenBody elseBody) => s :: (preorder thenBody ++ preorder elseBody)
  | s@(.while _ _ body) | s@(.for _ _ _ _ body) => s :: preorder body
  | s@(.switch _ _ cases _) => s :: preorderCases cases
  | s@(.when _ _ body _ (some timeoutBody) _) => s :: (preorder body ++ preorder timeoutBody)
  | s@(.when _ _ body _ none _) => s :: preorder body
  | s => [s]

def preorderList : List Stmt → List Stmt
  | [] => []
  | s :: rest => preorder s ++ preorderList rest

def preorderCases : List Case → List Stmt
  | [] => []
  | .mk _ body _ :: rest => preorder body ++ preorderCases rest

end

end Stmt

end Vigil
