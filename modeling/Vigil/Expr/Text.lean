import Vigil.Expr.Basic
import Vigil.Heap
import Vigil.Text.Quoted

/-!
# Vigil.Expr.Text — expressions as scripts write them

Operands that are themselves binary or assignments stand in parentheses, so
that the text shows the structure. String constants are quoted.
-/

namespace Vigil.Expr

def isCompound : Expr → Bool
  | .binary .. | .assign .. => true
  | _ => false

def constText : Value → String
  | .str s => Text.quote (Utf8.lossy s)
  | v => Heap.atomText v

def parens (e : Expr) (text : String) : String :=
  if e.isCompound then "(" ++ text ++ ")" else text

mutual

def text : Expr → String
  | .const v _ => constText v
  | .name i _ => i.name
  | .unary op e _ => op.symbol ++ parens e (text e)
  | .binary op l r _ => parens l (text l) ++ " " ++ op.symbol ++ " " ++ parens r (text r)
  | .assign t v _ => text t ++ " = " ++ text v
  | .index t is _ => parens t (text t) ++ "[" ++ ", ".intercalate (texts is) ++ "]"
  | .member [e] t _ => parens e (text e) ++ " in " ++ parens t (text t)
  | .member es t _ => "[" ++ ", ".intercalate (texts es) ++ "] in " ++ parens t (text t)
  | .size e _ => "|" ++ text e ++ "|"
  | .error _ => "<error>"

def texts : List Expr → List String
  | [] => []
  | e :: es => text e :: texts es

end

end Vigil.Expr
