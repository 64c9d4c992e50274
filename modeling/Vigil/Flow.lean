/-!
# Vigil.Flow — how control continues

Every executed statement reports one flow. `next` is the neutral one: a
sequence goes on as long as its children report it.
-/

namespace Vigil

/-- Control transfer an executed statement asks for. -/
inductive Flow where
  | next
  | break
  | return
  /-- The next round of the enclosing loop. -/
  | loop
  | fallthrough
deriving DecidableEq, Repr, Inhabited

namespace Flow

def name : Flow → String
  | .next => "next-stmt"
  | .break => "break"
  | .return => "return"
  | .loop => "loop"
  | .fallthrough => "fallthrough"

/-- Whether the enclosing loop or run of cases ends here. -/
def stops : Flow → Bool
  | .break | .return => true
  | _ => false

/-- A loop's own flow once it ended: what belongs to the loop is used up. -/
def afterLoop : Flow → Flow
  | .loop | .break => .next
  | f => f

/-- A switch's own flow: only `return` leaves it. -/
def afterSwitch : Flow → Flow
  | .return => .return
  | _ => .next

end Flow

end Vigil
