import LiveUI.Session.Function
import LiveUI.World.Propagation

/-!
# Written values

A value as the script of a session writes it: with names for values that the session keeps, and with
functions, which are made anew each time that the value is asked for.
-/

namespace LiveUI.Session

inductive Term where
  | value (v : Value)
  | list (items : List Term)
  | named (name : String)
  | host (f : HostFunc)
  | builtin (b : Builtin)
deriving Inhabited

namespace Term

mutual

/-- Ask for the value of a term and go on with it. A name that is not kept stands for nothing. -/
def ask (m : Memory) : Term → (Value → Host) → Host
  | value v, next => next v
  | list items, next => askAll m items fun vs => next (.list vs)
  | named name, next => next ((m.value? name).getD .nil)
  | host f, next => .function f.name f.routine fun f => next (.func f)
  | builtin b, next => .builtin b fun f => next (.func f)

def askAll (m : Memory) : List Term → (List Value → Host) → Host
  | [], next => next []
  | t :: ts, next => ask m t fun v => askAll m ts fun vs => next (v :: vs)

end

/-- The value of a term. Nothing is written meanwhile, so nothing is announced. -/
def force (t : Term) : Step Value := do
  let answer ← (t.ask (← get).memory fun v => .done (.ok v)).run fun _ => return ()
  return answer.toOption.getD .nil

end Term

end LiveUI.Session
