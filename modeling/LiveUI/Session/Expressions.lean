import LiveUI.Session.Basic
import LiveUI.World.Binding

/-!
# Expressions over the named values

Each value that the session has named has a slot of its own, so an expression sees for a name the
value that was named last. A name that is not kept means the change that is handled, for `args`, or
a builtin.
-/

namespace LiveUI.Session

open LiveUI.Template

/-- The slot of the value named last. -/
def slotOf? (names : List (String × Value)) (name : String) : Option Nat :=
  (names.reverse.findIdx? (·.1 == name)).map fun i => names.length - 1 - i

def meaning (names : List (String × Value)) (name : String) : Lowering Code :=
  match slotOf? names name with
  | some slot => return .slot slot
  | none => if name = "args" then return .change else Code.builtinNamed name

/-- The frame with a slot for each named value. -/
def frame : Performing Frame := do
  return ⟨(← theWorld).memory.names.map (·.2)⟩

/-- The code of an expression over the named values. -/
def codeOf (source : String) : Performing Code := do
  match Expression.parse source with
  | .error e => throw (.malformed e)
  | .ok e =>
      let w ← theWorld
      match (Code.lower (meaning w.memory.names) e.expr).run w.nextFunction with
      | .error name => throw (.unknownName name)
      | .ok (code, nextFunction) =>
          change ({ · with nextFunction })
          return code

/-- The value of an expression, with the attributes that it reads. -/
def evaluate (source : String) : Performing Answer := do
  let code ← codeOf source
  let (result, reads) ← inWorld (code.evaluate (applyFunc announcing) { frame := ← frame } true)
  return .evaluation result reads

/-- Apply an operator to an attribute and keep the binding that it makes. -/
def bindAttr (name : String) (op : Markup.Operator) (o : Handle) (attr source : String) :
    Performing Answer := do
  let code ← codeOf source
  let label := attr ++ " " ++ op.symbol ++ " " ++ source
  let site : Site := { target := o, attr, frame := ← frame, label }
  match ← inWorld (applyOperator announcing site op code) with
  | .error cause => throw (.failed (.eval cause none))
  | .ok none => return .done
  | .ok (some b) =>
      keepBinding name b
      let x ← orRefuse .unknown ((← theWorld).binding? b)
      return .binding (.of x)

end LiveUI.Session
