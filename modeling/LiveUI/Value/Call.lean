import LiveUI.Text.Blank
import LiveUI.Text.Quoted
import LiveUI.Value.Operators
import LiveUI.Value.Text

/-!
# The builtin functions

Lengths, conversions, the magnitude of a number and the extremes of a list. A builtin looks at its
arguments only.
-/

namespace LiveUI.Builtin

def fail {α : Type} (b : Builtin) (message : String) : Except EvalError α :=
  .error (.call b.name message)

/-- The only argument. -/
def only (b : Builtin) : List Value → Except EvalError Value
  | [v] => .ok v
  | args => b.fail ("takes exactly one argument (" ++ toString args.length ++ " given)")

def lenOf : Value → Except EvalError Value
  | .str s => .ok (.int (Int64.ofNat s.toList.length))
  | .list items => .ok (.int (Int64.ofNat items.length))
  | v => len.fail ("object of type '" ++ v.typeName ++ "' has no len()")

def toInt : Value → Except EvalError Value
  | .str s =>
      match Number.readInt? (Text.trim s) with
      | some n => .ok (.int n)
      | none => int.fail ("invalid literal: " ++ Text.quoted s)
  | v =>
      match v, v.asInt? with
      | .float x, _ =>
          match Number.truncated? x with
          | some n => .int <$> Value.exactly n
          | none => int.fail ("cannot convert '" ++ v.typeName ++ "'")
      | _, some n => .ok (.int n)
      | _, none => int.fail ("cannot convert '" ++ v.typeName ++ "'")

def toFloat : Value → Except EvalError Value
  | .str s =>
      match Number.readFloat? (Text.trim s) with
      | some x => .ok (.float x)
      | none => float.fail ("invalid literal: " ++ Text.quoted s)
  | v =>
      match v.asFloat? with
      | some x => .ok (.float x)
      | none => float.fail ("cannot convert '" ++ v.typeName ++ "'")

def magnitude : Value → Except EvalError Value
  | .float x => .ok (.float x.abs)
  | v =>
      match v.asInt? with
      | some n => .int <$> Value.exactly n.toInt.natAbs
      | none => abs.fail ("bad operand type '" ++ v.typeName ++ "'")

/-- The element that a fold keeps: a later one only where it is on the side `keep` of the best. -/
def keepBest (keep : Ordering) (best : Value) : List Value → Except EvalError Value
  | [] => .ok best
  | v :: vs => do
      let o ← Value.compare v best
      keepBest keep (if o = keep then v else best) vs

/-- The extreme of the elements of one list, or of any other number of arguments. -/
def extreme (b : Builtin) (keep : Ordering) (args : List Value) : Except EvalError Value :=
  let candidates := match args with
    | [.list items] => some items
    | [_] => none
    | args => some args
  match candidates with
  | none => b.fail "expected a list or at least two arguments"
  | some [] => b.fail "arg is an empty sequence"
  | some (v :: vs) => keepBest keep v vs

def apply (b : Builtin) (args : List Value) : Except EvalError Value :=
  match b with
  | len => only len args >>= lenOf
  | str => (fun v => .str v.text) <$> only str args
  | int => only int args >>= toInt
  | float => only float args >>= toFloat
  | bool => (fun v => .bool v.isTruthy) <$> only bool args
  | abs => only abs args >>= magnitude
  | min => extreme min .lt args
  | max => extreme max .gt args

end LiveUI.Builtin
