import LiveUI.Value.Call
import LiveUI.World.Teardown

/-!
# Evaluating code in the world

Operands go from left to right, and only the branch that is taken is evaluated. Reading an attribute
is the only look at the world; a recording evaluation notes each attribute before it is read, so
that the failure to find one is noted too. Functions of the host may change the world in between.
-/

namespace LiveUI

/-- A computation on the world. It has no result where announcements nest deeper than is allowed. -/
abbrev Step := StateT World Option

/-- The attributes that an evaluation has read, in the order of the first reads. -/
structure Reads where
  recording : Bool
  pairs : List (Handle × String) := []

namespace Reads

def contains (r : Reads) (o : Handle) (attr : String) : Bool :=
  r.pairs.any fun (p, a) => p.id == o.id && a == attr

def note (r : Reads) (o : Handle) (attr : String) : Reads :=
  if r.recording && !r.contains o attr then { r with pairs := r.pairs ++ [(o, attr)] } else r

end Reads

abbrev Evaluation := ExceptT EvalError (StateT Reads Step)

/-- What a slot and the change record stand for. -/
structure Scope where
  frame : Frame
  change : Value := .nil

/-- How a function is called. -/
abbrev Apply := Func → List Value → Step (Except EvalError Value)

namespace Evaluation

def readAttr (base : Value) (attr : String) : Evaluation Value :=
  match base with
  | .object o => do
      modifyThe Reads (·.note o attr)
      match (← getThe World).attr? o attr with
      | some v => return v
      | none => throw (.missingAttribute o.typeName attr)
  | v => throw (.missingAttribute v.typeName attr)

def call (apply : Apply) (callee : Value) (args : List Value) : Evaluation Value :=
  match callee with
  | .func f => ExceptT.mk (liftM (apply f args))
  | v => throw (.notCallable v.typeName)

end Evaluation

namespace Code

open Evaluation

mutual

def eval (apply : Apply) (scope : Scope) : Code → Evaluation Value
  | .const v => return v
  | .slot n => return scope.frame.get n
  | .change => return scope.change
  | .list items => return .list (← evalAll apply scope items)
  | .attr value a => do
      let base ← eval apply scope value
      readAttr base a
  | .index value i => do
      let base ← eval apply scope value
      let i ← eval apply scope i
      ofExcept (Value.subscript base i)
  | .call func args => do
      let callee ← eval apply scope func
      let args ← evalAll apply scope args
      Evaluation.call apply callee args
  | .unary op operand => do
      let v ← eval apply scope operand
      ofExcept (Value.unary op v)
  | .binary op left right => do
      let l ← eval apply scope left
      let r ← eval apply scope right
      ofExcept (Value.binary op l r)
  | .boolOp .and left right => do
      let l ← eval apply scope left
      if l.isTruthy then eval apply scope right else return l
  | .boolOp .or left right => do
      let l ← eval apply scope left
      if l.isTruthy then return l else eval apply scope right
  | .ifElse body condition otherwise => do
      let t ← eval apply scope condition
      if t.isTruthy then eval apply scope body else eval apply scope otherwise

def evalAll (apply : Apply) (scope : Scope) : List Code → Evaluation (List Value)
  | [] => return []
  | c :: cs => do
      let v ← eval apply scope c
      return v :: (← evalAll apply scope cs)

end

/-- The value of code and, of a recording evaluation, the attributes that it read. -/
def evaluate (apply : Apply) (scope : Scope) (recording : Bool) (code : Code) :
    Step (Except EvalError Value × List (Handle × String)) := do
  let (result, reads) ← ((code.eval apply scope).run).run { recording }
  return (result, reads.pairs)

/-- The value of code alone. -/
def value (apply : Apply) (scope : Scope) (code : Code) : Step (Except EvalError Value) := do
  return (← code.evaluate apply scope false).1

end Code

end LiveUI
