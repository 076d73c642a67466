import LiveUI.Value.Basic
import LiveUI.Expr.Basic

/-!
# Executable expressions

Code is an expression whose names have been resolved, each to a slot of a frame, to the record of
the change that is being handled or to a constant. Resolving goes from left to right and fails at
the first name that is not known.
-/

namespace LiveUI

inductive Code where
  | const (value : Value)
  | slot (index : Nat)
  /-- The record of the change that is being handled. -/
  | change
  | list (items : List Code)
  | attr (value : Code) (attr : String)
  | index (value index : Code)
  | call (func : Code) (args : List Code)
  | unary (op : UnaryOp) (operand : Code)
  | binary (op : BinaryOp) (left right : Code)
  | boolOp (op : BoolOp) (left right : Code)
  | ifElse (body condition otherwise : Code)
deriving Inhabited

/-- Lowering counts the functions that it makes, and fails with a name. -/
abbrev Lowering := StateT Nat (Except String)

namespace Code

mutual

/-- The code of an expression, every name resolved by `resolve`. -/
def lower (resolve : String → Lowering Code) : Expr → Lowering Code
  | .int n => return const (.int n)
  | .float x => return const (.float x)
  | .str s => return const (.str s)
  | .bool b => return const (.bool b)
  | .nil => return const .nil
  | .name n => resolve n
  | .list items => return list (← lowerAll resolve items)
  | .attr value a => return attr (← lower resolve value) a
  | .index value i => return index (← lower resolve value) (← lower resolve i)
  | .call func args => return call (← lower resolve func) (← lowerAll resolve args)
  | .unary op operand => return unary op (← lower resolve operand)
  | .binary op left right => return binary op (← lower resolve left) (← lower resolve right)
  | .boolOp op left right => return boolOp op (← lower resolve left) (← lower resolve right)
  | .ifElse body condition otherwise =>
      return ifElse (← lower resolve body) (← lower resolve condition) (← lower resolve otherwise)

def lowerAll (resolve : String → Lowering Code) : List Expr → Lowering (List Code)
  | [] => return []
  | e :: es => return (← lower resolve e) :: (← lowerAll resolve es)

end

/-- A new function value for a builtin. Every use of a builtin name is a function of its own. -/
def builtin (b : Builtin) : Lowering Code := fun n =>
  .ok (const (.func ⟨n, b.name, .builtin b⟩), n + 1)

/-- The builtin of a name, or the failure to know it. -/
def builtinNamed (name : String) : Lowering Code :=
  match Builtin.ofName? name with
  | some b => builtin b
  | none => throw name

/-- The base and the attribute of code that reads one attribute, the only form that can be written
through. -/
def attrPath? : Code → Option (Code × String)
  | attr value a => some (value, a)
  | _ => none

end Code

end LiveUI
