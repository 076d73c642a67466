import LiveUI.Number.Numeral

/-!
# Values

What flows through expressions, attributes and slots. Objects and functions are values by their
identity: a handle carries the identity and the type name of an object, both of which never change.
-/

namespace LiveUI

/-- A reference to an object. -/
structure Handle where
  id : Nat
  typeName : String
deriving DecidableEq, Repr, Inhabited

/-- The functions that every expression can call. -/
inductive Builtin where
  | len | str | int | float | bool | abs | min | max
deriving DecidableEq, Repr, Inhabited

namespace Builtin

def name : Builtin → String
  | len => "len"
  | str => "str"
  | int => "int"
  | float => "float"
  | bool => "bool"
  | abs => "abs"
  | min => "min"
  | max => "max"

def all : List Builtin :=
  [len, str, int, float, bool, abs, min, max]

def ofName? (name : String) : Option Builtin :=
  all.find? (·.name == name)

end Builtin

/-- Whether a function is a builtin or belongs to the host. -/
inductive FuncKind where
  | builtin (b : Builtin)
  | host
deriving DecidableEq, Repr, Inhabited

/-- A function. Two functions are the same when their identities are. -/
structure Func where
  id : Nat
  name : String
  kind : FuncKind
deriving DecidableEq, Repr, Inhabited

inductive Value where
  | nil
  | bool (b : Bool)
  | int (n : Int64)
  | float (x : Float)
  | str (s : String)
  | list (items : List Value)
  | object (o : Handle)
  | func (f : Func)
deriving Repr, Inhabited

namespace Value

/-- The name of the type of a value; for an object the name it was made with. -/
def typeName : Value → String
  | nil => "NoneType"
  | bool _ => "bool"
  | int _ => "int"
  | float _ => "float"
  | str _ => "str"
  | list _ => "list"
  | object o => o.typeName
  | func _ => "function"

def isTruthy : Value → Bool
  | nil => false
  | bool b => b
  | int n => n != 0
  | float x => x != 0.0
  | str s => !s.isEmpty
  | list items => !items.isEmpty
  | object _ | func _ => true

/-- The integer that an integer or a truth value stands for. -/
def asInt? : Value → Option Int64
  | int n => some n
  | bool b => some (if b then 1 else 0)
  | _ => none

/-- The double that a number or a truth value stands for. -/
def asFloat? : Value → Option Float
  | float x => some x
  | int n => some n.toFloat
  | bool b => some (if b then 1.0 else 0.0)
  | _ => none

def asStr? : Value → Option String
  | str s => some s
  | _ => none

def asList? : Value → Option (List Value)
  | list items => some items
  | _ => none

def asObject? : Value → Option Handle
  | object o => some o
  | _ => none

mutual

/-- Equality as expressions and attribute writes see it. Two integers are compared exactly, any
other two numbers as doubles; objects and functions by identity. -/
def beq : Value → Value → Bool
  | nil, nil => true
  | str a, str b => a == b
  | list as, list bs => beqList as bs
  | object a, object b => a.id == b.id
  | func a, func b => a.id == b.id
  | int a, int b => a == b
  | a, b =>
      match asFloat? a, asFloat? b with
      | some x, some y => x == y
      | _, _ => false

def beqList : List Value → List Value → Bool
  | [], [] => true
  | a :: as, b :: bs => beq a b && beqList as bs
  | _, _ => false

end

instance : BEq Value := ⟨beq⟩

end Value

end LiveUI
