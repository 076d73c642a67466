import LiveUI.Value.Basic

/-!
# Evaluation errors

Why an expression has no value, or its value cannot be stored.
-/

namespace LiveUI

/-- Operands that an operation does not take. -/
inductive TypeFault where
  | operands (op left right : String)
  | negation (operand : String)
  | unordered (left right : String)
  | index (typeName : String)
  | notSubscriptable (base : String)
deriving DecidableEq, Repr, Inhabited

def TypeFault.message : TypeFault → String
  | operands op left right =>
      "unsupported operand types for " ++ op ++ ": '" ++ left ++ "' and '" ++ right ++ "'"
  | negation operand => "bad operand type for unary -: '" ++ operand ++ "'"
  | unordered left right => "'<' not supported between '" ++ left ++ "' and '" ++ right ++ "'"
  | index typeName => "indices must be integers, not '" ++ typeName ++ "'"
  | notSubscriptable base => "'" ++ base ++ "' object is not subscriptable"

inductive EvalError where
  /-- An operation does not take the types of its operands. -/
  | type (fault : TypeFault)
  | zeroDivision
  /-- The exact result does not fit 64 bits. -/
  | overflow
  /-- A repetition that is too long to be made. -/
  | tooLarge
  | missingAttribute (typeName attr : String)
  | indexOutOfRange (index : Int64) (length : Nat)
  | notCallable (typeName : String)
  /-- A function refuses its arguments. -/
  | call (func message : String)
  /-- The value cannot be written back through what it was read from. -/
  | notAssignable (what : String)
deriving DecidableEq, Repr, Inhabited

def EvalError.message : EvalError → String
  | type fault => "type error: " ++ fault.message
  | zeroDivision => "division by zero"
  | overflow => "integer overflow"
  | tooLarge => "result too large to allocate"
  | missingAttribute typeName attr =>
      "'" ++ typeName ++ "' object has no attribute '" ++ attr ++ "'"
  | indexOutOfRange index length =>
      "index " ++ toString index.toInt ++ " out of range for length " ++ toString length
  | notCallable typeName => "'" ++ typeName ++ "' object is not callable"
  | call func message => func ++ "(): " ++ message
  | notAssignable what => "cannot write back through " ++ what

end LiveUI
