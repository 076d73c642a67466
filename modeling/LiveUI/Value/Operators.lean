import LiveUI.Expr.Basic
import LiveUI.Value.Order

/-!
# Operators

Arithmetic on integers is exact and overflows where its result does not fit 64 bits; division goes
to the floor and a remainder has the sign of the divisor. A double beside any number makes both
doubles. Strings and lists are added, repeated, searched and subscripted alike, a string by
characters.
-/

namespace LiveUI.Value

/-! ## Integers -/

/-- An exact result that has to fit 64 bits. -/
def exactly (n : Int) : Except EvalError Int64 :=
  match Number.int64? n with
  | some n => .ok n
  | none => .error .overflow

/-- The quotient toward zero. -/
def quotientInt (a b : Int64) : Except EvalError Int64 :=
  exactly (Int.tdiv a.toInt b.toInt)

/-- What the quotient toward zero leaves. It is taken together with the quotient, so it overflows where
the quotient does. -/
def restInt (a b : Int64) : Except EvalError Int64 := do
  let _ ← quotientInt a b
  return a % b

/-- The quotient toward zero is above the floor. -/
def aboveFloor (a b : Int64) : Bool :=
  a % b != 0 && (a < 0) != (b < 0)

def floorDivInt (a b : Int64) : Except EvalError Int64 :=
  if b = 0 then .error .zeroDivision
  else do
    let q ← quotientInt a b
    return if aboveFloor a b then q - 1 else q

/-- What is left does not have the sign of the divisor. -/
def againstDivisor (r b : Int64) : Bool :=
  r != 0 && (r < 0) != (b < 0)

def modInt (a b : Int64) : Except EvalError Int64 :=
  if b = 0 then .error .zeroDivision
  else do
    let r ← restInt a b
    return if againstDivisor r b then r + b else r

/-! ## Doubles -/

def divFloat (a b : Float) : Except EvalError Float :=
  if b == 0.0 then .error .zeroDivision else .ok (a / b)

def floorDivFloat (a b : Float) : Except EvalError Float :=
  if b == 0.0 then .error .zeroDivision else .ok (a / b).floor

def modFloat (a b : Float) : Except EvalError Float :=
  if b == 0.0 then .error .zeroDivision
  else
    let r := Number.remainder a b
    if r != 0.0 && (r < 0.0) != (b < 0.0) then .ok (r + b) else .ok r

/-- The fault of an operator that does not take its operands. -/
def operandFault (op : BinaryOp) (left right : Value) : EvalError :=
  .type (.operands op.symbol left.typeName right.typeName)

/-- Two numbers: as integers where both are integers or truth values, else as doubles. -/
def arithmetic (op : BinaryOp) (ints : Int64 → Int64 → Except EvalError Int64)
    (floats : Float → Float → Except EvalError Float) (left right : Value) :
    Except EvalError Value :=
  match asInt? left, asInt? right with
  | some a, some b => int <$> ints a b
  | _, _ =>
      match asFloat? left, asFloat? right with
      | some x, some y => float <$> floats x y
      | _, _ => .error (operandFault op left right)

/-! ## Sequences -/

/-- The longest repetition that is made, in elements of a list or bytes of a string. -/
def maxLength : Nat := Nat.pow 2 40

/-- `times` copies of a list one after another. Of an empty list there are any number of copies. -/
def repeated {α : Type} (items : List α) (times : Int64) : Except EvalError (List α) :=
  let n := times.toInt.toNat
  if items.isEmpty then .ok []
  else if maxLength < items.length * n then .error .tooLarge
  else .ok (List.replicate n items).flatten

/-- A string is repeated byte by byte, and the bytes are read as text again. -/
def repeatedText (s : String) (times : Int64) : Except EvalError String := do
  let bytes ← repeated s.toUTF8.data.toList times
  match String.fromUTF8? bytes.toByteArray with
  | some text => .ok text
  | none => .error .tooLarge

/-- The place that an index names in a sequence; a negative one counts from the end. -/
def place (index : Int64) (length : Nat) : Except EvalError Nat :=
  let i := if index.toInt < 0 then index.toInt + length else index.toInt
  if 0 ≤ i ∧ i < length then .ok i.toNat else .error (.indexOutOfRange index length)

/-- `base[index]` for lists and strings. -/
def subscript (base index : Value) : Except EvalError Value :=
  match asInt? index with
  | none => .error (.type (.index index.typeName))
  | some i =>
      match base with
      | list items => do
          let n ← place i items.length
          return items.getD n nil
      | str s => do
          let n ← place i s.toList.length
          return str (String.ofList (s.toList.drop n |>.take 1))
      | other => .error (.type (.notSubscriptable other.typeName))

/-- A list of characters occurs in another one as a piece. -/
def occursIn (needle : List Char) : List Char → Bool
  | [] => needle.isEmpty
  | c :: cs => needle.isPrefixOf (c :: cs) || occursIn needle cs

/-- `item in container`. -/
def contains (container item : Value) : Except EvalError Bool :=
  match container, item with
  | list items, _ => .ok (items.any (· == item))
  | str haystack, str needle => .ok (occursIn needle.toList haystack.toList)
  | _, _ => .error (operandFault .isIn item container)

/-! ## All operators -/

def unary (op : UnaryOp) (operand : Value) : Except EvalError Value :=
  match op, operand with
  | .not, v => .ok (bool !v.isTruthy)
  | .neg, float x => .ok (float (-x))
  | .neg, v =>
      match asInt? v with
      | some n => int <$> exactly (-n.toInt)
      | none => .error (.type (.negation v.typeName))

def add (left right : Value) : Except EvalError Value :=
  match left, right with
  | str a, str b => .ok (str (a ++ b))
  | list a, list b => .ok (list (a ++ b))
  | _, _ =>
      arithmetic .add (fun a b => exactly (a.toInt + b.toInt)) (fun x y => .ok (x + y)) left right

def mul (left right : Value) : Except EvalError Value :=
  match left, right with
  | str s, int n | int n, str s => str <$> repeatedText s n
  | list items, int n | int n, list items => list <$> repeated items n
  | _, _ =>
      arithmetic .mul (fun a b => exactly (a.toInt * b.toInt)) (fun x y => .ok (x * y)) left right

def div (left right : Value) : Except EvalError Value :=
  match asFloat? left, asFloat? right with
  | some x, some y => float <$> divFloat x y
  | _, _ => .error (operandFault .div left right)

/-- A comparison that holds for some of the three orders. -/
def ordered (holds : Ordering → Bool) (left right : Value) : Except EvalError Value := do
  return bool (holds (← compare left right))

def binary (op : BinaryOp) (left right : Value) : Except EvalError Value :=
  match op with
  | .add => add left right
  | .sub =>
      arithmetic .sub (fun a b => exactly (a.toInt - b.toInt)) (fun x y => .ok (x - y)) left right
  | .mul => mul left right
  | .div => div left right
  | .floorDiv => arithmetic .floorDiv floorDivInt floorDivFloat left right
  | .mod => arithmetic .mod modInt modFloat left right
  | .eq => .ok (bool (left == right))
  | .ne => .ok (bool (left != right))
  | .lt => ordered (· == .lt) left right
  | .le => ordered (· != .gt) left right
  | .gt => ordered (· == .gt) left right
  | .ge => ordered (· != .lt) left right
  | .isIn => bool <$> contains right left
  | .notIn => (fun b => bool !b) <$> contains right left

end LiveUI.Value
