import LiveUI.Value.Error

/-!
# The order of values

Numbers, strings and lists are ordered among themselves. A list is decided at its first difference,
or else by its length; values of different kinds, and numbers beside not-a-number, have no order.
-/

namespace LiveUI.Value

/-- The order of two doubles; none beside not-a-number. -/
def compareFloat? (x y : Float) : Option Ordering :=
  if x < y then some .lt
  else if x == y then some .eq
  else if y < x then some .gt
  else none

def compareStr (a b : String) : Ordering :=
  if a < b then .lt else if a = b then .eq else .gt

mutual

def compare : Value → Value → Except EvalError Ordering
  | int a, int b => .ok (Ord.compare a.toInt b.toInt)
  | str a, str b => .ok (compareStr a b)
  | list as, list bs => compareList as bs
  | a, b =>
      match asFloat? a, asFloat? b with
      | some x, some y =>
          match compareFloat? x y with
          | some o => .ok o
          | none => .error (.type (.unordered a.typeName b.typeName))
      | _, _ => .error (.type (.unordered a.typeName b.typeName))

def compareList : List Value → List Value → Except EvalError Ordering
  | [], [] => .ok .eq
  | [], _ :: _ => .ok .lt
  | _ :: _, [] => .ok .gt
  | a :: as, b :: bs =>
      match compare a b with
      | .ok .eq => compareList as bs
      | other => other

end

end LiveUI.Value
