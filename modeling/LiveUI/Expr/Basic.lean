import LiveUI.Source.Token

/-!
# Expressions

The right-hand sides of bindings and the arguments of constructs, as trees, and the free names of a
tree in the order in which they are first seen.
-/

namespace LiveUI

inductive UnaryOp where
  | neg | not
deriving DecidableEq, Repr, Inhabited

inductive BinaryOp where
  | add | sub | mul | div | floorDiv | mod
  | eq | ne | lt | le | gt | ge | isIn | notIn
deriving DecidableEq, Repr, Inhabited

def BinaryOp.symbol : BinaryOp → String
  | add => "+" | sub => "-" | mul => "*" | div => "/" | floorDiv => "//" | mod => "%"
  | eq => "==" | ne => "!=" | lt => "<" | le => "<=" | gt => ">" | ge => ">="
  | isIn => "in" | notIn => "not in"

inductive BoolOp where
  | and | or
deriving DecidableEq, Repr, Inhabited

inductive Expr where
  | int (value : Int64)
  | float (value : Float)
  | str (value : String)
  | bool (value : Bool)
  | nil
  | list (items : List Expr)
  | name (name : String)
  | attr (value : Expr) (attr : String)
  | index (value index : Expr)
  | call (func : Expr) (args : List Expr)
  | unary (op : UnaryOp) (operand : Expr)
  | binary (op : BinaryOp) (left right : Expr)
  | boolOp (op : BoolOp) (left right : Expr)
  | ifElse (body condition otherwise : Expr)
deriving Repr, Inhabited

namespace Expr

mutual

/-- Equality of trees. Floats are compared as numbers, so the two zeros agree. -/
def beq : Expr → Expr → Bool
  | int a, int b => a == b
  | float a, float b => a == b
  | str a, str b => a == b
  | bool a, bool b => a == b
  | nil, nil => true
  | list as, list bs => beqList as bs
  | name a, name b => a == b
  | attr a x, attr b y => beq a b && x == y
  | index a i, index b j => beq a b && beq i j
  | call f as, call g bs => beq f g && beqList as bs
  | unary o a, unary p b => o == p && beq a b
  | binary o a b, binary p c d => o == p && beq a c && beq b d
  | boolOp o a b, boolOp p c d => o == p && beq a c && beq b d
  | ifElse a b c, ifElse d e f => beq a d && beq b e && beq c f
  | _, _ => false

def beqList : List Expr → List Expr → Bool
  | [], [] => true
  | a :: as, b :: bs => beq a b && beqList as bs
  | _, _ => false

end

instance : BEq Expr := ⟨beq⟩

mutual

/-- Every occurrence of a name, from left to right. -/
def occurrences : Expr → List String
  | int _ | float _ | str _ | bool _ | nil => []
  | list items => occurrencesList items
  | name n => [n]
  | attr value _ => occurrences value
  | index value i => occurrences value ++ occurrences i
  | call func args => occurrences func ++ occurrencesList args
  | unary _ operand => occurrences operand
  | binary _ left right => occurrences left ++ occurrences right
  | boolOp _ left right => occurrences left ++ occurrences right
  | ifElse body condition otherwise =>
      occurrences body ++ occurrences condition ++ occurrences otherwise

def occurrencesList : List Expr → List String
  | [] => []
  | e :: es => occurrences e ++ occurrencesList es

end

/-- A list without the later occurrences of its elements. -/
def firstSeen (names : List String) : List String :=
  names.foldl (fun seen n => if seen.contains n then seen else seen ++ [n]) []

/-- The free names of an expression in the order in which they are first seen. -/
def names (e : Expr) : List String :=
  firstSeen e.occurrences

end Expr

/-- An expression together with its exact text and its place. -/
structure Expression where
  source : String
  expr : Expr
  pos : Source.Position
deriving Repr, Inhabited

/-- Two expressions are equal when their trees are, whatever their texts and places. -/
instance : BEq Expression := ⟨fun a b => a.expr == b.expr⟩

end LiveUI
