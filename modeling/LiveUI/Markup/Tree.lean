import LiveUI.Expr.Basic
import LiveUI.Markup.Target

/-!
# Templates as trees

What a source text says: defines and constructs, with the assignments and the constructs nested in
them. Places and exact texts are carried along for messages and take no part in equality.
-/

namespace LiveUI.Markup

open LiveUI.Source

/-- The four binding operators. -/
inductive Operator where
  /-- `=`: evaluate once. -/
  | default
  /-- `:=`: keep the target and an attribute path in step, both ways. -/
  | delegate
  /-- `<<`: evaluate again whenever something that was read changes. -/
  | bind
  /-- `>>`: evaluate for its effect whenever the target changes. -/
  | notify
deriving DecidableEq, Repr, Inhabited

def Operator.symbol : Operator → String
  | default => "="
  | delegate => ":="
  | bind => "<<"
  | notify => ">>"

def Operator.ofSymbol? (symbol : String) : Option Operator :=
  match symbol with
  | "=" => some default
  | ":=" => some delegate
  | "<<" => some bind
  | ">>" => some notify
  | _ => none

/-- One statement, `target operator value`. -/
structure Assignment where
  target : Target
  op : Operator
  value : Expression
  pos : Position := {}
deriving Repr, Inhabited

instance : BEq Assignment := ⟨fun a b => a.target == b.target && a.op == b.op && a.value == b.value⟩

inductive Argument where
  | positional (value : Expression)
  | keyword (name : String) (value : Expression)
deriving BEq, Repr, Inhabited

/-- The name of a keyword argument. -/
def Argument.keyword? : Argument → Option String
  | .positional _ => none
  | .keyword name _ => some name

/-- `local = attr` in the capture list of a construct. -/
structure Capture where
  name : String
  attr : String
deriving DecidableEq, Repr, Inhabited

/-- An item of the block of a construct: an assignment, or a construct nested in it. -/
inductive BodyItem (κ : Type) where
  | assignment (a : Assignment)
  | child (c : κ)
deriving Repr, Inhabited

/-- The use of one type: its arguments, the names for what it builds, and its block. -/
structure Construct where
  typeName : String
  arguments : List Argument := []
  /-- The names for the instances that the construct builds. -/
  unpack : List String := []
  captures : List Capture := []
  body : List (BodyItem Construct) := []
  pos : Position := {}
deriving Inhabited

namespace Construct

def positional (c : Construct) : List Expression :=
  c.arguments.filterMap fun
    | .positional value => some value
    | .keyword .. => none

def keywords (c : Construct) : List (String × Expression) :=
  c.arguments.filterMap fun
    | .positional _ => none
    | .keyword name value => some (name, value)

def assignments (c : Construct) : List Assignment :=
  c.body.filterMap fun
    | .assignment a => some a
    | .child _ => none

def children (c : Construct) : List Construct :=
  c.body.filterMap fun
    | .assignment _ => none
    | .child c => some c

mutual

/-- Equality of shape, whatever the places and the exact texts. -/
def beq : Construct → Construct → Bool
  | ⟨t, as, us, cs, body, _⟩, ⟨t', as', us', cs', body', _⟩ =>
      t == t' && as == as' && us == us' && cs == cs' && beqBody body body'

def beqBody : List (BodyItem Construct) → List (BodyItem Construct) → Bool
  | [], [] => true
  | x :: xs, y :: ys => beqItem x y && beqBody xs ys
  | _, _ => false

def beqItem : BodyItem Construct → BodyItem Construct → Bool
  | .assignment a, .assignment b => a == b
  | .child c, .child d => beq c d
  | _, _ => false

end

instance : BEq Construct := ⟨beq⟩

end Construct

/-- The parameters of a define. The defaults belong to the last of the names. -/
structure Parameters where
  names : List String := []
  defaults : List Expression := []
deriving BEq, Repr, Inhabited

/-- The default of the parameter at an index. -/
def Parameters.default? (p : Parameters) (index : Nat) : Option Expression :=
  let first := p.names.length - p.defaults.length
  if p.defaults.length ≤ p.names.length ∧ first ≤ index then p.defaults[index - first]? else none

/-- A named template with parameters. -/
structure Define where
  name : String
  parameters : Parameters := {}
  body : List Construct := []
  pos : Position := {}
deriving Inhabited

instance : BEq Define :=
  ⟨fun a b => a.name == b.name && a.parameters == b.parameters && a.body == b.body⟩

inductive Item where
  | define (d : Define)
  | construct (c : Construct)
deriving BEq, Inhabited

/-- The contents of one source text. -/
structure Module where
  items : List Item := []
deriving BEq, Inhabited

namespace Module

def defines (m : Module) : List Define :=
  m.items.filterMap fun
    | .define d => some d
    | .construct _ => none

/-- The first define of a name. -/
def define? (m : Module) (name : String) : Option Define :=
  m.defines.find? (·.name == name)

def constructs (m : Module) : List Construct :=
  m.items.filterMap fun
    | .define _ => none
    | .construct c => some c

end Module

end LiveUI.Markup
