import Mathlib.Data.List.Forall2
import LiveUI.Template.Compiler

/-! # Walking through a template

The order of the text alone says what every name means. A walk through a define comes past its
defaults, its parameters and then its constructs, each with its arguments, its names and its block.
A name means its latest introduction on the way to it; without one it is `self` of the construct
that has been entered last and not yet been left, the change that is being handled, the latest
global of that name or a builtin. What the walk is said to find here knows nothing of the scopes that
compilation keeps. -/

namespace LiveUI

namespace Code

/-- Code of the form of an expression, with code for each name that `Means` allows for it. -/
inductive Lowers (Means : String → Code → Prop) : Expr → Code → Prop where
  | int (n : Int64) : Lowers Means (.int n) (.const (.int n))
  | float (x : Float) : Lowers Means (.float x) (.const (.float x))
  | str (s : String) : Lowers Means (.str s) (.const (.str s))
  | bool (b : Bool) : Lowers Means (.bool b) (.const (.bool b))
  | nil : Lowers Means .nil (.const .nil)
  | name {name : String} {code : Code} (h : Means name code) : Lowers Means (.name name) code
  | list {es : List Expr} {codes : List Code} (h : List.Forall₂ (Lowers Means) es codes) :
      Lowers Means (.list es) (.list codes)
  | attr {e : Expr} {code : Code} {a : String} (h : Lowers Means e code) :
      Lowers Means (.attr e a) (.attr code a)
  | index {e i : Expr} {code at_ : Code} (h : Lowers Means e code) (hi : Lowers Means i at_) :
      Lowers Means (.index e i) (.index code at_)
  | call {f : Expr} {es : List Expr} {func : Code} {codes : List Code} (h : Lowers Means f func)
      (hargs : List.Forall₂ (Lowers Means) es codes) : Lowers Means (.call f es) (.call func codes)
  | unary {op : UnaryOp} {e : Expr} {code : Code} (h : Lowers Means e code) :
      Lowers Means (.unary op e) (.unary op code)
  | binary {op : BinaryOp} {l r : Expr} {left right : Code} (hl : Lowers Means l left)
      (hr : Lowers Means r right) : Lowers Means (.binary op l r) (.binary op left right)
  | boolOp {op : BoolOp} {l r : Expr} {left right : Code} (hl : Lowers Means l left)
      (hr : Lowers Means r right) : Lowers Means (.boolOp op l r) (.boolOp op left right)
  | ifElse {b c o : Expr} {body condition otherwise : Code} (hb : Lowers Means b body)
      (hc : Lowers Means c condition) (ho : Lowers Means o otherwise) :
      Lowers Means (.ifElse b c o) (.ifElse body condition otherwise)

end Code

namespace Template

open Markup

/-! ## Marks -/

/-- What a walk comes past. -/
inductive Mark where
  /-- A default, in which names are looked up, and which then gets its value. -/
  | default (param : String) (e : Expression)
  /-- A parameter, or a name in the header of a construct, becomes visible. -/
  | name (name : String)
  /-- The arguments of a construct are behind, and it gets a slot of its own. -/
  | enter
  | leave
  /-- The names of an expression are looked up. `notify` says that it handles a change. -/
  | read (place : Location) (notify : Bool) (e : Expr)
  /-- An attribute of the enclosing construct is assigned to. -/
  | own
  /-- The value of a `:=` has to have the form of an attribute path. -/
  | path (place : Location) (e : Expr)

/-- The target of an assignment, and the name in it. -/
def walkTarget (place : Location) : Target → List Mark
  | .own _ => [.own]
  | .member name _ | .element name _ _ => [.read place false (.name name)]

def walkAssignment (a : Assignment) : List Mark :=
  let place : Location := ⟨a.pos, a.text⟩
  walkTarget place a.target ++
    (if a.op = .delegate then [.path place a.value.expr] else []) ++
    [.read place (a.op = .notify) a.value.expr]

def walkArguments (c : Construct) : List Mark :=
  (c.positional ++ c.keywords.map (·.2)).map fun e => .read ⟨c.pos, c.header⟩ false e.expr

def walkNames (c : Construct) : List Mark :=
  (c.unpack ++ c.captures.map (·.name)).map .name

mutual

/-- The arguments of a construct, its names and its block. -/
def walkConstruct : Construct → List Mark
  | ⟨typeName, arguments, unpack, captures, body, pos⟩ =>
      let c : Construct := ⟨typeName, arguments, unpack, captures, [], pos⟩
      walkArguments c ++ (.enter :: (walkNames c ++ walkBody body) ++ [.leave])

def walkBody : List (BodyItem Construct) → List Mark
  | [] => []
  | item :: items => walkItem item ++ walkBody items

def walkItem : BodyItem Construct → List Mark
  | .assignment a => walkAssignment a
  | .child c => walkConstruct c

end

/-- The default of a parameter that is given with its index. -/
def defaultMark? (p : Parameters) (param : String × Nat) : Option Mark :=
  (p.default? param.2).map (.default param.1)

def walkDefaults (p : Parameters) : List Mark :=
  (p.names.zip (List.range p.names.length)).filterMap (defaultMark? p)

/-- All defaults come before the first name. -/
def walkDefine (d : Define) : List Mark :=
  walkDefaults d.parameters ++ (d.parameters.names.map .name ++ d.body.flatMap walkConstruct)

/-! ## Meanings

The marks on the way to a point are given with the last one first. -/

namespace Mark

def takesSlot : Mark → Bool
  | .name _ | .enter => true
  | _ => false

/-- The number of slots that have been taken. -/
def slots (past : List Mark) : Nat :=
  past.countP takesSlot

/-- The names that have been introduced, each with the slot that it took, the latest first. -/
def introduced : List Mark → List (String × Nat)
  | [] => []
  | .name n :: past => (n, slots past) :: introduced past
  | _ :: past => introduced past

/-- The slot of the construct that is open around the `depth` innermost ones. -/
def opened : Nat → List Mark → Option Nat
  | _, [] => none
  | 0, .enter :: past => some (slots past)
  | depth + 1, .enter :: past => opened depth past
  | depth, .leave :: past => opened (depth + 1) past
  | depth, _ :: past => opened depth past

/-- The slot of the innermost construct that is open. -/
def owner (past : List Mark) : Option Nat :=
  opened 0 past

end Mark

/-- What an occurrence of a name stands for. -/
inductive Meaning where
  | slot (index : Nat)
  | change
  | constant (v : Value)
  | builtin (b : Builtin)

/-- Code for a meaning. Each use of a builtin is a function of its own, whatever its number. -/
def Meaning.Is : Meaning → Code → Prop
  | slot index, code => code = .slot index
  | change, code => code = .change
  | constant v, code => code = .const v
  | builtin b, code => ∃ number, code = .const (.func ⟨number, b.name, .builtin b⟩)

variable (announce : Announce) (globals : Globals) (define : String)

/-- The meaning of a name behind `past`. -/
def meaning? (past : List Mark) (notify : Bool) (name : String) : Option Meaning :=
  (((Mark.introduced past).find? (·.1 == name)).map fun p => .slot p.2) <|>
    (if name = "self" then (Mark.owner past).map .slot else none) <|>
    (if name = "args" ∧ notify then some .change else none) <|>
    ((globals.reverse.find? (·.1 == name)).map fun p => .constant p.2) <|>
    (Builtin.ofName? name).map .builtin

/-- Code for a name behind `past`. -/
def Means (past : List Mark) (notify : Bool) (name : String) (code : Code) : Prop :=
  ∃ m, meaning? globals past notify name = some m ∧ m.Is code

/-- The first occurrence of a name that has no meaning. -/
def unknown? (past : List Mark) (notify : Bool) (e : Expr) : Option String :=
  e.occurrences.find? fun name => (meaning? globals past notify name).isNone

/-! ## Violations -/

/-- What the walk finds wrong at a mark. -/
def Mark.fault? (past : List Mark) : Mark → Option CompileError
  | .default param e => (unknown? globals past false e.expr).map
      (.unknownName · ⟨e.pos, param ++ " = " ++ e.source⟩)
  | .read place notify e => (unknown? globals past notify e).map (.unknownName · place)
  | .path place e => if isAttrPath e then none else some (.delegate place)
  | .name _ | .enter | .leave | .own => none

/-- A default has a value, which may take a change of the world to find. -/
def Mark.Passes (w w' : World) : Mark → Prop
  | .default param e => ∃ v, (evalDefault announce globals define param e).run w = some (.ok v, w')
  | _ => w' = w

/-- The first violation on the rest of a walk behind `past`: a name without a meaning, a `:=`
without an attribute path or a default whose evaluation fails. -/
inductive FirstFault : World → List Mark → List Mark → CompileError → Prop where
  | here {w : World} {past marks : List Mark} {m : Mark} {e : CompileError}
      (h : m.fault? globals past = some e) : FirstFault w past (m :: marks) e
  | fails {w w' : World} {past marks : List Mark} {param : String} {e : Expression}
      {cause : EvalError} (hfault : (Mark.default param e).fault? globals past = none)
      (h : (evalDefault announce globals define param e).run w =
        some (.error (.default define param cause), w')) :
      FirstFault w past (.default param e :: marks) (.default define param cause)
  | later {w w' : World} {past marks : List Mark} {m : Mark} {e : CompileError}
      (hfault : m.fault? globals past = none) (hpasses : m.Passes announce globals define w w')
      (h : FirstFault w' (m :: past) marks e) : FirstFault w past (m :: marks) e

/-! ## What is left of a walk -/

/-- What compilation makes of a mark. -/
inductive Part where
  | value (param : String) (v : Value)
  | slot (index : Nat)
  | code (code : Code)

/-- Every mark has left the part that the walk calls for, the names in it being given their meanings
behind `past`. -/
inductive Resolves : World → List Mark → List Mark → List Part → World → Prop where
  | done {w : World} {past : List Mark} : Resolves w past [] [] w
  | default {w w' w'' : World} {past marks : List Mark} {parts : List Part} {param : String}
      {e : Expression} {code : Code} {functions : Nat} {v : Value}
      (hcode : Code.Lowers (Means globals past false) e.expr code)
      (hvalue : code.value (applyFunc announce) { frame := {} }
        { w with nextFunction := functions } = some (.ok v, w'))
      (h : Resolves w' (.default param e :: past) marks parts w'') :
      Resolves w past (.default param e :: marks) (.value param v :: parts) w''
  | name {w w' : World} {past marks : List Mark} {parts : List Part} {name : String}
      (h : Resolves w (.name name :: past) marks parts w') :
      Resolves w past (.name name :: marks) (.slot (Mark.slots past) :: parts) w'
  | enter {w w' : World} {past marks : List Mark} {parts : List Part}
      (h : Resolves w (.enter :: past) marks parts w') :
      Resolves w past (.enter :: marks) (.slot (Mark.slots past) :: parts) w'
  | leave {w w' : World} {past marks : List Mark} {parts : List Part}
      (h : Resolves w (.leave :: past) marks parts w') :
      Resolves w past (.leave :: marks) parts w'
  | read {w w' : World} {past marks : List Mark} {parts : List Part} {place : Location}
      {notify : Bool} {e : Expr} {code : Code}
      (hcode : Code.Lowers (Means globals past notify) e code)
      (h : Resolves w (.read place notify e :: past) marks parts w') :
      Resolves w past (.read place notify e :: marks) (.code code :: parts) w'
  | own {w w' : World} {past marks : List Mark} {parts : List Part} {slot : Nat}
      (howner : Mark.owner past = some slot) (h : Resolves w (.own :: past) marks parts w') :
      Resolves w past (.own :: marks) (.code (.slot slot) :: parts) w'
  | path {w w' : World} {past marks : List Mark} {parts : List Part} {place : Location} {e : Expr}
      (hpath : isAttrPath e) (h : Resolves w (.path place e :: past) marks parts w') :
      Resolves w past (.path place e :: marks) parts w'

def Op.parts : Op → List Part
  | .build b => (b.args ++ b.keywords.map (·.2)).map .code ++
      (b.selfSlot :: (b.unpack ++ b.captures.map (·.1))).map .slot
  | .assign target _ value _ => [.code target.base, .code value]
  | .close => []

/-- The parts of a compiled define. Its parameters are in the first slots. -/
def CompiledDefine.parts (d : CompiledDefine) : List Part :=
  d.params.filterMap (fun (param, v) => v.map (.value param)) ++
    ((List.range d.params.length).map .slot ++ d.program.ops.flatMap Op.parts)

end Template

end LiveUI
