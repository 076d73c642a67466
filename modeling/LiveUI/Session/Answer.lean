import LiveUI.Template.View

/-!
# Answers

What a session answers to a command, or why it does not carry it out.
-/

namespace LiveUI.Session

open LiveUI.Template

structure ObjectInfo where
  object : Object
  /-- The parent, as long as it is alive. -/
  parent : Option Handle
  /-- The attributes with observers, and how many they have. -/
  observed : List (String × Nat)

structure BindingInfo where
  kind : BindingKind
  attr : String
  label : String
  dependencies : Nat

/-- A tree of instances, as it is at one moment. -/
inductive Tree where
  | node (object : Handle) (phase : Phase) (attrs : Attrs) (children : List Tree)
deriving Inhabited

inductive Answer where
  | done
  | flag (b : Bool)
  | count (n : Nat)
  | identity (o : Option Handle)
  | value (v : Value)
  /-- The value of an expression or its failure, and the attributes that it read. -/
  | evaluation (result : Except EvalError Value) (reads : List (Handle × String))
  | object (info : ObjectInfo)
  | binding (info : BindingInfo)
  | module (defines : List (String × List String)) (constructs : Nat)
  | define (name : String) (params : List String)
  | trees (ts : List Tree)
  | forests (forests : List (List Tree))
  | text (s : String)

/-- Why a command is not carried out. -/
inductive Refusal where
  /-- It names something that the session does not keep. -/
  | unknown
  /-- What it asks for is not there. -/
  | missing
  | unknownDefine
  | malformed (e : Source.SyntaxError)
  /-- An expression has a name without a meaning. -/
  | unknownName (name : String)
  | notCompiled (e : CompileError)
  | failed (e : RuntimeError)

/-! ## Looking at the world -/

def ObjectInfo.of (w : World) (x : Object) : ObjectInfo where
  object := x
  parent := x.parent.filter w.isAlive
  observed := x.attrs.filterMap fun (attr, _) =>
    let n := (x.observers.filter (·.attr == attr)).length
    if n = 0 then none else some (attr, n)

def BindingInfo.of (b : Binding) : BindingInfo :=
  ⟨b.kind, b.attr, b.label, b.sources.length⟩

mutual

def Tree.of (w : World) : Instance → Tree
  | ⟨object, _, children⟩ =>
      .node object (w.phase object) (((w.object? object).map (·.attrs)).getD [])
        (Tree.ofAll w children)

def Tree.ofAll (w : World) : List Instance → List Tree
  | [] => []
  | i :: is => Tree.of w i :: Tree.ofAll w is

end

end LiveUI.Session
