import LiveUI.Template.Compiler
import LiveUI.Template.Run

/-! # Templates without slots

A template can be run as it stands. The interpreter goes through the tree and carries along what
each name stands for; the values of names take their places in an expression when it is come upon.
There are no slots, no operations and no stack of open constructs. -/

namespace LiveUI.Template

open LiveUI.Markup

/-- What the names of a template stand for at a point of its run. -/
structure Environment where
  /-- The names that are visible, the latest first. -/
  names : List (String × Value) := []
  /-- The names that are visible from outside, each with its latest value. -/
  exports : Attrs := []
  /-- The number of functions that have been made. -/
  functions : Nat := 0

namespace Environment

def bindExport (env : Environment) (name : String) (v : Value) : Environment :=
  { env with names := (name, v) :: env.names, exports := env.exports.put name v }

/-- The meaning of a name: its latest value, or else `self` for the object of the enclosing construct,
or else `args` for the change that a `>>` handles, or else a global or a builtin. -/
def resolve (env : Environment) (globals : Globals) (self : Option Handle) (notify : Bool)
    (name : String) : Lowering Code :=
  match env.names.find? (·.1 == name) with
  | some (_, v) => return .const v
  | none =>
      match name, self with
      | "self", some o => return .const (.object o)
      | "args", _ => if notify then return .change else constantNamed globals name
      | _, _ => constantNamed globals name

end Environment

/-- Interpreting a template goes on in the world and in the environment up to the first error. -/
abbrev Interpreting := StateT Environment Building

namespace Interpreting

variable {α : Type}

def building (m : Building α) : Interpreting α :=
  StateT.lift m

def step (m : Step α) : Interpreting α :=
  building (ExceptT.lift m)

def attempt (r : Except RuntimeError α) : Interpreting α :=
  building (ExceptT.mk (pure r))

/-- What has no meaning has no result. Templates with such names are not compiled. -/
def meaning (lowering : Lowering α) : Interpreting α := do
  match lowering.run (← get).functions with
  | .ok (x, functions) => do
      modify ({ · with functions })
      return x
  | .error _ => step failure

end Interpreting

open Interpreting

section

variable (announce : Announce) (globals : Globals) (registry : Registry)
  (builder : Factory → Builder)

/-- An expression with the values of its names. -/
def Environment.expression (self : Option Handle) (notify : Bool) (e : Expression) :
    Interpreting Code := do
  let env ← get
  meaning (Code.lower (env.resolve globals self notify) e.expr)

def interpretValue (self : Option Handle) (place : Location) (e : Expression) :
    Interpreting Value := do
  let code ← Environment.expression globals self false e
  building (evalAt announce {} place code)

/-- What a target writes to. A bare attribute belongs to the enclosing construct. -/
def Environment.target (self : Option Handle) (t : Target) : Interpreting TargetCode := do
  let env ← get
  let base (name : String) : Interpreting Code := meaning (env.resolve globals self false name)
  match t with
  | .own attr =>
      match self with
      | some o => return { base := .const (.object o), attr }
      | none => step failure
  | .member name attr => return { base := ← base name, attr }
  | .element name index attr => return { base := ← base name, index := some index, attr }

/-- An assignment in the construct whose first instance has the object `self`. -/
def interpretAssignment (self : Handle) (a : Assignment) : Interpreting Unit := do
  let place : Location := ⟨a.pos, a.text⟩
  let target ← Environment.target globals (some self) a.target
  let code ← Environment.expression globals (some self) (a.op = .notify) a.value
  let o ← building (targetObject announce {} target place)
  let site : Site := { target := o, attr := target.attr, frame := {}, label := place.line }
  match ← step (applyOperator announce site a.op code) with
  | .ok _ => return ()
  | .error cause => attempt (.error (.eval cause (some place)))

/-- Names for an exported value each, or else for an attribute of the only instance. -/
def interpretCaptures (output : Output) (place : Location) : List Capture → Interpreting Unit
  | [] => return ()
  | capture :: captures => do
      let v ← attempt (captured (← step get) output capture.attr place)
      modify (·.bindExport capture.name v)
      interpretCaptures output place captures

/-- Build what a construct stands for, up to its block: evaluate positional and then keyword
arguments, look up the type and call the factory, and bind the names. -/
def interpretHead (self : Option Handle) (c : Construct) : Interpreting (Instance × List Instance) :=
  do
  let place : Location := ⟨c.pos, c.header⟩
  let args ← c.positional.mapM (interpretValue announce globals self place)
  let keywords ← c.keywords.mapM fun (name, e) => do
    return (name, ← interpretValue announce globals self place e)
  let factory ← attempt (registry.lookup c.typeName)
  step (Step.notice (.building c.typeName registry.name))
  let output ← building (builder factory ⟨c.typeName, args, keywords⟩)
  match output.instances with
  | [] => attempt (.error (.factory c.typeName .noInstances))
  | first :: others =>
      let values ← attempt (unpackValues c.unpack.length output.instances place)
      modify fun env =>
        (c.unpack.zip values).foldl (fun env (name, v) => env.bindExport name v) env
      interpretCaptures output place c.captures
      return (first, others)

mutual

/-- The instances of a construct inside the one with the object `self`. -/
def interpretConstruct (self : Option Handle) : Construct → Interpreting (List Instance)
  | ⟨typeName, arguments, unpack, captures, body, pos⟩ => do
      let (first, others) ← interpretHead announce globals registry builder self
        ⟨typeName, arguments, unpack, captures, [], pos⟩
      let first ← interpretBody first body
      return first :: others

/-- The block of a construct, item by item. The children are appended to its first instance. -/
def interpretBody (parent : Instance) : List (BodyItem Construct) → Interpreting Instance
  | [] => return parent
  | item :: items => do
      let parent ← interpretItem parent item
      interpretBody parent items

def interpretItem (parent : Instance) : BodyItem Construct → Interpreting Instance
  | .assignment a => do
      interpretAssignment announce globals parent.object a
      return parent
  | .child c => do
      let children ← interpretConstruct (some parent.object) c
      step (children.forM fun child => modify (·.addChild parent.object child.object))
      return children.foldl Instance.adopt parent

end

/-- The constructs of a template one after another, behind the values of its parameters. -/
def interpret (params : List (String × Value)) (body : List Construct) (functions : Nat) :
    Building Built := do
  let (roots, env) ← (body.mapM (interpretConstruct announce globals registry builder none)).run
    { names := params.reverse, functions }
  return ⟨roots.flatten, env.exports⟩

/-- A define with the values of its defaults, called with arguments. -/
def interpretDefine (name : String) (params : List (String × Option Value))
    (body : List Construct) (functions : Nat) (args : List Value)
    (keywords : List (String × Value)) : Building Built := do
  match bindArguments params args keywords with
  | .error fault => throw (.arguments name fault)
  | .ok values =>
      interpret announce globals registry builder ((params.map (·.1)).zip values) body functions

end

end LiveUI.Template
