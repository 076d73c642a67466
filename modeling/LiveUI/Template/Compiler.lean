import LiveUI.Markup.Grammar
import LiveUI.Markup.Printer
import LiveUI.Template.Program
import LiveUI.Template.Scope
import LiveUI.World.Propagation

/-!
# Compiling templates

A template is gone through once, in the order of its text. The names of a construct become visible
after its own arguments and stay so to the end of the template; a name without a meaning is an error
before any object is built. Parameter defaults are evaluated here, once, and see globals and
builtins only.
-/

namespace LiveUI.Template

open LiveUI.Markup

abbrev Emit := StateT Scope (Except CompileError)

namespace Emit

def alloc : Emit Nat :=
  modifyGet (·.alloc)

def bindExport (name : String) : Emit Nat :=
  modifyGet (·.bindExport name)

/-- Lower an expression or name, with the meanings that names have at this point. -/
def resolved {α : Type} (place : Location) (lowering : Lowering α) : Emit α := do
  match lowering.run (← get).functions with
  | .ok (x, functions) => do
      modify ({ · with functions })
      return x
  | .error name => throw (.unknownName name place)

end Emit

open Emit

/-- The code of an expression in the statement at `place`. -/
def lowerValue (globals : Globals) (self : Option Nat) (notify : Bool) (place : Location)
    (e : Expression) : Emit Code := do
  let locals := (← get).locals
  resolved place (Code.lower (resolve globals locals self notify) e.expr)

/-- What a target writes to. A bare attribute belongs to the enclosing construct. -/
def lowerTarget (globals : Globals) (self : Option Nat) (place : Location) (t : Target) :
    Emit TargetCode := do
  let locals := (← get).locals
  let base (name : String) : Emit Code := resolved place (resolve globals locals self false name)
  match t with
  | .own attr =>
      match self with
      | some slot => return { base := .slot slot, attr }
      | none => throw (.unknownName "self" place)
  | .member name attr => return { base := ← base name, attr }
  | .element name index attr => return { base := ← base name, index := some index, attr }

/-- An expression that reads one attribute. -/
def isAttrPath : Expr → Bool
  | .attr .. => true
  | _ => false

def emitAssignment (globals : Globals) (self : Option Nat) (a : Assignment) : Emit Op := do
  let place : Location := ⟨a.pos, a.text⟩
  let target ← lowerTarget globals self place a.target
  if a.op = .delegate ∧ ¬ isAttrPath a.value.expr then throw (.delegate place)
  let value ← lowerValue globals self (a.op = .notify) place a.value
  return .assign target a.op value place

/-- The opening operation of a construct. Its names are visible only behind it. -/
def emitBuild (globals : Globals) (self : Option Nat) (c : Construct) : Emit Build := do
  let place : Location := ⟨c.pos, c.header⟩
  let args ← c.positional.mapM (lowerValue globals self false place)
  let keywords ← c.keywords.mapM fun (name, e) => do
    return (name, ← lowerValue globals self false place e)
  let selfSlot ← alloc
  let unpack ← c.unpack.mapM bindExport
  let captures ← c.captures.mapM fun capture => do
    return (← bindExport capture.name, capture.attr)
  return ⟨c.typeName, args, keywords, selfSlot, unpack, captures, place⟩

mutual

/-- The operations of a construct inside the one that owns the slot `self`. -/
def emitConstruct (globals : Globals) (self : Option Nat) : Construct → Emit (List Op)
  | ⟨typeName, arguments, unpack, captures, body, pos⟩ => do
      let b ← emitBuild globals self ⟨typeName, arguments, unpack, captures, [], pos⟩
      let inner ← emitBody globals b.selfSlot body
      return .build b :: inner ++ [.close]

def emitBody (globals : Globals) (self : Nat) : List (BodyItem Construct) → Emit (List Op)
  | [] => return []
  | item :: items => do
      let ops ← emitItem globals self item
      return ops ++ (← emitBody globals self items)

def emitItem (globals : Globals) (self : Nat) : BodyItem Construct → Emit (List Op)
  | .assignment a => return [← emitAssignment globals (some self) a]
  | .child c => emitConstruct globals (some self) c

end

/-- The program of the constructs `body` behind the parameters `params`, and the number of functions
that have been made when it is finished. -/
def emitProgram (globals : Globals) (params : List String) (body : List Construct)
    (functions : Nat) : Except CompileError (Program × Nat) := do
  let emit : Emit (List Op) := do
    for name in params do
      modify fun s => (s.bindLocal name).2
    return (← body.mapM (emitConstruct globals none)).flatten
  let (ops, s) ← emit.run { functions }
  return (⟨ops, s.slots, s.exports⟩, s.functions)

/-! ## Compiling in the world -/

abbrev Compiling := ExceptT CompileError Step

/-- Run a compilation that gives out function identities. -/
def withFunctions {α : Type} (f : Nat → Except CompileError (α × Nat)) : Compiling α := do
  match f (← getThe World).nextFunction with
  | .ok (x, nextFunction) => do
      modifyThe World ({ · with nextFunction })
      return x
  | .error e => throw e

/-- The value of a parameter default. -/
def evalDefault (announce : Announce) (globals : Globals) (define param : String)
    (e : Expression) : Compiling Value := do
  let code ← withFunctions fun n =>
    match (Code.lower (constantNamed globals) e.expr).run n with
    | .ok r => .ok r
    | .error name => .error (.unknownName name ⟨e.pos, param ++ " = " ++ e.source⟩)
  match ← ExceptT.lift (code.value (applyFunc announce) { frame := {} }) with
  | .ok v => return v
  | .error cause => throw (.default define param cause)

/-- The parameters of a define with the values of their defaults. -/
def evalParameters (announce : Announce) (globals : Globals) (d : Define) :
    Compiling (List (String × Option Value)) := do
  let names := d.parameters.names
  (names.zip (List.range names.length)).mapM fun (name, i) => do
    match d.parameters.default? i with
    | some e => return (name, some (← evalDefault announce globals d.name name e))
    | none => return (name, none)

def compileDefine (announce : Announce) (globals : Globals) (d : Define) :
    Compiling CompiledDefine := do
  let params ← evalParameters announce globals d
  let program ← withFunctions (emitProgram globals d.parameters.names d.body)
  ExceptT.lift (Step.notice (.compiledDefine d.name program.ops.length program.slots
    (program.exports.map (·.1))))
  return ⟨d.name, params, program⟩

def compileConstruct (globals : Globals) (c : Construct) : Compiling CompiledConstruct := do
  let program ← withFunctions (emitProgram globals [] [c])
  ExceptT.lift (Step.notice (.compiledConstruct c.typeName program.ops.length program.slots))
  return ⟨program⟩

/-- All defines of a module, then all constructs. -/
def compileModule (announce : Announce) (globals : Globals) (m : Module) :
    Compiling CompiledModule := do
  let defines ← m.defines.mapM (compileDefine announce globals)
  let constructs ← m.constructs.mapM (compileConstruct globals)
  ExceptT.lift (Step.notice (.compiledModule defines.length constructs.length))
  return ⟨defines, constructs⟩

def compileSource (announce : Announce) (globals : Globals) (source : String) :
    Compiling CompiledModule := do
  match Module.parse source with
  | .ok m => compileModule announce globals m
  | .error e => throw (.malformed e)

end LiveUI.Template
