import LiveUI.Session.Answer
import LiveUI.Session.Command
import LiveUI.Template.Compiler
import LiveUI.Template.Retained

/-!
# Sessions

A session keeps a world together with names for what is in it: values and subscriptions in the
memory of the world, and here bindings, defines and views. Commands are carried out on a session one
at a time.
-/

namespace LiveUI

open LiveUI.Template

structure Session where
  world : World := {}
  /-- Notices of this level and below are shown. -/
  level : Level := .warn
  globals : Globals := []
  registry : Registry
  /-- What was compiled last. -/
  module : CompiledModule := {}
  /-- The defines that were compiled one by one. -/
  defines : List CompiledDefine := []
  views : List (String × View) := []
  bindings : List (String × Nat) := []

namespace Session

/-- A session that knows no types yet. -/
def named (registry : String) : Session :=
  { registry := ⟨registry, []⟩ }

/-- How deep announcements and factories may be nested before a session gives up. -/
def limits : Limits := ⟨10000, 10000⟩

def announcing : Announce :=
  announce limits.announcements

/-- Carrying out a command up to the first refusal. What was done before it stays done. -/
abbrev Performing := ExceptT Refusal (StateT Session Option)

/-- A computation on the world of the session. -/
def inWorld {α : Type} (step : Step α) : Performing α :=
  ExceptT.mk fun s =>
    (step s.world).map fun (x, world) => (.ok x, { s with world })

/-- A change of the world alone. -/
def change (f : World → World) : Performing Unit :=
  modifyThe Session fun s => { s with world := f s.world }

def theWorld : Performing World := do
  return (← getThe Session).world

/-- What is there, or a refusal. -/
def orRefuse {α : Type} (r : Refusal) : Option α → Performing α
  | some x => return x
  | none => throw r

/-! ## Looking names up -/

/-- The value of the name `name`. -/
def namedValue (name : String) : Performing Value := do
  orRefuse .unknown ((← theWorld).memory.value? name)

/-- The object of the name `name`. -/
def namedObject (name : String) : Performing Handle := do
  orRefuse .unknown (← namedValue name).asObject?

def namedView (name : String) : Performing View := do
  orRefuse .unknown (((← getThe Session).views.find? (·.1 == name)).map (·.2))

def namedBinding (name : String) : Performing Binding := do
  let s ← getThe Session
  orRefuse .unknown ((s.bindings.find? (·.1 == name)).bind fun (_, b) => s.world.binding? b)

/-! ## Keeping -/

/-- Give a name to a value. Values that had the name before are still kept. -/
def keepValue (name : String) (v : Value) : Performing Unit :=
  change fun w => { w with memory := w.memory.bindName name v }

/-- Keep a binding under a name, and let go of the one that had it. -/
def keepBinding (name : String) (b : Nat) : Performing Unit := do
  let s ← getThe Session
  let before := (s.bindings.filter (·.1 == name)).map (·.2)
  change (·.modifyBinding b fun x => { x with held := true })
  modifyThe Session fun s =>
    { s with bindings := s.bindings.filter (·.1 != name) ++ [(name, b)] }
  for old in before do
    change fun w => (w.modifyBinding old fun x => { x with held := false }).release old

/-- Let go of the view of a name, which destroys it. The answer says whether there was one. -/
def letGoOfView (name : String) : Performing Bool := do
  let s ← getThe Session
  match s.views.find? (·.1 == name) with
  | none => return false
  | some (_, v) =>
      modifyThe Session fun s => { s with views := s.views.filter (·.1 != name) }
      inWorld v.destroy
      return true

/-- Keep a view under a name, and let go of the one that had it. -/
def keepView (name : String) (v : View) : Performing Unit := do
  let _ ← letGoOfView name
  modifyThe Session fun s => { s with views := s.views ++ [(name, v)] }

/-- Every value that the session refers to outside its world. -/
def retained (s : Session) : List Value :=
  s.globals.map (·.2) ++ s.registry.retained ++ s.module.retained ++
    s.defines.flatMap CompiledDefine.retained ++ s.views.flatMap (·.2.retained)

end Session

end LiveUI
