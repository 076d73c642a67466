import LiveUI.Session.Listing
import LiveUI.Session.Types

/-!
# Compiling and building in a session

A module that compiles takes the place of the one before; a define that is compiled from a plan
stands beside it. A view that is built takes the place of the view of its name, which is destroyed
after the new one is finished.
-/

namespace LiveUI.Session

open LiveUI.Template

/-! ## Compiling -/

/-- Compile with the globals of the session. -/
def compiling {α : Type} (f : Globals → Compiling α) : Performing α := do
  match ← inWorld (f (← getThe Session).globals).run with
  | .ok x => return x
  | .error e => throw (.notCompiled e)

def compile (source : String) : Performing Answer := do
  let module ← compiling (compileSource announcing · source)
  modifyThe Session ({ · with module })
  return .module (module.defines.map fun d => (d.name, d.params.map (·.1)))
    module.constructs.length

def compilePlan (plan : Markup.DefinePlan) : Performing Answer := do
  match plan.build with
  | .error e => throw (.notCompiled (.malformed e))
  | .ok d =>
      let d ← compiling (compileDefine announcing · d)
      modifyThe Session fun s =>
        { s with defines := s.defines.filter (·.name != d.name) ++ [d] }
      return .define d.name (d.params.map (·.1))

/-! ## Building -/

def built {α : Type} (f : Registry → Building α) : Performing α := do
  match ← inWorld (f (← getThe Session).registry).run with
  | .ok x => return x
  | .error e => throw (.failed e)

def treesOf (v : View) : Performing (List Tree) := do
  return Tree.ofAll (← theWorld) v.roots

/-- Call a define of the module, or else one that was compiled from a plan. -/
def callDefine (view define : String) (args : List Term) (keywords : List (String × Term)) :
    Performing Answer := do
  let s ← getThe Session
  let d ← orRefuse .unknownDefine
    ((s.module.define? define).or (s.defines.find? (·.name == define)))
  let args ← inWorld (args.mapM Term.force)
  let keywords ← inWorld (forceAll keywords)
  let v ← built fun r => d.call limits r args keywords
  let trees ← treesOf v
  keepView view v
  return .trees trees

/-- Build every construct of the module; the views are numbered from zero. -/
def buildModule (view : String) : Performing Answer := do
  let s ← getThe Session
  let views ← built fun r => s.module.build limits r
  let forests ← views.mapM treesOf
  for (v, i) in views.zipIdx do
    keepView (view ++ toString i) v
  return .forests forests

/-! ## Looking into views -/

def selected (v : View) : Selector → Option Value
  | .exported name => v.get? name
  | .typed typeName => (v.find? typeName).map (.object ·.object)
  | .path positions => (v.path? positions).map (.object ·.object)

/-- One element of a list; of any other value there is only the whole. -/
def elementOf (index : Option Nat) (v : Value) : Option Value :=
  match index, v with
  | some i, .list items => items[i]?
  | _, v => some v

/-- Name a value of a view. -/
def pickFrom (name : String) (v : View) (selector : Selector) (index : Option Nat) :
    Performing Answer := do
  let x ← orRefuse .missing ((selected v selector).bind (elementOf index))
  keepValue name x
  return .value x

/-- The listing of one thing that the session keeps. -/
def listed (what : Listed) : Performing String := do
  match what with
  | .object name => return Listing.object (← theWorld) (← namedObject name)
  | .value name => return Listing.value (← theWorld) (← namedValue name)
  | .binding name => return Listing.binding (← namedBinding name)
  | .view name => return Listing.view (← theWorld) (← namedView name)
  | .subscription name => return Listing.subscription ((← theWorld).memory.subscription? name)
  | .registry => return Listing.registry (← getThe Session).registry
  | .module => return Listing.defines (← getThe Session).module

end LiveUI.Session
