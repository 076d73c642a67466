import LiveUI.Template.Instance
import LiveUI.Template.Program

/-!
# Registries

Which type name is built by what. A factory is a component, a define used as a type, another name
for a type, or a procedure of the toolkit. A registry is a value; each run is given the one it uses.
-/

namespace LiveUI.Template

/-- The arguments of one construct, evaluated. -/
structure FactoryCall where
  typeName : String
  args : List Value
  keywords : List (String × Value)

/-- What a factory has built: instances, and values that captures can pick up. -/
structure Output where
  instances : List Instance
  exports : List (String × Value) := []

/-- Building goes on in the world up to the first error. -/
abbrev Building := ExceptT RuntimeError Step

/-- A type of attribute bags: which attributes positional arguments go to, and the initial values.
-/
structure Component where
  positional : List String := []
  defaults : List (String × Value) := []
  hooks : Hooks := {}

inductive Factory where
  | component (c : Component)
  | define (d : CompiledDefine)
  /-- Whatever the registry has for another name. -/
  | alias (typeName : String)
  /-- A procedure of the toolkit, and the values that it keeps. -/
  | procedure (build : FactoryCall → Building Output) (keeps : List Value)

structure Registry where
  name : String
  /-- The factories in the order of their first registration. -/
  factories : List (String × Factory) := []

namespace Registry

def factory? (r : Registry) (typeName : String) : Option Factory :=
  (r.factories.find? (·.1 == typeName)).map (·.2)

def putFactory : List (String × Factory) → String → Factory → List (String × Factory)
  | [], name, f => [(name, f)]
  | (n, g) :: rest, name, f =>
      if n = name then (n, f) :: rest else (n, g) :: putFactory rest name f

/-- Add the factory of a type, in the place of an earlier one. -/
def insert (r : Registry) (typeName : String) (f : Factory) : Registry :=
  { r with factories := putFactory r.factories typeName f }

def contains (r : Registry) (typeName : String) : Bool :=
  (r.factory? typeName).isSome

def lookup (r : Registry) (typeName : String) : Except RuntimeError Factory :=
  match r.factory? typeName with
  | some f => .ok f
  | none => .error (.unknownType typeName r.name)

/-- Register a factory and take notice of it. -/
def register (r : Registry) (typeName : String) (f : Factory) : Step Registry := do
  Step.notice (.registered r.name typeName)
  return r.insert typeName f

end Registry

/-- Register every define of a module as a type, in order; a later define takes the place of an
earlier one of its name. -/
def CompiledModule.registerInto (m : CompiledModule) (r : Registry) : Step Registry :=
  m.defines.foldlM (fun r d => r.register d.name (.define d)) r

/-- Build one attribute bag: defaults first, then positional arguments, then keywords. -/
def Component.build (announce : Announce) (c : Component) (call : FactoryCall) :
    Building Output := do
  if c.positional.length < call.args.length then
    throw (.factory call.typeName (.surplus c.positional.length call.args.length))
  let o ← modifyGetThe World (·.create call.typeName c.defaults)
  for (name, v) in c.positional.zip call.args ++ call.keywords do
    let _ ← ExceptT.lift (setAttr announce o name v)
  return { instances := [{ object := o, hooks := c.hooks }] }

end LiveUI.Template
