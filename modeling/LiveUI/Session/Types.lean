import LiveUI.Session.Basic

/-!
# Types of a session

The components and factories that a session registers. A component with hooks reports each of them
with the phase that its object has reached, and then acts on the object.
-/

namespace LiveUI.Session

open LiveUI.Template

/-! ## Components -/

/-- What one hook does to an object. -/
def hookRoutine (hook : String) (actions : List Action) (o : Handle) (parent : Option Handle) :
    Host :=
  .phase o fun current =>
    .report (.hook hook o parent current) (Action.routineAll o none actions)

def HookActions.hooks (h : HookActions) : Hooks where
  create o parent := hookRoutine "create" h.create o parent
  prepare o := hookRoutine "initialize" h.prepare o none
  bind o := hookRoutine "bind" h.bind o none

def forceAll (fields : List (String × Term)) : Step (List (String × Value)) :=
  fields.mapM fun (name, t) => do return (name, ← t.force)

def ComponentSpec.make (spec : ComponentSpec) : Step Component := do
  let defaults ← forceAll spec.attrs
  let hooks := spec.hooks.elim {} HookActions.hooks
  return { positional := spec.positional, defaults, hooks }

/-! ## Factories -/

def emptyBuild (_ : FactoryCall) : Building Output :=
  return { instances := [] }

def refusingBuild (message : String) (call : FactoryCall) : Building Output :=
  throw (.factory call.typeName (.refused message))

/-- Build `count` objects that carry their number and the positional arguments of the call, and
write the keyword arguments to each of them. -/
def manyBuild (count : Nat) (exports : List (String × Value)) (call : FactoryCall) :
    Building Output := do
  let instances ← (List.range count).mapM fun i => do
    let object ← modifyGetThe World (·.create call.typeName
      [("index", .int (Int64.ofNat i)), ("args", .list call.args)])
    for (name, v) in call.keywords do
      let _ ← ExceptT.lift (setAttr announcing object name v)
    return ({ object } : Instance)
  return { instances, exports }

def FactorySpec.make : FactorySpec → Step Factory
  | .empty => return .procedure emptyBuild []
  | .refusing message => return .procedure (refusingBuild message) []
  | .alias typeName => return .alias typeName
  | .many count exports => do
      let exports ← forceAll exports
      return .procedure (manyBuild count exports) (exports.map (·.2))

/-- Register a factory under a type name. -/
def register (typeName : String) (make : Step Factory) : Performing Answer := do
  let r := (← getThe Session).registry
  let registry ← inWorld do r.register typeName (← make)
  modifyThe Session ({ · with registry })
  return .done

/-- Register the defines of the current module. -/
def registerModule : Performing Answer := do
  let s ← getThe Session
  let registry ← inWorld (s.module.registerInto s.registry)
  modifyThe Session ({ · with registry })
  return .done

end LiveUI.Session
