import LiveUI.Proofs.World.Lasting

/-! # Propagation as a script

The scripts of all that goes on when an attribute is written: of the announcement, of what observers
and routines of the host do, of evaluations, and of bindings at work. Each one is laid out as the step
that it is the script of, and does what the step does. -/

namespace LiveUI

namespace Script

variable {α β : Type}

/-! ## Parts of scripts -/

def world : Script World :=
  look done

def perform (d : Deed) : Script Unit :=
  act d (done ())

/-- A deed that brings something new into the world, which is then known. -/
def bring (view : World → α) (d : Deed) : Script α :=
  look fun w => act d (done (view w))

def notice (n : Notice) : Script Unit :=
  perform (.log (.notice n))

/-- All of `body` is done within the stretch. -/
def inside (t : Stretch) (body : Script α) : Script α :=
  within t body done

/-! ## Writes, routines and functions -/

def setAttr (announce : Change → Script Unit) (o : Handle) (attr : String) (v : Value) :
    Script Bool := do
  match (← world).attr? o attr with
  | some old =>
      if old == v then return false
      else
        perform (.write o attr v)
        announce ⟨o, attr, old, v⟩
        return true
  | none =>
      perform (.write o attr v)
      announce ⟨o, attr, .nil, v⟩
      return true

def emitAttr (announce : Change → Script Unit) (o : Handle) (attr : String) (v : Value) :
    Script Unit := do
  let old := ((← world).attr? o attr).getD .nil
  perform (.write o attr v)
  announce ⟨o, attr, old, v⟩

def routine (announce : Change → Script Unit) : Host → Script (Except EvalError Value)
  | .done result => return result
  | .read o attr next => do routine announce (next ((← world).attr? o attr))
  | .write o attr v next => do routine announce (next (← setAttr announce o attr v))
  | .emit o attr v next => do
      emitAttr announce o attr v
      routine announce next
  | .observe o attr callback next => do
      let s ← bring (fun w => (w.observe o attr (.host callback)).1) (.observe o attr callback)
      routine announce (next s)
  | .unobserve s next => do
      perform (.unobserve s)
      routine announce next
  | .inFlight o attr next => do routine announce (next ((← world).isInFlight o attr))
  | .phase o next => do routine announce (next ((← world).phase o))
  | .create typeName attrs next => do
      let o ← bring (fun w => (w.create typeName attrs).1) (.create typeName attrs)
      routine announce (next o)
  | .function name body next => do
      let f ← bring (fun w => (w.addFunction name body).1) (.function name body)
      routine announce (next f)
  | .builtin b next => do
      let f ← bring (fun w => (w.addBuiltin b).1) (.builtin b)
      routine announce (next f)
  | .destroy o next => do
      perform (.destroy o)
      routine announce next
  | .disconnect b next => do
      perform (.disconnect b)
      routine announce next
  | .report r next => do
      perform (.log (.report r))
      routine announce next
  | .recall next => do routine announce (next (← world).memory)
  | .remember m next => do
      perform (.remember m)
      routine announce next

def applyFunc (announce : Change → Script Unit) (f : Func) (args : List Value) :
    Script (Except EvalError Value) :=
  match f.kind with
  | .builtin b => return b.apply args
  | .host => do
      match (← world).enterFunction? f args with
      | some p =>
          perform (.enter f args)
          routine announce p.1
      | none => return .error (.notCallable "function")

/-! ## Evaluations -/

abbrev Evaluating := ExceptT EvalError (StateT Reads Script)

def readAttr (base : Value) (attr : String) : Evaluating Value :=
  match base with
  | .object o => do
      modifyThe Reads (·.note o attr)
      match (← (liftM world : Evaluating World)).attr? o attr with
      | some v => return v
      | none => throw (.missingAttribute o.typeName attr)
  | v => throw (.missingAttribute v.typeName attr)

def call (apply : Func → List Value → Script (Except EvalError Value)) (callee : Value)
    (args : List Value) : Evaluating Value :=
  match callee with
  | .func f => ExceptT.mk (liftM (apply f args))
  | v => throw (.notCallable v.typeName)

section Evaluating

variable (apply : Func → List Value → Script (Except EvalError Value)) (scope : Scope)

mutual

def eval : Code → Evaluating Value
  | .const v => return v
  | .slot n => return scope.frame.get n
  | .change => return scope.change
  | .list items => return .list (← evalAll items)
  | .attr value a => do
      let base ← eval value
      readAttr base a
  | .index value i => do
      let base ← eval value
      let i ← eval i
      ofExcept (Value.subscript base i)
  | .call func args => do
      let callee ← eval func
      let args ← evalAll args
      call apply callee args
  | .unary op operand => do
      let v ← eval operand
      ofExcept (Value.unary op v)
  | .binary op left right => do
      let l ← eval left
      let r ← eval right
      ofExcept (Value.binary op l r)
  | .boolOp .and left right => do
      let l ← eval left
      if l.isTruthy then eval right else return l
  | .boolOp .or left right => do
      let l ← eval left
      if l.isTruthy then return l else eval right
  | .ifElse body condition otherwise => do
      let t ← eval condition
      if t.isTruthy then eval body else eval otherwise

def evalAll : List Code → Evaluating (List Value)
  | [] => return []
  | c :: cs => do
      let v ← eval c
      return v :: (← evalAll cs)

end

def evaluate (recording : Bool) (code : Code) :
    Script (Except EvalError Value × List (Handle × String)) := do
  let p ← ((eval apply scope code).run).run { recording }
  return (p.1, p.2.pairs)

def value (code : Code) : Script (Except EvalError Value) := do
  return (← evaluate apply scope false code).1

end Evaluating

/-! ## Bindings at work -/

def guarded (b : Nat) (work : Binding → Script (Except EvalError Unit)) :
    Script (Except EvalError Unit) := do
  match (← world).binding? b with
  | none => return .ok ()
  | some x => if x.busy then return .ok () else inside (.work b) (work x)

def sourceOf (announce : Change → Script Unit) (x : Binding) :
    Script (Except EvalError (Handle × String)) := do
  match x.code.attrPath? with
  | none => return .error (.notAssignable x.label)
  | some p =>
      match ← value (applyFunc announce) { frame := x.frame } p.1 with
      | .ok (.object o) => return .ok (o, p.2)
      | .ok v => return .error (.notAssignable ("a '" ++ v.typeName ++ "' value"))
      | .error e => return .error e

def storeValue (announce : Change → Script Unit) (x : Binding) (v : Value) :
    Script (Except EvalError Unit) := do
  let _ ← setAttr announce x.target x.attr v
  if x.kind ≠ .delegate then return .ok ()
  else
    let stored := ((← world).attr? x.target x.attr).getD .nil
    if stored == v then return .ok ()
    else
      match ← sourceOf announce x with
      | .error e => return .error e
      | .ok p =>
          let _ ← setAttr announce p.1 p.2 stored
          return .ok ()

def refresh (announce : Change → Script Unit) (b : Nat) : Script (Except EvalError Unit) :=
  guarded b fun x => do
    if !(← world).isAlive x.target then return .ok ()
    else
      let p ← inside (.evaluation b) do
        let p ← evaluate (applyFunc announce) { frame := x.frame } true x.code
        perform (.log (.evaluated b p.1 p.2))
        perform (.resubscribe b p.2)
        return p
      notice (.dependsOn x.label p.2.length)
      match p.1 with
      | .error e => return .error e
      | .ok v => storeValue announce x v

def noteFailure (label : String) : Except EvalError Unit → Script Unit
  | .ok () => return ()
  | .error e => notice (.bindingFailed label e)

def onSource (announce : Change → Script Unit) (x : Binding) : Script Unit := do
  let w ← world
  if !w.isAlive x.target then return ()
  else if x.busy then notice (.alreadyUpdating x.label)
  else if w.isInFlight x.target x.attr then notice (.targetNotifying x.label)
  else
    notice (.reevaluating x.label)
    noteFailure x.label (← refresh announce x.id)

def writeBack (announce : Change → Script Unit) (b : Nat) (c : Change) :
    Script (Except EvalError Unit) :=
  guarded b fun x => do
    match ← sourceOf announce x with
    | .error e => return .error e
    | .ok p =>
        if (← world).isInFlight p.1 p.2 then
          notice (.sourceNotifying x.label)
          return .ok ()
        else
          notice (.writingBack x.label)
          let _ ← setAttr announce p.1 p.2 c.new
          let stored := ((← world).attr? p.1 p.2).getD .nil
          if stored == c.new then return .ok ()
          else
            let _ ← setAttr announce c.object x.attr stored
            return .ok ()

def fire (announce : Change → Script Unit) (b : Nat) (c : Change) : Script (Except EvalError Unit) :=
  guarded b fun x => do
    let attrs := [("object", .object c.object), ("name", .str c.attr), ("old", c.old), ("new", c.new)]
    let record ← bring (fun w => (w.create "ChangeArgs" attrs).1) (.create "ChangeArgs" attrs)
    notice (.notifying x.label)
    let result ← value (applyFunc announce) ⟨x.frame, .object record⟩ x.code
    perform (.log (.evaluated b result []))
    match result with
    | .error e => return .error e
    | .ok _ => return .ok ()

def onTarget (announce : Change → Script Unit) (x : Binding) (c : Change) : Script Unit := do
  let result ← match x.kind with
    | .delegate => writeBack announce x.id c
    | .notify => fire announce x.id c
    | .bind => pure (.ok ())
  noteFailure x.label result

/-! ## Announcements -/

def react (announce : Change → Script Unit) (callback : Callback) (c : Change) : Script Unit := do
  match callback with
  | .source b =>
      match (← world).binding? b with
      | none => return ()
      | some x =>
          onSource announce x
          perform (.release b)
  | .target b =>
      match (← world).binding? b with
      | none => return ()
      | some x =>
          onTarget announce x c
          perform (.release b)
  | .host h =>
      let _ ← routine announce (h c)
      return ()

def deliver (announce : Change → Script Unit) (c : Change) : List Observer → Script Unit
  | [] => return ()
  | x :: xs => do
      if (← world).isRegistered ⟨c.object, x.id⟩ then
        perform (.log (.called c x.id))
        react announce x.callback c
      deliver announce c xs

def announce : Nat → Change → Script Unit
  | 0, _ => fail
  | n + 1, c => do
      let snapshot := (← world).observersOf c.object c.attr
      if snapshot.isEmpty then return ()
      else inside (.dispatch c) (deliver (announce n) c snapshot)

end Script

end LiveUI
