import LiveUI.World.Evaluation

/-!
# Announcing changes

A write that changes an attribute is announced to the observers that the attribute has at that
moment, in the order in which they registered; one that is removed before its turn is left out.
Observers may write in turn, and their writes are announced inside the announcement that reached
them.

A binding hears of the attributes that it read. It does not start again while it is evaluating or
writing, and it does not write an attribute whose change is still being announced; only a delegate
that hands a normalised value back to where it came from does. What fails inside an announcement has
no caller: it is noted, and the target keeps its value.

`announce n` is the announcement with at most `n` announcements inside each other. Everything that
may write takes the announcement of its writes as an argument.
-/

namespace LiveUI

/-- How a change is announced. -/
abbrev Announce := Change → Step Unit

namespace Step

def notice (n : Notice) : Step Unit :=
  modify (·.notice n)

end Step

/-! ## Writing -/

/-- Write an attribute. A value that equals the stored one changes nothing and is not announced. -/
def setAttr (announce : Announce) (o : Handle) (attr : String) (v : Value) : Step Bool := do
  match (← get).attr? o attr with
  | some old =>
      if old == v then return false
      else
        modify (·.write o attr v)
        announce ⟨o, attr, old, v⟩
        return true
  | none =>
      modify (·.write o attr v)
      announce ⟨o, attr, .nil, v⟩
      return true

/-- Write an attribute and announce it, changed or not. -/
def emitAttr (announce : Announce) (o : Handle) (attr : String) (v : Value) : Step Unit := do
  let old := ((← get).attr? o attr).getD .nil
  modify (·.write o attr v)
  announce ⟨o, attr, old, v⟩

/-! ## Host routines and functions -/

/-- Answer the requests of a routine until it is done. -/
def Host.run (announce : Announce) : Host → Step (Except EvalError Value)
  | .done result => return result
  | .read o attr next => do run announce (next ((← get).attr? o attr))
  | .write o attr v next => do run announce (next (← setAttr announce o attr v))
  | .emit o attr v next => do
      emitAttr announce o attr v
      run announce next
  | .observe o attr callback next => do
      let s ← modifyGet (·.observe o attr (.host callback))
      run announce (next s)
  | .unobserve s next => do
      modify (·.unobserve s)
      run announce next
  | .inFlight o attr next => do run announce (next ((← get).isInFlight o attr))
  | .phase o next => do run announce (next ((← get).phase o))
  | .create typeName attrs next => do
      let o ← modifyGet (·.create typeName attrs)
      run announce (next o)
  | .function name body next => do
      let f ← modifyGet (·.addFunction name body)
      run announce (next f)
  | .builtin b next => do
      let f ← modifyGet (·.addBuiltin b)
      run announce (next f)
  | .destroy o next => do
      modify (·.destroy o)
      run announce next
  | .disconnect b next => do
      modify (·.disconnect b)
      run announce next
  | .report r next => do
      modify (·.log (.report r))
      run announce next
  | .recall next => do run announce (next (← get).memory)
  | .remember m next => do
      modify fun w => { w with memory := m }
      run announce next

/-- Call a function: a builtin by its definition, one of the host by its routine. -/
def applyFunc (announce : Announce) : Apply := fun f args =>
  match f.kind with
  | .builtin b => return b.apply args
  | .host => do
      match (← get).enterFunction? f args with
      | some (routine, w) => do
          set w
          routine.run announce
      | none => return .error (.notCallable "function")

/-! ## Bindings at work -/

/-- Run a binding's work under its busy mark; a binding that is at work already does nothing. -/
def guarded (b : Nat) (work : Binding → Step (Except EvalError Unit)) :
    Step (Except EvalError Unit) := do
  match (← get).binding? b with
  | none => return .ok ()
  | some x =>
      if x.busy then return .ok ()
      else
        modify (·.setBusy b true)
        let result ← work x
        modify (·.setBusy b false)
        return result

/-- The object and the attribute that the expression of a delegate denotes. -/
def sourceOf (announce : Announce) (x : Binding) : Step (Except EvalError (Handle × String)) := do
  match x.code.attrPath? with
  | none => return .error (.notAssignable x.label)
  | some (base, attr) =>
      match ← base.value (applyFunc announce) { frame := x.frame } with
      | .ok (.object o) => return .ok (o, attr)
      | .ok v => return .error (.notAssignable ("a '" ++ v.typeName ++ "' value"))
      | .error e => return .error e

/-- Observe everything that was read, then drop the observers of the evaluation before. -/
def resubscribe (b : Nat) (reads : List (Handle × String)) : Step Unit := do
  let fresh ← reads.mapM fun (o, attr) =>
    (modifyGet (·.observe o attr (.source b)) : Step Subscription)
  let stale := ((← get).binding? b).elim [] (·.sources)
  modify (·.modifyBinding b fun x => { x with sources := fresh })
  modify fun w => stale.foldl World.unobserve w

/-- Write a value to the target. A delegate whose target has normalised the value hands the stored
one back to its source. -/
def storeValue (announce : Announce) (x : Binding) (v : Value) : Step (Except EvalError Unit) := do
  let _ ← setAttr announce x.target x.attr v
  if x.kind ≠ .delegate then return .ok ()
  let stored := ((← get).attr? x.target x.attr).getD .nil
  if stored == v then return .ok ()
  match ← sourceOf announce x with
  | .error e => return .error e
  | .ok (source, attr) =>
      let _ ← setAttr announce source attr stored
      return .ok ()

/-- Evaluate, listen to what was read and write the value. -/
def refresh (announce : Announce) (b : Nat) : Step (Except EvalError Unit) :=
  guarded b fun x => do
    if !(← get).isAlive x.target then return .ok ()
    let (result, reads) ← x.code.evaluate (applyFunc announce) { frame := x.frame } true
    modify (·.log (.evaluated b result reads))
    resubscribe b reads
    Step.notice (.dependsOn x.label reads.length)
    match result with
    | .error e => return .error e
    | .ok v => storeValue announce x v

/-- Note a failure that nobody else hears of. -/
def noteFailure (label : String) : Except EvalError Unit → Step Unit
  | .ok () => return ()
  | .error e => Step.notice (.bindingFailed label e)

/-- Something that a binding read has changed. -/
def onSource (announce : Announce) (x : Binding) : Step Unit := do
  let w ← get
  if !w.isAlive x.target then return ()
  else if x.busy then Step.notice (.alreadyUpdating x.label)
  else if w.isInFlight x.target x.attr then Step.notice (.targetNotifying x.label)
  else
    Step.notice (.reevaluating x.label)
    noteFailure x.label (← refresh announce x.id)

/-- Write the changed target of a delegate back to its source, and hand the stored value to the
target where the source has normalised it. -/
def writeBack (announce : Announce) (b : Nat) (c : Change) : Step (Except EvalError Unit) :=
  guarded b fun x => do
    match ← sourceOf announce x with
    | .error e => return .error e
    | .ok (source, attr) =>
        if (← get).isInFlight source attr then
          Step.notice (.sourceNotifying x.label)
          return .ok ()
        Step.notice (.writingBack x.label)
        let _ ← setAttr announce source attr c.new
        let stored := ((← get).attr? source attr).getD .nil
        if stored == c.new then return .ok ()
        let _ ← setAttr announce c.object x.attr stored
        return .ok ()

/-- Evaluate for the effect, with a record of the change. -/
def fire (announce : Announce) (b : Nat) (c : Change) : Step (Except EvalError Unit) :=
  guarded b fun x => do
    let record ← modifyGet (·.create "ChangeArgs"
      [("object", .object c.object), ("name", .str c.attr), ("old", c.old), ("new", c.new)])
    Step.notice (.notifying x.label)
    let result ← x.code.value (applyFunc announce) ⟨x.frame, .object record⟩
    modify (·.log (.evaluated b result []))
    match result with
    | .error e => return .error e
    | .ok _ => return .ok ()

/-- The target of a binding has changed. -/
def onTarget (announce : Announce) (x : Binding) (c : Change) : Step Unit := do
  let result ← match x.kind with
    | .delegate => writeBack announce x.id c
    | .notify => fire announce x.id c
    | .bind => pure (.ok ())
  noteFailure x.label result

/-- What an observer does. A binding that was let go of meanwhile loses its observers. -/
def react (announce : Announce) (callback : Callback) (c : Change) : Step Unit := do
  match callback with
  | .source b =>
      match (← get).binding? b with
      | none => return ()
      | some x =>
          onSource announce x
          modify (·.release b)
  | .target b =>
      match (← get).binding? b with
      | none => return ()
      | some x =>
          onTarget announce x c
          modify (·.release b)
  | .host routine =>
      let _ ← (routine c).run announce
      return ()

/-! ## Announcements -/

/-- Reach the observers of a snapshot in order, without those that are no longer registered. -/
def deliver (announce : Announce) (c : Change) : List Observer → Step Unit
  | [] => return ()
  | x :: xs => do
      if (← get).isRegistered ⟨c.object, x.id⟩ then
        modify (·.log (.called c x.id))
        react announce x.callback c
      deliver announce c xs

/-- Announce a change with at most `n` announcements inside each other, this one included. -/
def announce : (n : Nat) → Announce
  | 0, _ => failure
  | n + 1, c => do
      let snapshot := (← get).observersOf c.object c.attr
      if snapshot.isEmpty then return ()
      modify (·.beginFlight c)
      deliver (announce n) c snapshot
      modify (·.endFlight c)

end LiveUI
