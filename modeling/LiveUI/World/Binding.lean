import LiveUI.World.Propagation

/-!
# Making bindings

The four operators at a site. The first evaluation of a bind or a delegate is part of its making:
where it fails the binding is not made and leaves no observer behind. A binding that is made belongs
to its target.
-/

namespace LiveUI

/-- Where a binding writes, and what its expression can see. -/
structure Site where
  target : Handle
  attr : String
  frame : Frame
  /-- The run of a template that the frame belongs to, if it does to one. -/
  run : Option Nat := none
  /-- The statement as it is written. -/
  label : String

namespace Site

/-- Evaluate once and write. -/
def assign (announce : Announce) (site : Site) (code : Code) : Step (Except EvalError Unit) := do
  match ← code.value (applyFunc announce) { frame := site.frame } with
  | .error e => return .error e
  | .ok v =>
      let _ ← setAttr announce site.target site.attr v
      return .ok ()

/-- A binding that has not been evaluated and that nobody owns. -/
def newBinding (site : Site) (kind : BindingKind) (code : Code) : Step Nat := do
  let w ← get
  let x : Binding :=
    { id := w.nextBinding, kind, target := site.target, attr := site.attr, code
      frame := site.frame, run := site.run, label := site.label }
  set { w with bindings := w.bindings ++ [x], nextBinding := w.nextBinding + 1 }
  return x.id

/-- Listen to the target attribute itself. -/
def listenToTarget (site : Site) (b : Nat) : Step Unit := do
  let s ← modifyGet (·.observe site.target site.attr (.target b))
  modify (·.modifyBinding b fun x => { x with targetListener := some s })

/-- Give a binding to its target. -/
def own (site : Site) (b : Nat) : Step Unit := do
  modify (·.modifyBinding b fun x => { x with owned := true })
  modify (·.modifyObject site.target fun x => { x with bindings := x.bindings ++ [b] })

/-- Evaluate again whenever something that was read changes. -/
def bind (announce : Announce) (site : Site) (code : Code) : Step (Except EvalError Nat) := do
  let b ← site.newBinding .bind code
  match ← refresh announce b with
  | .error e =>
      modify (·.disconnect b)
      return .error e
  | .ok () =>
      site.own b
      return .ok b

/-- Keep the target and an attribute path in step. -/
def delegate (announce : Announce) (site : Site) (code : Code) : Step (Except EvalError Nat) := do
  if code.attrPath?.isNone then return .error (.notAssignable site.label)
  let b ← site.newBinding .delegate code
  match ← refresh announce b with
  | .error e =>
      modify (·.disconnect b)
      return .error e
  | .ok () =>
      site.listenToTarget b
      site.own b
      return .ok b

/-- Evaluate for the effect whenever the target changes. -/
def notify (site : Site) (code : Code) : Step Nat := do
  let b ← site.newBinding .notify code
  site.listenToTarget b
  site.own b
  return b

end Site

end LiveUI
