import LiveUI.Template.Registry
import LiveUI.World.Binding

/-!
# Running programs

A run walks through the operations with a frame and the constructs that are open. What a construct
builds is attached to the first instance of the construct around it when it closes. The first error
ends the run. What was built before then belongs to nobody, but lives on as long as a binding shares
the frame of the run.
-/

namespace LiveUI.Template

/-- The state of a run: its number in the world, the frame, the constructs that are open, the
innermost first, and the finished roots. -/
structure Machine where
  run : Nat
  frame : Frame
  stack : List (List Instance) := []
  roots : List Instance := []

namespace Machine

/-- Write a slot of the frame, for the bindings that share it as well. -/
def write (m : Machine) (slot : Nat) (v : Value) : Step Machine := do
  let frame := m.frame.set slot v
  modify (·.setRun m.run frame.slots)
  return { m with frame }

/-- Write slots one after another. -/
def writeAll (m : Machine) (slots : List (Nat × Value)) : Step Machine :=
  slots.foldlM (fun m (slot, v) => m.write slot v) m

end Machine

/-- What a run has built, before its life starts. -/
structure Built where
  roots : List Instance
  exports : List (String × Value)

/-- Building a construct, as a run sees it. -/
abbrev Builder := FactoryCall → Building Output

/-- The value of code in a statement. -/
def evalAt (announce : Announce) (frame : Frame) (place : Location) (code : Code) :
    Building Value := do
  match ← ExceptT.lift (code.value (applyFunc announce) { frame }) with
  | .ok v => return v
  | .error cause => throw (.eval cause (some place))

/-- The values of the names of a construct: one name takes the instance, or the list of several;
more names take one instance each. -/
def unpackValues (names : Nat) (instances : List Instance) (place : Location) :
    Except RuntimeError (List Value) :=
  match names, instances with
  | 0, _ => .ok []
  | 1, [i] => .ok [.object i.object]
  | 1, is => .ok [.list (is.map (.object ·.object))]
  | n, is =>
      if n = is.length then .ok (is.map (.object ·.object))
      else .error (.unpack n is.length place)

/-- What a capture stands for: an exported value, or else an attribute of the only instance. -/
def captured (w : World) (output : Output) (attr : String) (place : Location) :
    Except RuntimeError Value :=
  match output.exports.find? (·.1 == attr) with
  | some (_, v) => .ok v
  | none =>
      match output.instances with
      | [i] =>
          match w.attr? i.object attr with
          | some v => .ok v
          | none => .error (.capture attr place)
      | _ => .error (.capture attr place)

/-- Open a construct: evaluate its arguments, build it and write its slots. -/
def openConstruct (announce : Announce) (registry : Registry) (builder : Factory → Builder)
    (m : Machine) (b : Build) : Building Machine := do
  let args ← b.args.mapM (evalAt announce m.frame b.place)
  let keywords ← b.keywords.mapM fun (name, code) => do
    return (name, ← evalAt announce m.frame b.place code)
  let factory ← liftExcept (registry.lookup b.typeName)
  ExceptT.lift (Step.notice (.building b.typeName registry.name))
  let output ← builder factory ⟨b.typeName, args, keywords⟩
  match output.instances with
  | [] => throw (.factory b.typeName .noInstances)
  | first :: _ =>
      let m ← ExceptT.lift (m.write b.selfSlot (.object first.object))
      let values ← liftExcept (unpackValues b.unpack.length output.instances b.place)
      let m ← ExceptT.lift (m.writeAll (b.unpack.zip values))
      let m ← b.captures.foldlM (fun (m : Machine) (slot, attr) => do
        let v ← liftExcept (captured (← getThe World) output attr b.place)
        ExceptT.lift (m.write slot v)) m
      return { m with stack := output.instances :: m.stack }
where
  liftExcept {α : Type} (r : Except RuntimeError α) : Building α := ExceptT.mk (pure r)

/-- The object that an assignment writes to. -/
def targetObject (announce : Announce) (frame : Frame) (t : TargetCode) (place : Location) :
    Building Handle := do
  let base ← evalAt announce frame place t.base
  let v ← match t.index, base with
    | none, v => pure v
    | some i, .list items =>
        match Value.subscript (.list items) (.int i) with
        | .ok v => pure v
        | .error cause => throw (.eval cause (some place))
    | some _, v => throw (.target (.notIndexable v.typeName) place)
  match v with
  | .object o => return o
  | v => throw (.target (.notObject t.attr v.typeName) place)

/-- Apply a binding operator at a site. -/
def applyOperator (announce : Announce) (site : Site) (op : Markup.Operator) (code : Code) :
    Step (Except EvalError (Option Nat)) := do
  match op with
  | .default => return (← site.assign announce code).map fun _ => none
  | .bind => return (← site.bind announce code).map some
  | .delegate => return (← site.delegate announce code).map some
  | .notify => return .ok (some (← site.notify code))

/-- Close a construct: its instances become children of the first instance of the construct around
it, or roots. -/
def closeConstruct (m : Machine) : Step Machine := do
  match m.stack with
  | [] => return m
  | [done] => return { m with stack := [], roots := m.roots ++ done }
  | done :: [] :: rest => return { m with stack := [] :: rest, roots := m.roots ++ done }
  | done :: (parent :: others) :: rest =>
      done.forM fun child => modify (·.addChild parent.object child.object)
      let parent := done.foldl Instance.adopt parent
      return { m with stack := (parent :: others) :: rest }

def runOp (announce : Announce) (registry : Registry) (builder : Factory → Builder)
    (m : Machine) : Op → Building Machine
  | .build b => openConstruct announce registry builder m b
  | .assign target op code place => do
      let o ← targetObject announce m.frame target place
      let site : Site :=
        { target := o, attr := target.attr, frame := m.frame, run := m.run, label := place.line }
      match ← ExceptT.lift (applyOperator announce site op code) with
      | .ok _ => return m
      | .error cause => throw (.eval cause (some place))
  | .close => ExceptT.lift (closeConstruct m)

/-- Run a program on a frame. -/
def Program.run (announce : Announce) (registry : Registry) (builder : Factory → Builder)
    (p : Program) (frame : Frame) : Building Built := do
  let run ← modifyGetThe World (·.beginRun frame.slots)
  let m ← p.ops.foldlM (runOp announce registry builder) { run, frame }
  return ⟨m.roots, p.exports.map fun (name, slot) => (name, m.frame.get slot)⟩

/-! ## Defines -/

/-- Put the keyword arguments to the parameters that are still without a value. -/
def bindKeywords (params : List (String × Option Value)) :
    List (String × Value) → List (Option Value) → Except ArgumentFault (List (Option Value))
  | [], bound => .ok bound
  | (name, v) :: rest, bound =>
      match params.findIdx? (·.1 == name) with
      | none => .error (.unexpected name)
      | some i =>
          match bound[i]? with
          | some (some _) => .error (.repeated name)
          | _ => bindKeywords params rest (bound.set i (some v))

/-- A parameter without an argument takes its default. -/
def bindDefaults : List (Option Value × String × Option Value) → Except ArgumentFault (List Value)
  | [] => .ok []
  | (bound, name, default) :: rest =>
      match bound.or default with
      | some v => do return v :: (← bindDefaults rest)
      | none => .error (.missing name)

/-- The values of the parameters: positional arguments, then keywords, then defaults. -/
def bindArguments (params : List (String × Option Value)) (args : List Value)
    (keywords : List (String × Value)) : Except ArgumentFault (List Value) := do
  if params.length < args.length then throw (.surplus params.length args.length)
  let bound := args.map some ++ List.replicate (params.length - args.length) none
  let bound ← bindKeywords params keywords bound
  bindDefaults (bound.zip params)

/-- Run the program of a define on arguments. -/
def CompiledDefine.instantiate (announce : Announce) (registry : Registry)
    (builder : Factory → Builder) (d : CompiledDefine) (args : List Value)
    (keywords : List (String × Value)) : Building Built := do
  match bindArguments d.params args keywords with
  | .error fault => throw (.arguments d.name fault)
  | .ok values =>
      let frame := values.zipIdx.foldl (fun (frame : Frame) (v, slot) => frame.set slot v)
        (Frame.ofSize d.program.slots)
      d.program.run announce registry builder frame

/-- Build by a factory. Defines and aliases lead to further factories, at most `depth` inside each
other. -/
def Factory.build (announce : Announce) (registry : Registry) :
    (depth : Nat) → Factory → Builder
  | 0, _, _ => ExceptT.lift failure
  | _ + 1, .component c, call => c.build announce call
  | depth + 1, .define d, call => do
      let built ← d.instantiate announce registry (build announce registry depth) call.args
        call.keywords
      return ⟨built.roots, built.exports⟩
  | depth + 1, .alias typeName, call => do
      match registry.lookup typeName with
      | .ok f => build announce registry depth f call
      | .error e => throw e
  | _ + 1, .procedure f _, call => f call

end LiveUI.Template
