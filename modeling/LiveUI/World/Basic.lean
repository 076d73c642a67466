import LiveUI.Code.Basic
import LiveUI.Code.Frame
import LiveUI.World.Host

/-!
# The world

All objects and all bindings, each under a number of its own, together with the functions of the
host, what the host keeps and the journal. The operations here change one thing each and announce
nothing.
-/

namespace LiveUI

/-! ## Attributes -/

/-- Named values in the order of their first assignment. -/
abbrev Attrs := List (String × Value)

namespace Attrs

def get? (attrs : Attrs) (name : String) : Option Value :=
  (attrs.find? (·.1 == name)).map (·.2)

def put : Attrs → String → Value → Attrs
  | [], name, v => [(name, v)]
  | (n, w) :: rest, name, v =>
      if n = name then (n, v) :: rest else (n, w) :: put rest name v

/-- Assignments one after another; a later one replaces an earlier one in its place. -/
def ofList (assignments : List (String × Value)) : Attrs :=
  assignments.foldl (fun attrs (name, v) => put attrs name v) []

theorem get?_put_self (attrs : Attrs) (name : String) (v : Value) :
    (attrs.put name v).get? name = some v := by
  induction attrs with
  | nil => simp [put, get?]
  | cons a rest ih =>
      obtain ⟨n, w⟩ := a
      by_cases h : n = name
      · simp [put, get?, h]
      · simp only [put, h, if_false]
        simpa [get?, List.find?_cons, h] using ih

end Attrs

/-! ## Objects -/

/-- What hears of a change: a binding that read the attribute, a binding whose target it is, or a
routine of the host. -/
inductive Callback where
  | source (binding : Nat)
  | target (binding : Nat)
  | host (routine : Change → Host)

structure Observer where
  id : Nat
  attr : String
  callback : Callback

structure Object where
  handle : Handle
  attrs : Attrs := []
  observers : List Observer := []
  /-- The number of the next observer. Numbers are not used again. -/
  nextObserver : Nat := 0
  /-- The attributes whose changes are being announced, the innermost first. -/
  inFlight : List String := []
  parent : Option Handle := none
  children : List Handle := []
  /-- The bindings that this object owns: those that write to it or watch it. -/
  bindings : List Nat := []
  phase : Phase := .pending

/-! ## Bindings -/

inductive BindingKind where
  | bind | delegate | notify
deriving DecidableEq, Repr, Inhabited

def BindingKind.name : BindingKind → String
  | bind => "Bind"
  | delegate => "Delegate"
  | notify => "Notify"

structure Binding where
  id : Nat
  kind : BindingKind
  target : Handle
  attr : String
  code : Code
  frame : Frame
  /-- The run of a template that made it, if one did. -/
  run : Option Nat := none
  /-- The statement as it is written, for notices. -/
  label : String
  /-- The observers on what the last evaluation read. -/
  sources : List Subscription := []
  /-- The observer on the target attribute itself. -/
  targetListener : Option Subscription := none
  /-- It is evaluating or writing. -/
  busy : Bool := false
  /-- The target owns it. -/
  owned : Bool := false
  /-- The host keeps a reference to it. -/
  held : Bool := false

/-- A run of a template and what its frame holds. All bindings that a run makes share its frame, so
each of them holds on to every slot, also to one that is written after the binding is made. -/
structure Run where
  id : Nat
  values : List Value

/-! ## The world -/

/-- A function of the host. It is told how often it has been called, this call included. -/
structure HostFunction where
  id : Nat
  calls : Nat := 0
  body : Nat → List Value → Host

structure World where
  objects : List Object := []
  bindings : List Binding := []
  runs : List Run := []
  functions : List HostFunction := []
  nextObject : Nat := 1
  nextBinding : Nat := 0
  nextRun : Nat := 0
  nextFunction : Nat := 0
  memory : Memory := {}
  /-- What has happened, the latest first. -/
  journal : List Entry := []

instance : Inhabited World := ⟨{}⟩

namespace World

def log (w : World) (e : Entry) : World :=
  { w with journal := e :: w.journal }

def notice (w : World) (n : Notice) : World :=
  w.log (.notice n)

/-! ### Objects -/

/-- The object of a handle, as long as it is alive. -/
def object? (w : World) (o : Handle) : Option Object :=
  w.objects.find? (·.handle.id == o.id)

def isAlive (w : World) (o : Handle) : Bool :=
  (w.object? o).isSome

def modifyObject (w : World) (o : Handle) (f : Object → Object) : World :=
  { w with objects := w.objects.map fun x => if x.handle.id == o.id then f x else x }

def create (w : World) (typeName : String) (attrs : List (String × Value)) : Handle × World :=
  let o : Handle := ⟨w.nextObject, typeName⟩
  (o, { w with
    objects := w.objects ++ [{ handle := o, attrs := Attrs.ofList attrs }]
    nextObject := w.nextObject + 1 })

def attr? (w : World) (o : Handle) (attr : String) : Option Value :=
  (w.object? o).bind (·.attrs.get? attr)

/-- Store a value without a word to anyone. -/
def write (w : World) (o : Handle) (attr : String) (v : Value) : World :=
  (w.modifyObject o fun x => { x with attrs := x.attrs.put attr v }).log (.wrote o attr v)

def phase (w : World) (o : Handle) : Phase :=
  ((w.object? o).map (·.phase)).getD .destroyed

def setPhase (w : World) (o : Handle) (p : Phase) : World :=
  w.modifyObject o fun x => { x with phase := p }

def addChild (w : World) (parent child : Handle) : World :=
  (w.modifyObject child fun x => { x with parent := some parent }).modifyObject parent
    fun x => { x with children := x.children ++ [child] }

/-! ### Observers -/

def observersOf (w : World) (o : Handle) (attr : String) : List Observer :=
  ((w.object? o).map fun x => x.observers.filter (·.attr == attr)).getD []

/-- Register an observer behind the others. -/
def observe (w : World) (o : Handle) (attr : String) (callback : Callback) :
    Subscription × World :=
  let id := ((w.object? o).map (·.nextObserver)).getD 0
  (⟨o, id⟩, w.modifyObject o fun x => { x with
    observers := x.observers ++ [⟨id, attr, callback⟩]
    nextObserver := id + 1 })

def unobserve (w : World) (s : Subscription) : World :=
  w.modifyObject s.object fun x => { x with observers := x.observers.filter (·.id != s.id) }

def isRegistered (w : World) (s : Subscription) : Bool :=
  ((w.object? s.object).map fun x => x.observers.any (·.id == s.id)).getD false

def isInFlight (w : World) (o : Handle) (attr : String) : Bool :=
  ((w.object? o).map (·.inFlight.contains attr)).getD false

def beginFlight (w : World) (c : Change) : World :=
  (w.modifyObject c.object fun x => { x with inFlight := c.attr :: x.inFlight }).log (.began c)

def endFlight (w : World) (c : Change) : World :=
  (w.modifyObject c.object fun x => { x with inFlight := x.inFlight.erase c.attr }).log (.ended c)

/-! ### Bindings -/

def binding? (w : World) (b : Nat) : Option Binding :=
  w.bindings.find? (·.id == b)

def modifyBinding (w : World) (b : Nat) (f : Binding → Binding) : World :=
  { w with bindings := w.bindings.map fun x => if x.id == b then f x else x }

def setBusy (w : World) (b : Nat) (busy : Bool) : World :=
  w.modifyBinding b fun x => { x with busy }

/-- Remove every observer of a binding. -/
def disconnect (w : World) (b : Nat) : World :=
  match w.binding? b with
  | none => w
  | some x =>
      let w := x.sources.foldl unobserve w
      let w := x.targetListener.toList.foldl unobserve w
      w.modifyBinding b fun x => { x with sources := [], targetListener := none }

/-- A binding that nobody owns or keeps, and that is not at work, loses its observers. -/
def release (w : World) (b : Nat) : World :=
  match w.binding? b with
  | some x => if x.owned || x.held || x.busy then w else w.disconnect b
  | none => w

/-! ### Runs -/

/-- Give a number to a new run. -/
def beginRun (w : World) (values : List Value) : Nat × World :=
  (w.nextRun, { w with
    runs := w.runs ++ [⟨w.nextRun, values⟩]
    nextRun := w.nextRun + 1 })

/-- The frame of a run holds `values` from now on. -/
def setRun (w : World) (run : Nat) (values : List Value) : World :=
  { w with runs := w.runs.map fun r => if r.id == run then { r with values } else r }

/-- What the frame of a run holds. -/
def runValues (w : World) (run : Nat) : List Value :=
  ((w.runs.find? (·.id == run)).map (·.values)).getD []

/-! ### Functions -/

def addFunction (w : World) (name : String) (body : Nat → List Value → Host) : Func × World :=
  (⟨w.nextFunction, name, .host⟩, { w with
    functions := w.functions ++ [{ id := w.nextFunction, body }]
    nextFunction := w.nextFunction + 1 })

/-- A new function value for a builtin. -/
def addBuiltin (w : World) (b : Builtin) : Func × World :=
  (⟨w.nextFunction, b.name, .builtin b⟩, { w with nextFunction := w.nextFunction + 1 })

/-- Count one more call of a function of the host, and say what it does. -/
def enterFunction? (w : World) (f : Func) (args : List Value) : Option (Host × World) :=
  (w.functions.find? (·.id == f.id)).map fun x =>
    (x.body (x.calls + 1) args, { w with
      functions := w.functions.map fun y =>
        if y.id == f.id then { y with calls := y.calls + 1 } else y })

end World

end LiveUI
