import LiveUI.Text.Quoted
import LiveUI.Value.Error
import LiveUI.World.Change

/-!
# The journal

Everything that happens, in order: writes, announcements and the observers they reach, evaluations,
lifecycle calls, what the machinery notices and what host routines report. Notices have a level and
a text; which of them are shown is not decided here.
-/

namespace LiveUI

inductive Level where
  | off | error | warn | info | debug | trace
deriving DecidableEq, Repr, Inhabited

namespace Level

def name : Level → String
  | off => "OFF"
  | error => "ERROR"
  | warn => "WARN"
  | info => "INFO"
  | debug => "DEBUG"
  | trace => "TRACE"

/-- More is shown at a higher rank. -/
def rank : Level → Nat
  | off => 0
  | error => 1
  | warn => 2
  | info => 3
  | debug => 4
  | trace => 5

end Level

/-- What the machinery notices about itself. Bindings are named by their labels. -/
inductive Notice where
  | alreadyUpdating (label : String)
  | targetNotifying (label : String)
  | sourceNotifying (label : String)
  | reevaluating (label : String)
  | dependsOn (label : String) (count : Nat)
  | writingBack (label : String)
  | notifying (label : String)
  | bindingFailed (label : String) (cause : EvalError)
  | destroyed (o : Handle)
  | building (typeName registry : String)
  | lifecycle (phase : Phase) (roots : Nat)
  | registered (registry typeName : String)
  | compiledModule (defines constructs : Nat)
  | compiledDefine (name : String) (ops slots : Nat) (exports : List String)
  | compiledConstruct (typeName : String) (ops slots : Nat)
  | calling (define registry : String)

namespace Notice

def level : Notice → Level
  | bindingFailed .. => .warn
  | registered .. | compiledModule .. | compiledDefine .. | compiledConstruct .. | calling .. =>
      .debug
  | _ => .trace

def text : Notice → String
  | alreadyUpdating label => "`" ++ label ++ "`: already updating, skipped"
  | targetNotifying label => "`" ++ label ++ "`: target still notifying, propagation stops"
  | sourceNotifying label => "`" ++ label ++ "`: source still notifying, write-back stops"
  | reevaluating label => "re-evaluating `" ++ label ++ "`"
  | dependsOn label count => "`" ++ label ++ "` depends on " ++ toString count ++ " attribute(s)"
  | writingBack label => "writing back `" ++ label ++ "`"
  | notifying label => "notifying `" ++ label ++ "`"
  | bindingFailed label cause => "binding `" ++ label ++ "` failed: " ++ cause.message
  | destroyed o => "destroyed " ++ o.typeName ++ " #" ++ toString o.id
  | building typeName registry => "building " ++ typeName ++ " via '" ++ registry ++ "'"
  | lifecycle phase roots =>
      "lifecycle: " ++ phase.name ++ " for " ++ toString roots ++ " root(s)"
  | registered registry typeName => "registry '" ++ registry ++ "': registered " ++ typeName
  | compiledModule defines constructs =>
      "compiled module: " ++ toString defines ++ " define(s), " ++ toString constructs ++
        " construct(s)"
  | compiledDefine name ops slots exports =>
      "compiled defn " ++ name ++ ": " ++ toString ops ++ " op(s), " ++ toString slots ++
        " slot(s), exports [" ++ String.intercalate ", " (exports.map Text.quoted) ++ "]"
  | compiledConstruct typeName ops slots =>
      "compiled " ++ typeName ++ ": " ++ toString ops ++ " op(s), " ++ toString slots ++ " slot(s)"
  | calling define registry => "calling defn " ++ define ++ " in registry '" ++ registry ++ "'"

end Notice

/-- What a host routine reports. -/
inductive Report where
  /-- An observer, by the name of its subscription, heard of a change. -/
  | change (subscription : String) (c : Change)
  /-- A write changed its attribute, or left it as it was. -/
  | didSet (changed : Bool)
  /-- A change of an attribute is being announced, or is not. -/
  | probe (inFlight : Bool)
  /-- A lifecycle hook ran for an object, in the phase `current`. -/
  | hook (hook : String) (o : Handle) (parent : Option Handle) (current : Phase)
  | values (items : List Value)

inductive Entry where
  | wrote (o : Handle) (attr : String) (v : Value)
  | began (c : Change)
  | called (c : Change) (observer : Nat)
  | ended (c : Change)
  /-- The expression of a binding was evaluated: what came of it, and the attributes that it read
  where the reads are recorded. -/
  | evaluated (binding : Nat) (result : Except EvalError Value) (reads : List (Handle × String))
  /-- A lifecycle callback of an object was made. -/
  | hooked (phase : Phase) (o : Handle) (parent : Option Handle)
  | notice (n : Notice)
  | report (r : Report)

end LiveUI
