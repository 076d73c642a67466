import LiveUI.Value.Error
import LiveUI.World.Journal

/-!
# Host routines

What the surrounding program does when it is called: as an observer, as a function in an expression
or as a lifecycle hook. A routine is a tree of requests. Each request names what is asked of the
world and how the routine goes on with the answer; the last one is the result.
-/

namespace LiveUI

/-- What the host keeps for itself: values and subscriptions under names. -/
structure Memory where
  names : List (String × Value) := []
  subscriptions : List (String × Subscription) := []
deriving Inhabited

namespace Memory

/-- The value named last. -/
def value? (m : Memory) (name : String) : Option Value :=
  (m.names.reverse.find? (·.1 == name)).map (·.2)

def bindName (m : Memory) (name : String) (v : Value) : Memory :=
  { m with names := m.names ++ [(name, v)] }

/-- Every value of a name becomes nothing. -/
def forget (m : Memory) (name : String) : Memory :=
  { m with names := m.names.map fun (n, v) => (n, if n == name then .nil else v) }

def subscription? (m : Memory) (name : String) : Option Subscription :=
  (m.subscriptions.find? (·.1 == name)).map (·.2)

def dropSubscription (m : Memory) (name : String) : Memory :=
  { m with subscriptions := m.subscriptions.filter (·.1 != name) }

def keepSubscription (m : Memory) (name : String) (s : Subscription) : Memory :=
  { m with subscriptions := (m.dropSubscription name).subscriptions ++ [(name, s)] }

end Memory

inductive Host where
  | done (result : Except EvalError Value)
  | read (o : Handle) (attr : String) (next : Option Value → Host)
  /-- Write an attribute; the answer says whether it changed. -/
  | write (o : Handle) (attr : String) (v : Value) (next : Bool → Host)
  /-- Write an attribute and announce it in any case. -/
  | emit (o : Handle) (attr : String) (v : Value) (next : Host)
  | observe (o : Handle) (attr : String) (callback : Change → Host) (next : Subscription → Host)
  | unobserve (s : Subscription) (next : Host)
  | inFlight (o : Handle) (attr : String) (next : Bool → Host)
  | phase (o : Handle) (next : Phase → Host)
  | create (typeName : String) (attrs : List (String × Value)) (next : Handle → Host)
  /-- Make a function that is told how often it has been called. -/
  | function (name : String) (body : Nat → List Value → Host) (next : Func → Host)
  /-- Make a function value for a builtin. -/
  | builtin (b : Builtin) (next : Func → Host)
  | destroy (o : Handle) (next : Host)
  | disconnect (binding : Nat) (next : Host)
  | report (r : Report) (next : Host)
  | recall (next : Memory → Host)
  | remember (m : Memory) (next : Host)

instance : Inhabited Host := ⟨.done (.ok .nil)⟩

/-- A routine without effect and result. -/
def Host.skip : Host :=
  .done (.ok .nil)

end LiveUI
