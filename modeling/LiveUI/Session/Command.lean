import LiveUI.Markup.Plan
import LiveUI.Session.Action

/-!
# Commands

What a session can be told to do. Commands speak of what the session keeps by name: values,
subscriptions, bindings, defines and views.
-/

namespace LiveUI.Session

/-- What the hooks of a component do, phase by phase. -/
structure HookActions where
  create : List Action := []
  prepare : List Action := []
  bind : List Action := []

structure ComponentSpec where
  positional : List String := []
  attrs : List (String × Term) := []
  /-- Instances without hooks are silent; instances with hooks report them. -/
  hooks : Option HookActions := none

inductive FactorySpec where
  /-- Builds nothing. -/
  | empty
  | refusing (message : String)
  /-- Another name for a type. -/
  | alias (typeName : String)
  /-- Builds a number of instances that carry the arguments. -/
  | many (count : Nat) (exports : List (String × Term))

/-- A value of a view: an exported one, the first node of a type, or the node at a path. -/
inductive Selector where
  | exported (name : String)
  | typed (typeName : String)
  | path (positions : List Nat)

/-- What a listing shows. -/
inductive Listed where
  | object (name : String)
  | value (name : String)
  | binding (name : String)
  | view (name : String)
  | subscription (name : String)
  | registry
  | module

inductive Command where
  /- Values and objects. -/
  | name (name : String) (t : Term)
  | object (name typeName : String) (attrs : List (String × Term))
  | forget (name : String)
  | read (o attr : String)
  | has (o attr : String)
  | set (o attr : String) (t : Term)
  | emit (o attr : String) (t : Term)
  | addChild (parent child : String)
  | setPhase (o : String) (phase : Phase)
  | destroy (o : String)
  | describe (o : String)
  | evaluate (code : String)
  | showFrom (level : Level)
  /- Observers. -/
  | observe (subscription o attr : String) (actions : List Action)
  | unobserve (subscription : String)
  | observedBy (subscription : String)
  | countObservers (o attr : String)
  /- Bindings. -/
  | bind (name : String) (op : Markup.Operator) (o attr code : String)
  | binding (name : String)
  | disconnect (name : String)
  /- Templates. -/
  | define (name : String) (t : Term)
  | component (typeName : String) (spec : ComponentSpec)
  | factory (typeName : String) (spec : FactorySpec)
  | contains (typeName : String)
  | compile (source : String)
  | compilePlan (plan : Markup.DefinePlan)
  | register
  | call (view define : String) (args : List Term) (keywords : List (String × Term))
  /-- Build the constructs of the module as views with this name and a number. -/
  | build (view : String)
  /- Views. -/
  | exported (view name : String)
  | pick (name view : String) (selector : Selector) (index : Option Nat)
  | trees (view : String)
  | destroyView (view : String)
  | dropView (view : String)
  | listing (what : Listed)

end LiveUI.Session
