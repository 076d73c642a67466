import LiveUI.Session.Term

/-!
# Actions

What an observer or a lifecycle hook of a session does, one action after another. Names are looked
up and functions made when an action runs; an action on something that is not there does nothing.
-/

namespace LiveUI.Session

/-- The object of an action: the one that the routine is about, or one that the session keeps. -/
inductive Subject where
  | this
  | named (name : String)
deriving DecidableEq, Repr, Inhabited

def Subject.resolve (s : Subject) (m : Memory) (this : Handle) : Option Handle :=
  match s with
  | .this => some this
  | .named name => (m.value? name).bind Value.asObject?

/-- What an action writes: a value of its own, or one of the two values of the change. -/
inductive Operand where
  | term (t : Term)
  | old
  | new
deriving Inhabited

/-- Ask for what an action writes. Where no change is handled its values are nothing. -/
def Operand.ask (m : Memory) (change : Option Change) : Operand → (Value → Host) → Host
  | term t, next => t.ask m next
  | old, next => next ((change.map (·.old)).getD .nil)
  | new, next => next ((change.map (·.new)).getD .nil)

inductive Action where
  | set (o : Subject) (attr : String) (v : Operand)
  | emit (o : Subject) (attr : String) (v : Operand)
  /-- Write `most` to an attribute of the object when the new value is a larger integer. -/
  | clamp (attr : String) (most : Int64)
  | unobserve (subscription : String)
  | observe (subscription : String) (o : Subject) (attr : String) (actions : List Action)
  | destroy (o : Subject)
  | probe (o : Subject) (attr : String)
deriving Inhabited

/-- Keep a subscription under a name, and drop the one that had it. -/
def keepSubscription (name : String) (s : Subscription) (next : Host) : Host :=
  .recall fun m =>
    .remember (m.keepSubscription name s) <|
      match m.subscription? name with
      | some before => .unobserve before next
      | none => next

/-- Drop the subscription of a name. -/
def dropSubscription (name : String) (next : Host) : Host :=
  .recall fun m =>
    .remember (m.dropSubscription name) <|
      match m.subscription? name with
      | some s => .unobserve s next
      | none => next

/-- Go on with an object, if it is there. -/
def withSubject (s : Subject) (this : Handle) (next : Host) (act : Memory → Handle → Host) :
    Host :=
  .recall fun m =>
    match s.resolve m this with
    | some o => act m o
    | none => next

namespace Action

mutual

/-- One action, then `next`. `this` is the object of the routine and `change` what it was told. -/
def routine (this : Handle) (change : Option Change) (next : Host) : Action → Host
  | set o attr v =>
      withSubject o this next fun m o => v.ask m change fun v =>
        .write o attr v fun changed => .report (.didSet changed) next
  | emit o attr v =>
      withSubject o this next fun m o => v.ask m change fun v => .emit o attr v next
  | clamp attr most =>
      match change.bind (·.new.asInt?) with
      | some n => if most < n then .write this attr (.int most) fun _ => next else next
      | none => next
  | unobserve s => dropSubscription s next
  | observe s o attr actions =>
      withSubject o this next fun _ o =>
        .observe o attr (fun c => .report (.change s c) (routineAll c.object (some c) actions))
          fun subscription => keepSubscription s subscription next
  | destroy o => withSubject o this next fun _ o => .destroy o next
  | probe o attr =>
      withSubject o this next fun _ o => .inFlight o attr fun b => .report (.probe b) next

def routineAll (this : Handle) (change : Option Change) : List Action → Host
  | [] => .skip
  | a :: as => routine this change (routineAll this change as) a

end

/-- The routine of an observer: report the change, then act. -/
def observer (subscription : String) (actions : List Action) (c : Change) : Host :=
  .report (.change subscription c) (routineAll c.object (some c) actions)

end Action

end LiveUI.Session
