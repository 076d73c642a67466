import LiveUI.World.Host

/-!
# Host functions

The functions that a session can put into expressions. They report what they are given, fail, count
their calls, hand back an argument, write attributes or make objects.
-/

namespace LiveUI.Session

inductive HostFunc where
  | record | fail | same | tick | set | emit | new
deriving DecidableEq, Repr, Inhabited

namespace HostFunc

def name : HostFunc → String
  | record => "record"
  | fail => "fail"
  | same => "same"
  | tick => "tick"
  | set => "set"
  | emit => "emit"
  | new => "new"

def all : List HostFunc :=
  [record, fail, same, tick, set, emit, new]

def ofName? (name : String) : Option HostFunc :=
  all.find? (·.name == name)

/-- The answer to arguments that a function does not take. -/
def refuse (f : HostFunc) : Host :=
  .done (.error (.call f.name "bad arguments"))

/-- What a function does at its call number `calls`. -/
def routine (f : HostFunc) (calls : Nat) (args : List Value) : Host :=
  match f, args with
  | record, args => .report (.values args) .skip
  | fail, args =>
      .done (.error (.call f.name ("failed with " ++ toString args.length ++ " argument(s)")))
  | same, v :: _ => .done (.ok v)
  | tick, _ => .done (.ok (.int (Int64.ofNat calls)))
  | set, [.object o, .str attr, v] => .write o attr v fun changed => .done (.ok (.bool changed))
  | emit, [.object o, .str attr, v] => .emit o attr v .skip
  | new, [.str typeName] => .create typeName [] fun o => .done (.ok (.object o))
  | f, _ => f.refuse

end HostFunc

end LiveUI.Session
