import LiveUI.Value.Basic

/-!
# Changes and lifetimes

What an observer is told, how an observer is named, and the phases of the life of an object.
-/

namespace LiveUI

/-- The life of an object. It is made pending, led through the next three together with its tree,
and destroyed in the end. -/
inductive Phase where
  | pending | created | initialized | bound | destroyed
deriving DecidableEq, Repr, Inhabited

namespace Phase

def name : Phase → String
  | pending => "Pending"
  | created => "Created"
  | initialized => "Initialized"
  | bound => "Bound"
  | destroyed => "Destroyed"

/-- The place of a phase in a life. -/
def rank : Phase → Nat
  | pending => 0
  | created => 1
  | initialized => 2
  | bound => 3
  | destroyed => 4

end Phase

/-- One write of an attribute, as it is announced. -/
structure Change where
  object : Handle
  attr : String
  old : Value
  new : Value
deriving Inhabited

/-- One registered observer of an object. -/
structure Subscription where
  object : Handle
  id : Nat
deriving DecidableEq, Repr, Inhabited

end LiveUI
