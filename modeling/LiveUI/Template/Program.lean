import LiveUI.Code.Basic
import LiveUI.Markup.Tree
import LiveUI.Template.Error

/-!
# Programs

A compiled template is a flat sequence of operations over the slots of a frame. Every construct
opens with a `build` and ends with a `close`; what stands between them belongs to it.
-/

namespace LiveUI.Template

/-- What an assignment writes to: an attribute of the value of `base`, or of one of its elements. -/
structure TargetCode where
  base : Code
  index : Option Int64 := none
  attr : String

/-- The arguments of a construct and the slots for what it builds. -/
structure Build where
  typeName : String
  args : List Code
  keywords : List (String × Code)
  selfSlot : Nat
  unpack : List Nat
  captures : List (Nat × String)
  place : Location

inductive Op where
  | build (b : Build)
  | assign (target : TargetCode) (op : Markup.Operator) (value : Code) (place : Location)
  | close

structure Program where
  ops : List Op := []
  /-- The number of slots of a frame. -/
  slots : Nat := 0
  /-- The names that are visible after a run, with their slots. -/
  exports : List (String × Nat) := []
deriving Inhabited

/-- A define after compilation. Its defaults have their values. -/
structure CompiledDefine where
  name : String
  params : List (String × Option Value)
  program : Program
deriving Inhabited

/-- A construct that stands by itself, after compilation. -/
structure CompiledConstruct where
  program : Program
deriving Inhabited

structure CompiledModule where
  defines : List CompiledDefine := []
  constructs : List CompiledConstruct := []
deriving Inhabited

/-- The first define of a name. -/
def CompiledModule.define? (m : CompiledModule) (name : String) : Option CompiledDefine :=
  m.defines.find? (·.name == name)

end LiveUI.Template
