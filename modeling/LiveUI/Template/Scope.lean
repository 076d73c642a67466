import LiveUI.Code.Basic
import LiveUI.Template.Error

/-!
# Scopes

The names that a template has introduced so far, each with the slot that it owns, and what a name
means at a point of the template: the slot of its latest introduction, or else `self` for the
enclosing construct, or else `args` for the change that a `>>` handles, or else the latest global of
that name, or else a builtin.
-/

namespace LiveUI.Template

/-- Names that stand for constants in every template, a later one before an earlier one. -/
abbrev Globals := List (String × Value)

/-- What compilation has given out so far. -/
structure Scope where
  /-- The names that are visible, the latest first. -/
  locals : List (String × Nat) := []
  slots : Nat := 0
  /-- The names that are visible from outside, each with its latest slot. -/
  exports : List (String × Nat) := []
  /-- The number of functions that have been made. -/
  functions : Nat := 0
deriving Inhabited

namespace Scope

/-- A slot without a name. -/
def alloc (s : Scope) : Nat × Scope :=
  (s.slots, { s with slots := s.slots + 1 })

def bindLocal (s : Scope) (name : String) : Nat × Scope :=
  (s.slots, { s with locals := (name, s.slots) :: s.locals, slots := s.slots + 1 })

/-- A name with its slot, in the place of an earlier slot of that name. -/
def putExport : List (String × Nat) → String → Nat → List (String × Nat)
  | [], name, slot => [(name, slot)]
  | (n, old) :: rest, name, slot =>
      if n = name then (n, slot) :: rest else (n, old) :: putExport rest name slot

/-- A local name that is visible from outside as well. -/
def bindExport (s : Scope) (name : String) : Nat × Scope :=
  let (slot, s) := s.bindLocal name
  (slot, { s with exports := putExport s.exports name slot })

end Scope

/-- A name that no scope gives a meaning: a global or a builtin. -/
def constantNamed (globals : Globals) (name : String) : Lowering Code :=
  match globals.reverse.find? (·.1 == name) with
  | some (_, v) => return .const v
  | none => Code.builtinNamed name

/-- The meaning of a name. `self` is the slot of the enclosing construct, and `notify` says that a
change is being handled. -/
def resolve (globals : Globals) (locals : List (String × Nat)) (self : Option Nat) (notify : Bool)
    (name : String) : Lowering Code :=
  match locals.find? (·.1 == name) with
  | some (_, slot) => return .slot slot
  | none =>
      match name, self with
      | "self", some slot => return .slot slot
      | "args", _ => if notify then return .change else constantNamed globals name
      | _, _ => constantNamed globals name

end LiveUI.Template
