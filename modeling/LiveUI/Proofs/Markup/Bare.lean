import LiveUI.Markup.Printer

/-! # Templates without places and exact texts

What a template says, without where it stands and how its expressions are written. Two templates are
the same when bare if they differ in places and exact texts only. -/

namespace LiveUI

def Expression.bare (e : Expression) : Expression :=
  ⟨"", e.expr, {}⟩

namespace Markup

def Assignment.bare (a : Assignment) : Assignment :=
  { a with value := a.value.bare, pos := {} }

def Argument.bare : Argument → Argument
  | positional value => positional value.bare
  | keyword name value => keyword name value.bare

namespace Construct

mutual

def bare : Construct → Construct
  | ⟨typeName, arguments, unpack, captures, body, _⟩ =>
      ⟨typeName, arguments.map (·.bare), unpack, captures, bareBody body, {}⟩

def bareBody : List (BodyItem Construct) → List (BodyItem Construct)
  | [] => []
  | item :: items => bareItem item :: bareBody items

def bareItem : BodyItem Construct → BodyItem Construct
  | .assignment a => .assignment a.bare
  | .child c => .child (bare c)

end

theorem typeName_bare (c : Construct) : c.bare.typeName = c.typeName := by
  cases c
  rw [bare]

theorem positional_bare (c : Construct) : c.bare.positional = c.positional.map (·.bare) := by
  cases c
  simp only [bare, positional, List.filterMap_map, List.map_filterMap]
  congr 1
  funext a
  cases a <;> rfl

theorem keywords_bare (c : Construct) :
    c.bare.keywords = c.keywords.map fun p => (p.1, p.2.bare) := by
  cases c
  simp only [bare, keywords, List.filterMap_map, List.map_filterMap]
  congr 1
  funext a
  cases a <;> rfl

end Construct

def Parameters.bare (p : Parameters) : Parameters :=
  ⟨p.names, p.defaults.map (·.bare)⟩

theorem Parameters.default?_bare (p : Parameters) (i : Nat) :
    p.bare.default? i = (p.default? i).map (·.bare) := by
  simp only [default?, bare, List.length_map]
  split <;> simp

def Define.bare (d : Define) : Define :=
  ⟨d.name, d.parameters.bare, d.body.map (·.bare), {}⟩

end Markup

end LiveUI
