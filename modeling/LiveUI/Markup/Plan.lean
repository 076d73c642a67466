import LiveUI.Markup.Builder

/-!
# Building plans

A plan lists the steps that build a tree by hand. The steps are taken in order, a nested tree is
built when its step is reached, and the first step that is refused decides.
-/

namespace LiveUI.Markup

open LiveUI.Source

inductive ConstructStep (π : Type) where
  | argument (code : String)
  | keyword (name code : String)
  | unpack (name : String)
  | capture (name attr : String)
  | child (plan : π)
  | assignment (lhs : String) (op : Operator) (rhs : String)

structure ConstructPlan where
  typeName : String
  steps : List (ConstructStep ConstructPlan)

inductive DefineStep where
  | parameter (name : String)
  | default (name code : String)
  | construct (plan : ConstructPlan)

structure DefinePlan where
  name : String
  /-- Parameters and defaults that are declared at once, before the steps. -/
  parameters : Option (List String × List String) := none
  steps : List DefineStep

namespace ConstructPlan

mutual

def build : ConstructPlan → Except SyntaxError Construct
  | ⟨typeName, steps⟩ => do
      let c ← Construct.new typeName
      takeAll steps c

def takeAll : List (ConstructStep ConstructPlan) → Construct → Except SyntaxError Construct
  | [], c => .ok c
  | step :: steps, c => do
      let c ← take step c
      takeAll steps c

def take : ConstructStep ConstructPlan → Construct → Except SyntaxError Construct
  | .argument code, c => c.addArgument code
  | .keyword name code, c => c.addKeyword name code
  | .unpack name, c => c.addUnpack name
  | .capture name attr, c => c.addCapture name attr
  | .child plan, c => do return c.addChild (← build plan)
  | .assignment lhs op rhs, c => do return c.addAssignment (← Assignment.new lhs op rhs)

end

end ConstructPlan

namespace DefinePlan

def take (d : Define) : DefineStep → Except SyntaxError Define
  | .parameter name => d.addParameter name
  | .default name code => d.addDefault name code
  | .construct plan => do return d.addConstruct (← plan.build)

def build (plan : DefinePlan) : Except SyntaxError Define := do
  let d ← match plan.parameters with
    | some (names, defaults) => Define.withParameters plan.name names defaults
    | none => Define.new plan.name
  plan.steps.foldlM take d

end DefinePlan

end LiveUI.Markup
