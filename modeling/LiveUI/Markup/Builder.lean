import LiveUI.Expr.Grammar
import LiveUI.Markup.Tree

/-!
# Building templates by hand

Trees grow step by step under the rules that the grammar has: names are names, positional arguments
come first, a keyword or a parameter occurs once, defaults belong to the last parameters. A step
that breaks a rule is refused, and its error carries the text at fault. Built nodes have no place.
-/

namespace LiveUI.Markup

open LiveUI.Source

/-- Whether the text is read as the identifier that it is and then as nothing more. -/
def readsAsName (name : String) : Bool :=
  match tokenize name.toList with
  | .error _ => false
  | .ok ls =>
      match ls.map Lexeme.token with
      | .ident id :: rest => id == name && rest.all fun t => t == .newline || t == .eof
      | _ => false

/-- A text that is a name. -/
def checkName (name : String) : Except SyntaxError String :=
  if readsAsName name then .ok name else .error (.inSnippet (.invalidIdentifier name) name)

namespace Construct

def new (typeName : String) : Except SyntaxError Construct := do
  return { typeName := ← checkName typeName }

def addArgument (c : Construct) (code : String) : Except SyntaxError Construct := do
  if c.arguments.any (·.keyword?.isSome) then throw (.inSnippet .positionalAfterKeyword code)
  let value ← Expression.parse code
  return { c with arguments := c.arguments ++ [.positional value] }

def addKeyword (c : Construct) (name code : String) : Except SyntaxError Construct := do
  let name ← checkName name
  if c.arguments.any (·.keyword? == some name) then throw (.inSnippet (.repeatedKeyword name) name)
  let value ← Expression.parse code
  return { c with arguments := c.arguments ++ [.keyword name value] }

def addUnpack (c : Construct) (name : String) : Except SyntaxError Construct := do
  return { c with unpack := c.unpack ++ [← checkName name] }

def addCapture (c : Construct) (name attr : String) : Except SyntaxError Construct := do
  return { c with captures := c.captures ++ [⟨← checkName name, ← checkName attr⟩] }

def addChild (c child : Construct) : Construct :=
  { c with body := c.body ++ [.child child] }

def addAssignment (c : Construct) (a : Assignment) : Construct :=
  { c with body := c.body ++ [.assignment a] }

end Construct

def Assignment.new (lhs : String) (op : Operator) (rhs : String) :
    Except SyntaxError Assignment := do
  let target ← Target.parse lhs
  let value ← Expression.parse rhs
  return { target, op, value }

namespace Define

def new (name : String) : Except SyntaxError Define := do
  return { name := ← checkName name }

/-- A name that no parameter has yet. -/
def checkParameter (d : Define) (name : String) : Except SyntaxError String := do
  let name ← checkName name
  if d.parameters.names.contains name then throw (.inSnippet (.duplicateParameter name) name)
  return name

def addParameter (d : Define) (name : String) : Except SyntaxError Define := do
  let name ← d.checkParameter name
  if !d.parameters.defaults.isEmpty then throw (.inSnippet (.parameterAfterDefault name) name)
  return { d with parameters := { d.parameters with names := d.parameters.names ++ [name] } }

def addDefault (d : Define) (name code : String) : Except SyntaxError Define := do
  let name ← d.checkParameter name
  let value ← Expression.parse code
  return { d with parameters := ⟨d.parameters.names ++ [name], d.parameters.defaults ++ [value]⟩ }

def addConstruct (d : Define) (c : Construct) : Define :=
  { d with body := d.body ++ [c] }

/-- A define with the parameters `names`, of which the last have the given defaults. -/
def withParameters (name : String) (names defaults : List String) : Except SyntaxError Define := do
  if names.length < defaults.length then
    throw (.inSnippet (.surplusDefaults defaults.length names.length) name)
  let plain := names.take (names.length - defaults.length)
  let optional := (names.drop (names.length - defaults.length)).zip defaults
  let d ← plain.foldlM addParameter (← new name)
  optional.foldlM (fun d (name, code) => d.addDefault name code) d

end Define

end LiveUI.Markup
