import LiveUI.Markup.Tree

/-!
# Templates as text

The canonical text of a tree: four blanks for each level, one item on a line, expressions as their
exact texts. It is read back as an equal tree.
-/

namespace LiveUI.Markup

def indentation (depth : Nat) : String :=
  String.ofList (List.replicate (4 * depth) ' ')

def commaSeparated (parts : List String) : String :=
  String.intercalate ", " parts

def Assignment.text (a : Assignment) : String :=
  a.target.text ++ " " ++ a.op.symbol ++ " " ++ a.value.source

def Argument.text : Argument → String
  | positional value => value.source
  | keyword name value => name ++ " = " ++ value.source

def Capture.text (c : Capture) : String :=
  c.name ++ " = " ++ c.attr

namespace Construct

/-- The header of a construct, without its block and the colon before it. -/
def header (c : Construct) : String :=
  c.typeName ++
    (if c.arguments.isEmpty then ""
      else "(" ++ commaSeparated (c.arguments.map (·.text)) ++ ")") ++
    (if c.unpack.isEmpty then "" else " -> " ++ commaSeparated c.unpack) ++
    (if c.captures.isEmpty then ""
      else " [" ++ commaSeparated (c.captures.map (·.text)) ++ "]")

mutual

/-- The lines of a construct at a depth of nesting, each with its line feed. -/
def lines (depth : Nat) : Construct → String
  | ⟨typeName, arguments, unpack, captures, body, pos⟩ =>
      let top := indentation depth ++ header ⟨typeName, arguments, unpack, captures, [], pos⟩
      match body with
      | [] => top ++ "\n"
      | items => top ++ ":\n" ++ bodyLines (depth + 1) items

def bodyLines (depth : Nat) : List (BodyItem Construct) → String
  | [] => ""
  | item :: items => itemLines depth item ++ bodyLines depth items

def itemLines (depth : Nat) : BodyItem Construct → String
  | .assignment a => indentation depth ++ a.text ++ "\n"
  | .child c => lines depth c

end

/-- A construct by itself. -/
def text (c : Construct) : String :=
  c.lines 0

end Construct

/-- The parameters of a define as they are declared, each default behind its name. -/
def Parameters.text (p : Parameters) : String :=
  commaSeparated (p.names.mapIdx fun i name =>
    match p.default? i with
    | some value => name ++ " = " ++ value.source
    | none => name)

def Define.text (d : Define) : String :=
  "defn " ++ d.name ++ "(" ++ d.parameters.text ++ "):\n" ++
    (if d.body.isEmpty then indentation 1 ++ "pass\n" else "") ++
    String.join (d.body.map (·.lines 1))

def Item.text : Item → String
  | define d => d.text
  | construct c => c.text

/-- The items of a module with an empty line between them. -/
def Module.text (m : Module) : String :=
  String.intercalate "\n" (m.items.map (·.text))

end LiveUI.Markup
