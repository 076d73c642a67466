import LiveUI.Template.View

/-!
# Listings

Records as text: the name of the type, then each field by its name. A value is listed under the name
of its form, and an object with the names of its attributes.
-/

namespace LiveUI.Session.Listing

open LiveUI.Template

def commas (items : List String) : String :=
  String.intercalate ", " items

/-- A type name with named fields between braces. -/
def record (typeName : String) (fields : List (String × String)) : String :=
  typeName ++ " \x7b " ++ commas (fields.map fun (name, s) => name ++ ": " ++ s) ++ " \x7d"

/-- A name with one unnamed field. -/
def tagged (name item : String) : String :=
  name ++ "(" ++ item ++ ")"

def brackets (items : List String) : String :=
  "[" ++ commas items ++ "]"

def strings (items : List String) : String :=
  brackets (items.map Text.quoted)

def object (w : World) (o : Handle) : String :=
  record "Object"
    [("id", tagged "ObjectId" (toString o.id)),
      ("type_name", Text.quoted o.typeName),
      ("attrs", strings ((((w.object? o).map (·.attrs)).getD []).map (·.1))),
      ("phase", (w.phase o).name)]

mutual

def value (w : World) : Value → String
  | .nil => "None"
  | .bool b => tagged "Bool" (toString b)
  | .int n => tagged "Int" (toString n.toInt)
  | .float x => tagged "Float" (Number.source x)
  | .str s => tagged "Str" (Text.quoted s)
  | .list items => tagged "List" (brackets (values w items))
  | .object o => tagged "Object" (object w o)
  | .func f => tagged "Func" ("<function " ++ f.name ++ ">")

def values (w : World) : List Value → List String
  | [] => []
  | v :: vs => value w v :: values w vs

end

def binding (b : Binding) : String :=
  record "Binding"
    [("kind", b.kind.name), ("label", Text.quoted b.label),
      ("dependencies", toString b.sources.length)]

def subscription : Option Subscription → String
  | some s => tagged "Some" (record "Subscription" [("id", toString s.id)])
  | none => "None"

/-- The types of a registry in alphabetical order. -/
def registry (r : Registry) : String :=
  record "Registry"
    [("name", Text.quoted r.name),
      ("types", strings ((r.factories.map (·.1)).mergeSort fun a b => decide (a ≤ b)))]

def define (d : CompiledDefine) : String :=
  record "CompiledDefine"
    [("name", Text.quoted d.name), ("params", strings (d.params.map (·.1)))]

def defines (m : CompiledModule) : String :=
  brackets (m.defines.map define)

mutual

def node (w : World) : Instance → String
  | ⟨o, _, children⟩ =>
      record "Instance" [("object", object w o), ("children", brackets (nodes w children))]

def nodes (w : World) : List Instance → List String
  | [] => []
  | i :: is => node w i :: nodes w is

end

def view (w : World) (v : View) : String :=
  record "View"
    [("roots", brackets (nodes w v.roots)),
      ("exports", brackets (v.exports.map fun (name, x) =>
        "(" ++ commas [Text.quoted name, value w x] ++ ")"))]

end LiveUI.Session.Listing
