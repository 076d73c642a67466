import LiveUI.Number.Notation
import LiveUI.Value.Basic

/-!
# The text of a value

`text` is what a value reads as; `repr` also tells a string from other values, and is the form of
the elements of a list.
-/

namespace LiveUI.Value

/-- A backslash before each `mark`. -/
def escaped (mark : Char) (cs : List Char) : List Char :=
  cs.flatMap fun c => if c = mark then ['\\', c] else [c]

/-- A string between quotation marks. First the backslashes in it are escaped, then the marks. -/
def quoteStr (s : String) : String :=
  String.ofList ('\x27' :: escaped '\x27' (escaped '\\' s.toList) ++ ['\x27'])

mutual

def repr : Value → String
  | str s => quoteStr s
  | nil => "None"
  | bool b => if b then "True" else "False"
  | int n => toString n.toInt
  | float x => Number.plain x
  | list items => "[" ++ reprList items ++ "]"
  | object o => "<" ++ o.typeName ++ " #" ++ toString o.id ++ ">"
  | func f => "<function " ++ f.name ++ ">"

/-- The elements of a list with a comma between them. -/
def reprList : List Value → String
  | [] => ""
  | [v] => repr v
  | v :: vs => repr v ++ ", " ++ reprList vs

end

/-- A string is its own text. -/
def text : Value → String
  | str s => s
  | v => repr v

end LiveUI.Value
