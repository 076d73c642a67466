import LiveUI.Number.Numeral
import LiveUI.Source.Error

/-!
# Assignment targets

The left-hand side of an assignment has one of three forms: `attr`, `name.attr` and
`name[index].attr`. It is read from its exact text, so blanks inside it are refused.
-/

namespace LiveUI.Markup

open LiveUI.Source

inductive Target where
  /-- An attribute of the enclosing construct. -/
  | own (attr : String)
  /-- An attribute of a named object. -/
  | member (name attr : String)
  /-- An attribute of an element of a named list. -/
  | element (name : String) (index : Int64) (attr : String)
deriving DecidableEq, Repr, Inhabited

namespace Target

/-- The attribute that is written. -/
def attr : Target → String
  | own attr | member _ attr | element _ _ attr => attr

def text : Target → String
  | own attr => attr
  | member name attr => name ++ "." ++ attr
  | element name index attr => name ++ "[" ++ toString index.toInt ++ "]." ++ attr

/-- The identifier at the front of a text and what follows it. -/
def splitWord : List Char → Option (List Char × List Char)
  | [] => none
  | c :: cs =>
      if isWordStart c then some (c :: cs.takeWhile isWordPart, cs.dropWhile isWordPart) else none

/-- A numeral without superfluous zeros, or zero. -/
def isCanonical : List Char → Bool
  | [] => false
  | ['0'] => true
  | c :: cs => c != '0' && (c :: cs).all Char.isDigit

/-- An index: an optional minus before a canonical numeral. -/
def isIndex : List Char → Bool
  | '-' :: ds => isCanonical ds
  | ds => isCanonical ds

/-- The pieces of a left-hand side. An index, which stands in brackets, comes with an attribute. -/
structure Pieces where
  name : String
  index : Option String := none
  attr : Option String := none
deriving DecidableEq, Repr, Inhabited

/-- The pieces of a text that has one of the three forms. -/
def pieces? (lhs : String) : Option Pieces :=
  match splitWord lhs.toList with
  | none => none
  | some (name, []) => some { name := String.ofList name }
  | some (name, '.' :: attr) =>
      if isWord attr then some { name := String.ofList name, attr := some (String.ofList attr) }
      else none
  | some (name, '[' :: rest) =>
      let index := rest.takeWhile (· ≠ ']')
      match rest.dropWhile (· ≠ ']') with
      | ']' :: '.' :: attr =>
          if isIndex index && isWord attr then
            some ⟨String.ofList name, some (String.ofList index), some (String.ofList attr)⟩
          else none
      | _ => none
  | some _ => none

/-- The target that the pieces of `lhs` name. An index has to fit 64 bits. -/
def ofPieces (lhs : String) (p : Pieces) : Except SyntaxError Target :=
  match p.attr, p.index with
  | none, _ => .ok (.own p.name)
  | some attr, none => .ok (.member p.name attr)
  | some attr, some index =>
      match Number.readInt? index with
      | some i => .ok (.element p.name i attr)
      | none => .error (.inSnippet (.indexRange index) lhs)

/-- A left-hand side from its exact text, where `find` takes it to pieces. -/
def parseBy (find : String → Option Pieces) (lhs : String) : Except SyntaxError Target :=
  match find lhs with
  | some p => ofPieces lhs p
  | none => .error (.inSnippet (.invalidTarget lhs) lhs)

/-- A left-hand side from its exact text. -/
def parse (lhs : String) : Except SyntaxError Target :=
  parseBy pieces? lhs

end Target

end LiveUI.Markup
