import LiveUI.Number.Notation
import LiveUI.Text.Quoted

/-!
# Tokens

The words of the template language, with the place of each in its text.
-/

namespace LiveUI.Source

/-- A line and a column. In a text both count from one; a tree that no text was read for has zeros.
-/
structure Position where
  line : Nat := 0
  col : Nat := 0
deriving DecidableEq, Repr, Inhabited

def Position.text (p : Position) : String :=
  toString p.line ++ ":" ++ toString p.col

inductive Token where
  | ident (name : String)
  | int (value : Int64)
  | float (value : Float)
  | str (value : String)
  -- reserved words
  | define | pass | ifWord | elseWord | andWord | orWord | notWord | inWord
  | trueWord | falseWord | noneWord
  -- binding operators
  | equal | colonEqual | lessLess | greaterGreater
  -- expression operators
  | equalEqual | notEqual | less | lessEqual | greater | greaterEqual
  | plus | minus | star | slash | slashSlash | percent
  -- punctuation
  | colon | comma | dot | arrow | leftParen | rightParen | leftBracket | rightBracket
  -- layout
  | newline | indent | dedent | eof
deriving BEq, Repr, Inhabited

namespace Token

/-- The name of the kind of a token, as messages give it. -/
def kind : Token → String
  | ident _ => "Ident" | int _ => "Int" | float _ => "Float" | str _ => "Str"
  | define => "Defn" | pass => "Pass" | ifWord => "If" | elseWord => "Else"
  | andWord => "And" | orWord => "Or" | notWord => "Not" | inWord => "In"
  | trueWord => "True" | falseWord => "False" | noneWord => "None"
  | equal => "Equal" | colonEqual => "ColonEqual"
  | lessLess => "LessLess" | greaterGreater => "GreaterGreater"
  | equalEqual => "EqEq" | notEqual => "NotEq" | less => "Less" | lessEqual => "LessEq"
  | greater => "Greater" | greaterEqual => "GreaterEq"
  | plus => "Plus" | minus => "Minus" | star => "Star" | slash => "Slash"
  | slashSlash => "SlashSlash" | percent => "Percent"
  | colon => "Colon" | comma => "Comma" | dot => "Dot" | arrow => "Arrow"
  | leftParen => "LParen" | rightParen => "RParen"
  | leftBracket => "LBracket" | rightBracket => "RBracket"
  | newline => "Newline" | indent => "Indent" | dedent => "Dedent" | eof => "Eof"

/-- A token as messages show it: its kind, and what it carries in parentheses. -/
def text (t : Token) : String :=
  let carried (s : String) : String := t.kind ++ "(" ++ s ++ ")"
  match t with
  | ident name => carried (Text.quoted name)
  | int value => carried (toString value.toInt)
  | float value => carried (Number.source value)
  | str value => carried (Text.quoted value)
  | _ => t.kind

/-- The four operators that bind a target to a value. -/
def isBinding : Token → Bool
  | equal | colonEqual | lessLess | greaterGreater => true
  | _ => false

/-- The token of a word: one of the eleven reserved words, or else an identifier. -/
def ofWord (word : String) : Token :=
  match word with
  | "defn" => define
  | "pass" => pass
  | "if" => ifWord
  | "else" => elseWord
  | "and" => andWord
  | "or" => orWord
  | "not" => notWord
  | "in" => inWord
  | "True" => trueWord
  | "False" => falseWord
  | "None" => noneWord
  | name => ident name

end Token

/-- A token with its place: the position of its first character, and its span in bytes. -/
structure Lexeme where
  token : Token
  pos : Position
  start : Nat
  stop : Nat
deriving Repr, Inhabited

/-! ## Words -/

def isWordStart (c : Char) : Bool :=
  c.isAlpha || c == '_'

def isWordPart (c : Char) : Bool :=
  c.isAlphanum || c == '_'

/-- The identifier pattern: a letter or an underscore, then letters, digits and underscores. -/
def isWord : List Char → Bool
  | [] => false
  | c :: cs => isWordStart c && cs.all isWordPart

/-- A name that can be written in a text: it fits the identifier pattern and is not reserved. -/
def isName (s : String) : Bool :=
  isWord s.toList && Token.ofWord s == .ident s

/-! ## Slices -/

def dropBytes (n : Nat) : List Char → List Char
  | [] => []
  | c :: cs => if n = 0 then c :: cs else dropBytes (n - c.utf8Size) cs

def takeBytes (n : Nat) : List Char → List Char
  | [] => []
  | c :: cs => if n = 0 then [] else c :: takeBytes (n - c.utf8Size) cs

/-- The characters between two byte offsets that lie on character boundaries. -/
def slice (source : List Char) (start stop : Nat) : List Char :=
  takeBytes (stop - start) (dropBytes start source)

end LiveUI.Source
