import LiveUI.Source.Token

/-!
# Syntax errors

Why a text, a snippet or a tree built by hand is refused, and where. The first error ends the
reading.
-/

namespace LiveUI.Source

inductive Malformed where
  -- tokens
  | unindent
  | unmatchedBracket (bracket : Char)
  | unexpectedCharacter (c : Char)
  | unterminatedString
  | unterminatedEscape
  | integerRange (numeral : String)
  -- expressions
  | expectedExpression (got : Token)
  | expectedListEnd (close got : Token)
  | chainedComparison
  | afterExpression (got : Token)
  -- trees
  | expectedIdentifier (got : Token)
  | expectedToken (expected got : Token)
  | expectedArgumentEnd (close : Char) (got : Token)
  | expectedLineEnd (got : Token)
  | expectedItem (got : Token)
  | expectedConstruct (got : Token)
  | expectedBlock
  | expectedBodyItem (got : Token)
  | expectedOperator (got : Token)
  | unexpectedIndent
  | duplicateParameter (name : String)
  | parameterAfterDefault (name : String)
  | repeatedKeyword (name : String)
  | positionalAfterKeyword
  -- names and targets
  | invalidTarget (text : String)
  | indexRange (numeral : String)
  | invalidIdentifier (text : String)
  | surplusDefaults (defaults parameters : Nat)
deriving Repr, Inhabited

def Malformed.message : Malformed → String
  | unindent => "unindent does not match any outer indentation level"
  | unmatchedBracket c => "unmatched " ++ Text.quotedChar c
  | unexpectedCharacter c => "unexpected character " ++ Text.quotedChar c
  | unterminatedString => "unterminated string literal"
  | unterminatedEscape => "unterminated escape sequence"
  | integerRange numeral => "integer literal " ++ Text.quoted numeral ++ " out of range"
  | expectedExpression got => "expected an expression, got " ++ got.text
  | expectedListEnd close got => "expected ',' or " ++ close.text ++ ", got " ++ got.text
  | chainedComparison =>
      "chained comparisons are not supported; write `a < b and b < c`"
  | afterExpression got => "unexpected " ++ got.text ++ " after expression"
  | expectedIdentifier got => "expected identifier, got " ++ got.text
  | expectedToken expected got => "expected " ++ expected.text ++ ", got " ++ got.text
  | expectedArgumentEnd close got =>
      "expected ',' or " ++ Text.quotedChar close ++ ", got " ++ got.text
  | expectedLineEnd got => "expected end of line, got " ++ got.text
  | expectedItem got => "expected `defn` or a widget type at top level, got " ++ got.text
  | expectedConstruct got => "expected a widget type in defn body, got " ++ got.text
  | expectedBlock => "expected an indented block"
  | expectedBodyItem got =>
      "unexpected " ++ got.text ++ " in block; expected an assignment or a widget type"
  | expectedOperator got => "expected a binding operator, got " ++ got.text
  | unexpectedIndent => "unexpected indent"
  | duplicateParameter name => "duplicate parameter " ++ Text.quoted name
  | parameterAfterDefault name =>
      "parameter " ++ Text.quoted name ++ " without a default follows a default"
  | repeatedKeyword name => "keyword argument " ++ Text.quoted name ++ " repeated"
  | positionalAfterKeyword => "positional argument follows keyword argument"
  | invalidTarget text => "invalid assignment left-hand side " ++ Text.quoted text
  | indexRange numeral => "index " ++ numeral ++ " out of range"
  | invalidIdentifier text => Text.quoted text ++ " is not a valid identifier"
  | surplusDefaults defaults parameters =>
      toString defaults ++ " defaults given for " ++ toString parameters ++ " parameters"

/-- A cause and its place. An error from a standalone piece of text carries the piece. -/
structure SyntaxError where
  cause : Malformed
  pos : Position
  snippet : Option String := none
deriving Repr, Inhabited

def SyntaxError.withSnippet (e : SyntaxError) (snippet : String) : SyntaxError :=
  { e with snippet := some snippet }

def SyntaxError.message (e : SyntaxError) : String :=
  "loom syntax error at " ++ e.pos.text ++ ": " ++ e.cause.message ++
    match e.snippet with
    | some snippet => " in " ++ Text.quoted snippet
    | none => ""

/-- An error in a piece of text as such, placed at its start. -/
def SyntaxError.inSnippet (cause : Malformed) (snippet : String) : SyntaxError :=
  ⟨cause, ⟨1, 1⟩, some snippet⟩

end LiveUI.Source
