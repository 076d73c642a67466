import LiveUI.Expr.Basic
import LiveUI.Source.Stream
import LiveUI.Text.Blank

/-!
# The grammar of expressions

    conditional := disjunction ['if' disjunction 'else' conditional]
    disjunction := conjunction ('or' conjunction)*
    conjunction := negation ('and' negation)*
    negation    := 'not'* comparison
    comparison  := sum [('==' | '!=' | '<' | '<=' | '>' | '>=' | 'in' | 'not' 'in') sum]
    sum         := term (('+' | '-') term)*
    term        := factor (('*' | '/' | '//' | '%') factor)*
    factor      := ('-' | '+')* operand
    operand     := atom ('.' NAME | '[' conditional ']' | '(' items ')')*
    atom        := INT | FLOAT | STRING+ | 'True' | 'False' | 'None' | NAME
                 | '(' conditional ')' | '[' items ']'
    items       := [conditional (',' conditional)* [',']]

Each level is a reader over the reader `inner` for what stands between brackets. Operators of one
level group to the left and comparisons do not chain. Strings side by side are one string, a minus
before a literal belongs to it and a plus is dropped.
-/

namespace LiveUI.Expr

open LiveUI.Source LiveUI.Source.Reader

/-- The text of the string literals at the front, joined. -/
def joinedStrings : Nat → Reader String
  | 0 => return ""
  | n + 1 => do
      match ← peek with
      | .str s => do
          let _ ← next
          return s ++ (← joinedStrings n)
      | _ => return ""

/-- Expressions separated by commas up to `close`. -/
def listUntil (inner : Reader Expr) (close : Token) : Nat → Reader (List Expr)
  | 0 => failHere (.expectedListEnd close .eof)
  | n + 1 => do
      if (← peek) == close then
        let _ ← next
        return []
      let item ← inner
      match ← next with
      | .comma => return item :: (← listUntil inner close n)
      | t => if t == close then return [item] else failBehind (.expectedListEnd close t)

def atom (inner : Reader Expr) : Reader Expr := do
  match ← next with
  | .int v => return .int v
  | .float v => return .float v
  | .str s => return .str (s ++ (← joinedStrings (← remaining)))
  | .trueWord => return .bool true
  | .falseWord => return .bool false
  | .noneWord => return .nil
  | .ident n => return .name n
  | .leftParen => do
      let e ← inner
      exactly .rightParen
      return e
  | .leftBracket => return .list (← listUntil inner .rightBracket ((← remaining) + 1))
  | t => failBehind (.expectedExpression t)

/-- Attributes, indices and calls after an operand. -/
def trailers (inner : Reader Expr) : Nat → Expr → Reader Expr
  | 0, e => return e
  | n + 1, e => do
      match ← peek with
      | .dot => do
          let _ ← next
          trailers inner n (.attr e (← identifier))
      | .leftBracket => do
          let _ ← next
          let i ← inner
          exactly .rightBracket
          trailers inner n (.index e i)
      | .leftParen => do
          let _ ← next
          trailers inner n (.call e (← listUntil inner .rightParen ((← remaining) + 1)))
      | _ => return e

def operand (inner : Reader Expr) : Reader Expr := do
  let e ← atom inner
  trailers inner (← remaining) e

/-- A minus before an operand; a literal takes it in. -/
def negated : Expr → Expr
  | int v => .int (-v)
  | float v => .float (-v)
  | e => .unary .neg e

/-- The signs at the front; true stands for a minus. -/
def signs : Nat → Reader (List Bool)
  | 0 => return []
  | n + 1 => do
      match ← peek with
      | .minus => do
          let _ ← next
          return true :: (← signs n)
      | .plus => do
          let _ ← next
          return false :: (← signs n)
      | _ => return []

def factor (inner : Reader Expr) : Reader Expr := do
  let marks ← signs (← remaining)
  let e ← operand inner
  return marks.foldr (fun minus e => if minus then negated e else e) e

/-- Operands of the next level joined from the left by the operators of this one. -/
def chain (operand : Reader Expr) (op? : Token → Option (Expr → Expr → Expr)) :
    Nat → Expr → Reader Expr
  | 0, left => return left
  | n + 1, left => do
      match op? (← peek) with
      | none => return left
      | some join => do
          let _ ← next
          chain operand op? n (join left (← operand))

def chained (operand : Reader Expr) (op? : Token → Option (Expr → Expr → Expr)) :
    Reader Expr := do
  let first ← operand
  chain operand op? (← remaining) first

def termOp? : Token → Option (Expr → Expr → Expr)
  | .star => some (.binary .mul)
  | .slash => some (.binary .div)
  | .slashSlash => some (.binary .floorDiv)
  | .percent => some (.binary .mod)
  | _ => none

def sumOp? : Token → Option (Expr → Expr → Expr)
  | .plus => some (.binary .add)
  | .minus => some (.binary .sub)
  | _ => none

def andOp? : Token → Option (Expr → Expr → Expr)
  | .andWord => some (.boolOp .and)
  | _ => none

def orOp? : Token → Option (Expr → Expr → Expr)
  | .orWord => some (.boolOp .or)
  | _ => none

def term (inner : Reader Expr) : Reader Expr :=
  chained (factor inner) termOp?

def sum (inner : Reader Expr) : Reader Expr :=
  chained (term inner) sumOp?

/-- The comparison at the front of a stream and the number of its tokens. -/
def comparison? (s : Stream) : Option (BinaryOp × Nat) :=
  match s.peek, s.peekSecond with
  | .equalEqual, _ => some (.eq, 1)
  | .notEqual, _ => some (.ne, 1)
  | .less, _ => some (.lt, 1)
  | .lessEqual, _ => some (.le, 1)
  | .greater, _ => some (.gt, 1)
  | .greaterEqual, _ => some (.ge, 1)
  | .inWord, _ => some (.isIn, 1)
  | .notWord, .inWord => some (.notIn, 2)
  | _, _ => none

def comparison (inner : Reader Expr) : Reader Expr := do
  let left ← sum inner
  match comparison? (← get) with
  | none => return left
  | some (op, width) => do
      let _ ← next
      if width = 2 then
        let _ ← next
      let right ← sum inner
      if (comparison? (← get)).isSome then failHere .chainedComparison
      else return .binary op left right

/-- How many times the word `not` stands at the front. -/
def negations : Nat → Reader Nat
  | 0 => return 0
  | n + 1 => do
      match ← peek with
      | .notWord => do
          let _ ← next
          return (← negations n) + 1
      | _ => return 0

def negation (inner : Reader Expr) : Reader Expr := do
  let n ← negations (← remaining)
  let e ← comparison inner
  return Nat.repeat (.unary .not) n e

def conjunction (inner : Reader Expr) : Reader Expr :=
  chained (negation inner) andOp?

def disjunction (inner : Reader Expr) : Reader Expr :=
  chained (conjunction inner) orOp?

/-- A whole expression with brackets and conditionals nested less than `depth` deep. -/
def conditional : (depth : Nat) → Reader Expr
  | 0 => do failHere (.expectedExpression (← peek))
  | depth + 1 => do
      let body ← disjunction (conditional depth)
      match ← peek with
      | .ifWord => do
          let _ ← next
          let condition ← disjunction (conditional depth)
          exactly .elseWord
          return .ifElse body condition (← conditional depth)
      | _ => return body

end LiveUI.Expr

namespace LiveUI.Expression

open LiveUI.Source LiveUI.Source.Reader

/-- One expression with its exact text. Each level of nesting takes a token, so the tokens that are
left bound the depth. -/
def read : Reader Expression := do
  let s ← get
  let expr ← Expr.conditional (s.count + 1)
  return ⟨(← get).textSince s.start, expr, s.here⟩

/-- Nothing but the line ends that close a snippet. -/
def snippetEnd : Nat → Reader Unit
  | 0 => return ()
  | n + 1 => do
      match ← peek with
      | .newline => do
          let _ ← next
          snippetEnd n
      | .eof => return ()
      | t => failHere (.afterExpression t)

/-- One expression and nothing behind it. -/
def snippet : Reader Expression := do
  let e ← read
  snippetEnd (← remaining)
  return e

/-- A snippet of text as an expression. Blanks at its ends are no part of it, and its errors carry
it. -/
def parse (code : String) : Except SyntaxError Expression :=
  let code := Text.trimList code.toList
  let result : Except SyntaxError Expression := do
    let lexemes ← tokenize code
    return (← snippet.run (.ofLexemes code lexemes)).1
  result.mapError (·.withSnippet (String.ofList code))

end LiveUI.Expression
