import LiveUI.Number.Numeral
import LiveUI.Source.Error

/-!
# From text to tokens

A text is read from left to right, the longest operator, word or numeral first. The blanks that open
a logical line become `indent` and `dedent` tokens; line feeds between brackets, blank lines and
comments leave nothing.
-/

namespace LiveUI.Source

/-- The text that is still to be read, and where it starts. -/
structure Cursor where
  rest : List Char
  offset : Nat
  pos : Position
deriving Repr, Inhabited

namespace Cursor

def ofList (cs : List Char) : Cursor :=
  ⟨cs, 0, ⟨1, 1⟩⟩

/-- The position after one more character. -/
def advance (pos : Position) (c : Char) : Position :=
  if c = '\n' then ⟨pos.line + 1, 1⟩ else ⟨pos.line, pos.col + 1⟩

def skip : Nat → Cursor → Cursor
  | 0, cur => cur
  | n + 1, cur =>
      match cur.rest with
      | [] => cur
      | c :: cs => skip n ⟨cs, cur.offset + c.utf8Size, advance cur.pos c⟩

@[simp] theorem rest_skip (n : Nat) (cur : Cursor) : (cur.skip n).rest = cur.rest.drop n := by
  induction n generalizing cur with
  | zero => simp [skip]
  | succ n ih =>
      obtain ⟨rest, offset, pos⟩ := cur
      cases rest with
      | nil => simp [skip]
      | cons c cs => simp [skip, ih]

/-- A token over the next `n` characters. -/
def lexeme (cur : Cursor) (n : Nat) (token : Token) : Lexeme :=
  ⟨token, cur.pos, cur.offset, (cur.skip n).offset⟩

end Cursor

/-! ## Single tokens -/

/-- One token, and how many characters follow its first one; or a fault, and how many characters
come before its place. -/
inductive Munch where
  | token (t : Token) (more : Nat)
  | fault (cause : Malformed) (before : Nat)

def doubleSymbol : Char → Char → Option Token
  | ':', '=' => some .colonEqual
  | '=', '=' => some .equalEqual
  | '<', '<' => some .lessLess
  | '<', '=' => some .lessEqual
  | '>', '>' => some .greaterGreater
  | '>', '=' => some .greaterEqual
  | '!', '=' => some .notEqual
  | '-', '>' => some .arrow
  | '/', '/' => some .slashSlash
  | _, _ => none

def singleSymbol : Char → Option Token
  | ':' => some .colon
  | '=' => some .equal
  | '<' => some .less
  | '>' => some .greater
  | '-' => some .minus
  | '+' => some .plus
  | '*' => some .star
  | '/' => some .slash
  | '%' => some .percent
  | ',' => some .comma
  | '.' => some .dot
  | '(' => some .leftParen
  | ')' => some .rightParen
  | '[' => some .leftBracket
  | ']' => some .rightBracket
  | _ => none

/-- The operator or punctuation mark that starts with `c`, the longer one first. -/
def symbol? (c : Char) : List Char → Option (Token × Nat)
  | [] => (singleSymbol c).map (·, 0)
  | d :: _ =>
      match doubleSymbol c d with
      | some t => some (t, 1)
      | none => (singleSymbol c).map (·, 0)

/-- What stands for the character after a backslash. An unknown escape keeps its backslash. -/
def unescape (c : Char) : List Char :=
  if c = 'n' then ['\n']
  else if c = 't' then ['\t']
  else if c = '\\' ∨ c = Text.singleMark ∨ c = Text.doubleMark then [c]
  else ['\\', c]

/-- The contents of a string up to its closing mark and the characters they take, the mark
included; or a fault and the characters before it. -/
def stringBody (mark : Char) : List Char → Except (Malformed × Nat) (List Char × Nat)
  | [] => .error (.unterminatedString, 0)
  | c :: cs =>
      if c = '\n' then .error (.unterminatedString, 1)
      else if c = mark then .ok ([], 1)
      else if c = '\\' then
        match cs with
        | [] => .error (.unterminatedEscape, 1)
        | e :: rest =>
            match stringBody mark rest with
            | .ok (content, n) => .ok (unescape e ++ content, n + 2)
            | .error (cause, n) => .error (cause, n + 2)
      else
        match stringBody mark cs with
        | .ok (content, n) => .ok (c :: content, n + 1)
        | .error (cause, n) => .error (cause, n + 1)

def munchString (mark : Char) (cs : List Char) : Munch :=
  match stringBody mark cs with
  | .ok (content, n) => .token (.str (String.ofList content)) n
  | .error (cause, n) => .fault cause (n + 1)

/-- The part of a numeral after its first digit, or after the point. -/
def isNumeralPart (c : Char) : Bool :=
  c.isDigit || c == '_'

/-- A numeral from its first digit on. A point belongs to it only before a digit, so that
an index can be followed by an attribute. -/
def munchNumeral (c : Char) (cs : List Char) : Munch :=
  let whole := c :: cs.takeWhile isNumeralPart
  let digits := whole.filter (· ≠ '_')
  let integer : Munch :=
    match Number.int64? (Number.digitsValue digits) with
    | some n => .token (.int n) (whole.length - 1)
    | none => .fault (.integerRange (String.ofList digits)) whole.length
  match cs.dropWhile isNumeralPart with
  | '.' :: d :: rest =>
      if d.isDigit then
        let fraction := d :: rest.takeWhile isNumeralPart
        let decimals := fraction.filter (· ≠ '_')
        .token (.float (Number.decimalFloat false (Number.digitsValue (digits ++ decimals))
          (-(decimals.length : Int)))) (whole.length + fraction.length)
      else integer
  | _ => integer

def munchWord (c : Char) (cs : List Char) : Munch :=
  let more := cs.takeWhile isWordPart
  .token (Token.ofWord (String.ofList (c :: more))) more.length

/-- The token that starts with `c`. -/
def munch (c : Char) (cs : List Char) : Munch :=
  match symbol? c cs with
  | some (t, n) => .token t n
  | none =>
      if c = Text.doubleMark ∨ c = Text.singleMark then munchString c cs
      else if c.isDigit then munchNumeral c cs
      else if isWordStart c then munchWord c cs
      else .fault (.unexpectedCharacter c) 0

/-! ## Layout -/

/-- How many characters of blanks, comments and joined lines come before the next token. -/
def gap : List Char → Nat
  | [] => 0
  | '\\' :: '\n' :: cs => gap cs + 2
  | '#' :: cs => (cs.takeWhile (· ≠ '\n')).length + 1
  | c :: cs => if c = ' ' ∨ c = '\t' ∨ c = '\r' then gap cs + 1 else 0

/-- The blanks that open a line. -/
def margin (cs : List Char) : List Char :=
  cs.takeWhile fun c => c == ' ' || c == '\t' || c == '\r'

/-- The width of a margin: a tab goes to the next multiple of eight, a carriage return is nothing.
-/
def width (cs : List Char) : Nat :=
  cs.foldl (fun w c => if c = ' ' then w + 1 else if c = '\t' then (w / 8 + 1) * 8 else w) 0

/-- Close the blocks that are wider than a line, innermost first: how many, and the ones left. -/
def closeBlocks (w : Nat) : List Nat → Nat × List Nat
  | [] => (0, [])
  | b :: bs =>
      if w < b then
        let (n, left) := closeBlocks w bs
        (n + 1, left)
      else (0, b :: bs)

/-- The layout tokens before a line of width `w`, and the blocks that are open after them. -/
def align (blocks : List Nat) (w : Nat) (cur : Cursor) :
    Except SyntaxError (List Lexeme × List Nat) :=
  if blocks.headD 0 < w then .ok ([cur.lexeme 0 .indent], w :: blocks)
  else
    let (n, left) := closeBlocks w blocks
    if left.headD 0 = w then .ok (List.replicate n (cur.lexeme 0 .dedent), left)
    else .error ⟨.unindent, cur.pos, none⟩

/-- The bracket depth after a token; none where a bracket closes that was not opened. -/
def depthAfter (depth : Nat) : Token → Option Nat
  | .leftParen | .leftBracket => some (depth + 1)
  | .rightParen | .rightBracket => if depth = 0 then none else some (depth - 1)
  | _ => some depth

/-! ## Whole texts -/

/-- What is left when a text ends: its last place and the blocks still open. -/
structure Ending where
  cur : Cursor
  blocks : List Nat

/-- The tokens of a text, from a place at bracket depth `depth` with the blocks `blocks` open.
`fresh` says that a logical line starts here. -/
def scan (depth : Nat) (blocks : List Nat) (fresh : Bool) (cur : Cursor) :
    Except SyntaxError (List Lexeme × Ending) :=
  if fresh then
    let blank := margin cur.rest
    let start := cur.skip blank.length
    match _hs : start.rest with
    | [] => .ok ([], ⟨start, blocks⟩)
    | c :: cs =>
        if c = '\n' then scan depth blocks true (start.skip 1)
        else if c = '#' then
          scan depth blocks true (start.skip ((cs.takeWhile (· ≠ '\n')).length + 2))
        else do
          let (marks, blocks) ← align blocks (width blank) start
          let (ls, ending) ← scan depth blocks false start
          return (marks ++ ls, ending)
  else
    let start := cur.skip (gap cur.rest)
    match _hs : start.rest with
    | [] => .ok ([], ⟨start, blocks⟩)
    | c :: cs =>
        if c = '\n' then
          if depth = 0 then do
            let (ls, ending) ← scan depth blocks true (start.skip 1)
            return (start.lexeme 1 .newline :: ls, ending)
          else scan depth blocks false (start.skip 1)
        else
          match munch c cs with
          | .fault cause n => .error ⟨cause, (start.skip n).pos, none⟩
          | .token t n =>
              match depthAfter depth t with
              | none => .error ⟨.unmatchedBracket c, start.pos, none⟩
              | some depth => do
                  let (ls, ending) ← scan depth blocks false (start.skip (n + 1))
                  return (start.lexeme (n + 1) t :: ls, ending)
termination_by (cur.rest.length, if fresh then 1 else 0)
decreasing_by
  all_goals
    have hl := congrArg List.length _hs
    simp [start] at hl
    simp_wf
    simp [*]
    omega

/-- The last line is ended and every open block closed. -/
def Ending.lexemes (ending : Ending) (last : Option Token) : List Lexeme :=
  let here (t : Token) : Lexeme := ending.cur.lexeme 0 t
  (match last with
    | none | some .newline => []
    | some _ => [here .newline]) ++
  List.replicate ending.blocks.length (here .dedent) ++ [here .eof]

/-- The tokens of a text. -/
def tokenize (source : List Char) : Except SyntaxError (List Lexeme) := do
  let (ls, ending) ← scan 0 [] true (Cursor.ofList source)
  return ls ++ ending.lexemes (ls.getLast?.map (·.token))

end LiveUI.Source
