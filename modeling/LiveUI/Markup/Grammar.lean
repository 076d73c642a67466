import LiveUI.Expr.Grammar
import LiveUI.Markup.Tree

/-!
# The grammar of templates

    module     := (define | construct)*
    define     := 'defn' NAME '(' parameters ')' ':' NEWLINE
                  INDENT (construct | 'pass' NEWLINE)* DEDENT
    construct  := NAME ['(' arguments ')'] ['->' NAME (',' NAME)*] ['[' captures ']']
                  (block | line end)
    block      := ':' NEWLINE INDENT (assignment | construct | 'pass' NEWLINE)* DEDENT
    assignment := target ('=' | ':=' | '<<' | '>>') expression line end

An item of a block is an assignment exactly when a binding operator stands on its line outside all
brackets and before the first colon.
-/

namespace LiveUI.Markup

open LiveUI.Source LiveUI.Source.Reader

/-! ## Lists between brackets -/

/-- The end of an element of a list that `close` ends; true after a comma. -/
def elementEnd (close : Token) (bracket : Char) : Reader Bool := do
  match ← next with
  | .comma => return true
  | t => if t == close then return false else failBehind (.expectedArgumentEnd bracket t)

def readParameters : Nat → Parameters → Reader Parameters
  | 0, ps => return ps
  | n + 1, ps => do
      if (← peek) == .rightParen then
        let _ ← next
        return ps
      let name ← identifier
      if ps.names.contains name then failBehind (.duplicateParameter name)
      let default? ← (do
        if (← peek) == .equal then
          let _ ← next
          return [← Expression.read]
        else if ps.defaults.isEmpty then return []
        else failBehind (.parameterAfterDefault name))
      let ps : Parameters := ⟨ps.names ++ [name], ps.defaults ++ default?⟩
      if ← elementEnd .rightParen ')' then readParameters n ps else return ps

/-- An identifier and an equals sign come next. -/
def atKeyword : Reader Bool := do
  let s ← get
  match s.peek, s.peekSecond with
  | .ident _, .equal => return true
  | _, _ => return false

def readArgument (before : List Argument) : Reader Argument := do
  if ← atKeyword then
    let name ← identifier
    let _ ← next
    let value ← Expression.read
    if before.any (·.keyword? == some name) then failBehind (.repeatedKeyword name)
    return .keyword name value
  else
    if before.any (·.keyword?.isSome) then failHere .positionalAfterKeyword
    return .positional (← Expression.read)

def readArguments : Nat → List Argument → Reader (List Argument)
  | 0, before => return before
  | n + 1, before => do
      if (← peek) == .rightParen then
        let _ ← next
        return before
      let args := before ++ [← readArgument before]
      if ← elementEnd .rightParen ')' then readArguments n args else return args

def readCaptures : Nat → Reader (List Capture)
  | 0 => return []
  | n + 1 => do
      if (← peek) == .rightBracket then
        let _ ← next
        return []
      let name ← identifier
      exactly .equal
      let attr ← identifier
      if ← elementEnd .rightBracket ']' then return ⟨name, attr⟩ :: (← readCaptures n)
      else return [⟨name, attr⟩]

/-! ## Assignments -/

/-- Whether the tokens up to the end of a line have a binding operator outside all brackets, before
any colon there. -/
def hasBinding (depth : Nat) : List Lexeme → Bool
  | [] => false
  | l :: ls =>
      match l.token with
      | .leftParen | .leftBracket => hasBinding (depth + 1) ls
      | .rightParen | .rightBracket => hasBinding (depth - 1) ls
      | .newline | .eof => false
      | .colon => if depth = 0 then false else hasBinding depth ls
      | t => if depth = 0 ∧ t.isBinding then true else hasBinding depth ls

/-- Take the tokens before the next binding operator, at any depth. -/
def skipToBinding : Nat → Reader Unit
  | 0 => return ()
  | n + 1 => do
      let t ← peek
      if t.isBinding || t == .eof then return ()
      let _ ← next
      skipToBinding n

/-- The target is read from the exact text before the operator. -/
def readTarget : Reader Target := do
  let s ← get
  skipToBinding s.count
  match Target.parse ((← get).textSince s.start) with
  | .ok target => return target
  | .error e => throw { e with pos := s.here }

def readOperator : Reader Operator := do
  match ← next with
  | .equal => return .default
  | .colonEqual => return .delegate
  | .lessLess => return .bind
  | .greaterGreater => return .notify
  | t => failBehind (.expectedOperator t)

def readAssignment : Reader Assignment := do
  let pos := (← get).here
  let target ← readTarget
  let op ← readOperator
  let value ← Expression.read
  lineEnd
  return ⟨target, op, value, pos⟩

/-! ## Constructs and defines -/

def moreNames : Nat → Reader (List String)
  | 0 => return []
  | n + 1 => do
      match ← peek with
      | .comma => do
          let _ ← next
          let name ← identifier
          return name :: (← moreNames n)
      | _ => return []

/-- The items of a block, up to the `dedent` that ends it. -/
def readItems (construct : Reader Construct) : Nat → Reader (List (BodyItem Construct))
  | 0 => return []
  | n + 1 => do
      let s ← get
      match s.peek with
      | .dedent => do
          let _ ← next
          return []
      | .eof => return []
      | .pass => do
          let _ ← next
          lineEnd
          readItems construct n
      | .ident _ => do
          let item ← if hasBinding 0 s.rest then .assignment <$> readAssignment
            else .child <$> construct
          return item :: (← readItems construct n)
      | .indent => failHere .unexpectedIndent
      | t => failHere (.expectedBodyItem t)

def readBlock (construct : Reader Construct) : Reader (List (BodyItem Construct)) := do
  exactly .newline
  match ← peek with
  | .indent => do
      let _ ← next
      readItems construct ((← remaining) + 1)
  | _ => failHere .expectedBlock

/-- The header of a construct, then its block, whose constructs `inner` reads. -/
def readConstructWith (inner : Reader Construct) : Reader Construct := do
  let pos := (← get).here
  let typeName ← identifier
  let arguments ← (do
    match ← peek with
    | .leftParen => do
        let _ ← next
        readArguments ((← remaining) + 1) []
    | _ => return [])
  let unpack ← (do
    match ← peek with
    | .arrow => do
        let _ ← next
        let name ← identifier
        return name :: (← moreNames (← remaining))
    | _ => return [])
  let captures ← (do
    match ← peek with
    | .leftBracket => do
        let _ ← next
        readCaptures ((← remaining) + 1)
    | _ => return [])
  let body ← (do
    match ← peek with
    | .colon => do
        let _ ← next
        readBlock inner
    | _ => do
        lineEnd
        return [])
  return ⟨typeName, arguments, unpack, captures, body, pos⟩

/-- A construct whose blocks are nested less than `depth` deep. -/
def readConstructTo : (depth : Nat) → Reader Construct
  | 0 => do failHere (.expectedIdentifier (← peek))
  | depth + 1 => readConstructWith (readConstructTo depth)

/-- A construct. Each block takes a token more than its contents, so the tokens bound the depth. -/
def readConstruct : Reader Construct := do
  readConstructTo ((← remaining) + 1)

/-- The constructs of the body of a define, up to the `dedent` that ends it. -/
def readBody : Nat → Reader (List Construct)
  | 0 => return []
  | n + 1 => do
      match ← peek with
      | .dedent => do
          let _ ← next
          return []
      | .eof => return []
      | .pass => do
          let _ ← next
          lineEnd
          readBody n
      | .ident _ => do
          let c ← readConstruct
          return c :: (← readBody n)
      | t => failHere (.expectedConstruct t)

def readDefine : Reader Define := do
  let pos := (← get).here
  let _ ← next
  let name ← identifier
  exactly .leftParen
  let parameters ← readParameters ((← remaining) + 1) {}
  exactly .colon
  exactly .newline
  exactly .indent
  let body ← readBody ((← remaining) + 1)
  return ⟨name, parameters, body, pos⟩

def readModule : Nat → Reader (List Item)
  | 0 => return []
  | n + 1 => do
      match ← peek with
      | .eof => return []
      | .newline => do
          let _ ← next
          readModule n
      | .define => do
          let d ← readDefine
          return .define d :: (← readModule n)
      | .ident _ => do
          let c ← readConstruct
          return .construct c :: (← readModule n)
      | .indent => failHere .unexpectedIndent
      | t => failHere (.expectedItem t)

/-- All the items of a text. -/
def readAll : Reader (List Item) := do
  readModule ((← remaining) + 1)

/-- A whole source text. -/
def Module.parse (source : String) : Except SyntaxError Module := do
  let cs := source.toList
  let lexemes ← tokenize cs
  return ⟨(← readAll.run (.ofLexemes cs lexemes)).1⟩

end LiveUI.Markup
