import LiveUI.Source.Lexing

/-!
# Reading a token sequence

A stream is the tokens that are still to be taken and the one taken last. Every token sequence ends
with `eof`; behind its end a stream shows `eof` for ever. Readers stop at their first error.
-/

namespace LiveUI.Source

structure Stream where
  source : List Char
  last : Option Lexeme
  rest : List Lexeme
  /-- The number of tokens still to be taken. -/
  count : Nat
  count_eq : count = rest.length

abbrev Reader := StateT Stream (Except SyntaxError)

namespace Stream

/-- The tokens of a text, before any is taken. -/
def ofLexemes (source : List Char) (ls : List Lexeme) : Stream :=
  ⟨source, none, ls, ls.length, rfl⟩

/-- The token at the front, or `eof` behind the end. -/
def peek (s : Stream) : Token :=
  match s.rest with
  | [] => .eof
  | l :: _ => l.token

/-- The token after the front. -/
def peekSecond (s : Stream) : Token :=
  match s.rest with
  | _ :: l :: _ => l.token
  | _ => .eof

/-- Without its front token. -/
def tail (s : Stream) : Stream :=
  match h : s.rest with
  | [] => s
  | l :: ls => ⟨s.source, some l, ls, s.count - 1, by simp [s.count_eq, h]⟩

@[simp] theorem rest_tail (s : Stream) : s.tail.rest = s.rest.tail := by
  unfold tail
  split <;> simp_all

/-- The place of the front token, behind the end that of the last one. -/
def here (s : Stream) : Position :=
  match s.rest, s.last with
  | l :: _, _ => l.pos
  | [], some l => l.pos
  | [], none => ⟨1, 1⟩

/-- The place of the token taken last. -/
def behind (s : Stream) : Position :=
  match s.last with
  | some l => l.pos
  | none => s.here

/-- Where the front token starts, in bytes. -/
def start (s : Stream) : Nat :=
  match s.rest with
  | [] => s.source.foldl (fun n c => n + c.utf8Size) 0
  | l :: _ => l.start

/-- Where the token taken last stops, in bytes. -/
def stop (s : Stream) : Nat :=
  match s.last with
  | some l => l.stop
  | none => 0

/-- The text from a byte offset up to the end of the token taken last. -/
def textSince (s : Stream) (start : Nat) : String :=
  String.ofList (slice s.source start s.stop)

end Stream

namespace Reader

def peek : Reader Token :=
  return (← get).peek

/-- Take the front token. -/
def next : Reader Token := do
  let s ← get
  set s.tail
  return s.peek

/-- Fail at the front token. -/
def failHere {α : Type} (cause : Malformed) : Reader α := do
  throw ⟨cause, (← get).here, none⟩

/-- Fail at the token taken last. -/
def failBehind {α : Type} (cause : Malformed) : Reader α := do
  throw ⟨cause, (← get).behind, none⟩

def identifier : Reader String := do
  match ← next with
  | .ident name => return name
  | t => failBehind (.expectedIdentifier t)

/-- Take the front token, which has to be `expected`. -/
def exactly (expected : Token) : Reader Unit := do
  let t ← next
  if t == expected then return () else failBehind (.expectedToken expected t)

/-- The end of a logical line, or of the text. -/
def lineEnd : Reader Unit := do
  match ← peek with
  | .newline => let _ ← next
  | .eof => return ()
  | t => failHere (.expectedLineEnd t)

/-- The number of tokens still to be taken: a bound for every loop that takes one in each turn. -/
def remaining : Reader Nat :=
  return (← get).count

end Reader

end LiveUI.Source
