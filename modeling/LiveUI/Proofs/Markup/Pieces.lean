import LiveUI.Markup.Grammar
import LiveUI.Markup.Printer
import LiveUI.Proofs.Expr.Written
import LiveUI.Proofs.Markup.Targets

/-! # The pieces of a template

Between a tree and its text stand its pieces: single tokens, and the expressions and targets whose
texts are copied as a whole. The pieces say nothing of blanks and of places. -/

namespace LiveUI.Markup

open LiveUI.Source

/-! ## Templates that can be written -/

def Assignment.Written (a : Assignment) : Prop :=
  a.target.Written ∧ a.value.Written 0

def Argument.Written : Argument → Prop
  | positional value => value.Written 1
  | keyword name value => isName name = true ∧ value.Written 1

/-- An argument that may stand behind others. -/
def Argument.Follows (before : List Argument) : Argument → Prop
  | positional _ => before.any (·.keyword?.isSome) = false
  | keyword name _ => before.any (·.keyword? == some name) = false

/-- Positional arguments come first, and no keyword occurs twice. -/
def Orderly (arguments : List Argument) : Prop :=
  ∀ before a after, arguments = before ++ a :: after → a.Follows before

def Capture.Written (c : Capture) : Prop :=
  isName c.name = true ∧ isName c.attr = true

inductive Construct.Written : Construct → Prop where
  | intro {c : Construct} (hname : isName c.typeName = true)
      (harguments : ∀ a ∈ c.arguments, a.Written) (horderly : Orderly c.arguments)
      (hunpack : ∀ name ∈ c.unpack, isName name = true) (hcaptures : ∀ p ∈ c.captures, p.Written)
      (hassignments : ∀ a, .assignment a ∈ c.body → a.Written)
      (hchildren : ∀ child, .child child ∈ c.body → Written child) : Written c

structure Parameters.Written (p : Parameters) : Prop where
  nodup : p.names.Nodup
  names : ∀ name ∈ p.names, isName name = true
  defaults : ∀ e ∈ p.defaults, e.Written 1
  length : p.defaults.length ≤ p.names.length

structure Define.Written (d : Define) : Prop where
  name : isName d.name = true
  parameters : d.parameters.Written
  body : ∀ c ∈ d.body, c.Written

def Item.Written : Item → Prop
  | define d => d.Written
  | construct c => c.Written

def Module.Written (m : Module) : Prop :=
  ∀ item ∈ m.items, item.Written

/-! ## Pieces -/

inductive Piece where
  | token (t : Token)
  | expression (e : Expression)
  | target (t : Target)

/-- Pieces with commas between them. -/
def commas (pss : List (List Piece)) : List Piece :=
  List.intercalate [.token .comma] pss

theorem commas_cons (p : List Piece) (pss : List (List Piece)) :
    commas (p :: pss) = p ++ if pss.isEmpty then [] else .token .comma :: commas pss := by
  cases pss with
  | nil => simp [commas]
  | cons q pss => simp [commas, List.intercalate_cons_cons]

def namePiece (name : String) : List Piece :=
  [.token (.ident name)]

def Operator.token : Operator → Token
  | default => .equal
  | delegate => .colonEqual
  | bind => .lessLess
  | notify => .greaterGreater

def Assignment.pieces (a : Assignment) : List Piece :=
  [.target a.target, .token a.op.token, .expression a.value, .token .newline]

def Argument.pieces : Argument → List Piece
  | positional value => [.expression value]
  | keyword name value => [.token (.ident name), .token .equal, .expression value]

def Capture.pieces (c : Capture) : List Piece :=
  [.token (.ident c.name), .token .equal, .token (.ident c.attr)]

namespace Construct

def argumentPieces (arguments : List Argument) : List Piece :=
  if arguments.isEmpty then []
  else .token .leftParen :: (commas (arguments.map (·.pieces)) ++ [.token .rightParen])

def unpackPieces (unpack : List String) : List Piece :=
  if unpack.isEmpty then [] else .token .arrow :: commas (unpack.map namePiece)

def capturePieces (captures : List Capture) : List Piece :=
  if captures.isEmpty then []
  else .token .leftBracket :: (commas (captures.map (·.pieces)) ++ [.token .rightBracket])

def headerPieces (c : Construct) : List Piece :=
  .token (.ident c.typeName) :: (argumentPieces c.arguments ++ (unpackPieces c.unpack ++
    capturePieces c.captures))

mutual

def pieces : Construct → List Piece
  | ⟨typeName, arguments, unpack, captures, body, pos⟩ =>
      headerPieces ⟨typeName, arguments, unpack, captures, [], pos⟩ ++
        match body with
        | [] => [.token .newline]
        | items => .token .colon :: .token .newline :: .token .indent ::
            (bodyPieces items ++ [.token .dedent])

def bodyPieces : List (BodyItem Construct) → List Piece
  | [] => []
  | item :: items => itemPieces item ++ bodyPieces items

def itemPieces : BodyItem Construct → List Piece
  | .assignment a => a.pieces
  | .child c => pieces c

end

/-- The pieces behind a header. -/
def blockPieces (body : List (BodyItem Construct)) : List Piece :=
  if body.isEmpty then [.token .newline]
  else .token .colon :: .token .newline :: .token .indent :: (bodyPieces body ++ [.token .dedent])

theorem pieces_eq (c : Construct) : c.pieces = c.headerPieces ++ blockPieces c.body := by
  obtain ⟨typeName, arguments, unpack, captures, body, pos⟩ := c
  cases body <;> rfl

end Construct

/-- A parameter with its default. -/
def entryPieces (entry : String × Option Expression) : List Piece :=
  match entry with
  | (name, none) => [.token (.ident name)]
  | (name, some value) => [.token (.ident name), .token .equal, .expression value]

/-- The parameters, each with its default. -/
def Parameters.entries (p : Parameters) : List (String × Option Expression) :=
  p.names.mapIdx fun i name => (name, p.default? i)

def Define.bodyPieces (body : List Construct) : List Piece :=
  (if body.isEmpty then [.token .pass, .token .newline] else []) ++ body.flatMap (·.pieces)

def Define.pieces (d : Define) : List Piece :=
  .token .define :: .token (.ident d.name) :: .token .leftParen ::
    (commas (d.parameters.entries.map entryPieces) ++
      .token .rightParen :: .token .colon :: .token .newline :: .token .indent ::
        (bodyPieces d.body ++ [.token .dedent]))

def Item.pieces : Item → List Piece
  | define d => d.pieces
  | construct c => c.pieces

def Module.pieces (m : Module) : List Piece :=
  m.items.flatMap (·.pieces) ++ [.token .eof]

/-! ## Tokens that lay pieces -/

/-- Tokens of a text that are the pieces one after another. -/
inductive Lays (source : List Char) : List Lexeme → List Piece → Prop where
  | nil : Lays source [] []
  | token {l : Lexeme} {ls : List Lexeme} {ps : List Piece} (h : Lays source ls ps) :
      Lays source (l :: ls) (.token l.token :: ps)
  | expression {e : Expression} {used ls : List Lexeme} {ps : List Piece}
      (hspans : Spans source used e.source.toList)
      (hderives : Expr.Derives (.tree .conditional e.expr) (used.map (·.token)))
      (h : Lays source ls ps) : Lays source (used ++ ls) (.expression e :: ps)
  | target {t : Target} {used ls : List Lexeme} {ps : List Piece}
      (hspans : Spans source used t.text.toList) (htokens : used.map (·.token) = t.tokens)
      (hwritten : t.Written) (h : Lays source ls ps) : Lays source (used ++ ls) (.target t :: ps)

namespace Lays

variable {source : List Char} {ls ls' : List Lexeme} {ps ps' : List Piece}

theorem append (h : Lays source ls ps) (h' : Lays source ls' ps') :
    Lays source (ls ++ ls') (ps ++ ps') := by
  induction h with
  | nil => exact h'
  | token _ ih => exact .token ih
  | expression hspans hderives _ ih =>
      rw [List.append_assoc]
      exact .expression hspans hderives ih
  | target hspans htokens hwritten _ ih =>
      rw [List.append_assoc]
      exact .target hspans htokens hwritten ih

theorem split (h : Lays source ls (ps ++ ps')) :
    ∃ ls₁ ls₂, ls = ls₁ ++ ls₂ ∧ Lays source ls₁ ps ∧ Lays source ls₂ ps' := by
  induction ps generalizing ls with
  | nil => exact ⟨[], ls, rfl, .nil, h⟩
  | cons p ps ih =>
      cases h with
      | token h =>
          obtain ⟨ls₁, ls₂, rfl, h₁, h₂⟩ := ih h
          exact ⟨_ :: ls₁, ls₂, rfl, .token h₁, h₂⟩
      | expression hspans hderives h =>
          obtain ⟨ls₁, ls₂, rfl, h₁, h₂⟩ := ih h
          exact ⟨_ ++ ls₁, ls₂, (List.append_assoc _ _ _).symm, .expression hspans hderives h₁, h₂⟩
      | target hspans htokens hwritten h =>
          obtain ⟨ls₁, ls₂, rfl, h₁, h₂⟩ := ih h
          exact ⟨_ ++ ls₁, ls₂, (List.append_assoc _ _ _).symm,
            .target hspans htokens hwritten h₁, h₂⟩

theorem of_token {k : Token} (h : Lays source ls (.token k :: ps)) :
    ∃ l ls', ls = l :: ls' ∧ l.token = k ∧ Lays source ls' ps := by
  cases h with
  | token h => exact ⟨_, _, rfl, rfl, h⟩

theorem of_expression {e : Expression} (h : Lays source ls (.expression e :: ps)) :
    ∃ used ls', ls = used ++ ls' ∧ Spans source used e.source.toList ∧
      Expr.Derives (.tree .conditional e.expr) (used.map (·.token)) ∧ Lays source ls' ps := by
  cases h with
  | expression hspans hderives h => exact ⟨_, _, rfl, hspans, hderives, h⟩

theorem of_target {t : Target} (h : Lays source ls (.target t :: ps)) :
    ∃ used ls', ls = used ++ ls' ∧ Spans source used t.text.toList ∧
      used.map (·.token) = t.tokens ∧ t.Written ∧ Lays source ls' ps := by
  cases h with
  | target hspans htokens hwritten h => exact ⟨_, _, rfl, hspans, htokens, hwritten, h⟩

/-- Each piece takes one token at least. -/
theorem length_le (h : Lays source ls ps) : ps.length ≤ ls.length := by
  induction h with
  | nil => exact Nat.le_refl _
  | token _ ih => simpa using ih
  | expression hspans _ _ ih =>
      have := List.length_pos_iff.2 hspans.ne_nil
      simp only [List.length_cons, List.length_append]
      omega
  | target hspans _ _ _ ih =>
      have := List.length_pos_iff.2 hspans.ne_nil
      simp only [List.length_cons, List.length_append]
      omega

end Lays

end LiveUI.Markup
