import LiveUI.Proofs.Expr.Derivation
import LiveUI.Proofs.Number.Signs

/-! # Trees written out

A tree is written with parentheses around an operand whose level is looser than its place needs, and
around nothing else. Every tree that some tokens are derived for is derived for the tokens that it
is written with. -/

namespace LiveUI

/-- The level that the left operand of an operator needs. -/
def BinaryOp.left (op : BinaryOp) : Expr.Level :=
  if op.level = .comparison then .sum else op.level

namespace Expr

open LiveUI.Source

/-- The tightest level of a tree that is written without parentheses. -/
def level : Expr → Level
  | int v => if v < 0 then .factor else .atom
  | float v => if Number.isNegative v then .factor else .atom
  | str _ | bool _ | nil | list _ | name _ => .atom
  | attr .. | index .. | call .. => .operand
  | unary .neg _ => .factor
  | unary .not _ => .negation
  | binary op .. => op.level
  | boolOp op .. => op.level
  | ifElse .. => .conditional

/-- Tokens of a tree of level `l` where one of level `place` has to stand. -/
def enclosed (place l : Level) (ts : List Token) : List Token :=
  if l.rank < place.rank then .leftParen :: (ts ++ [.rightParen]) else ts

mutual

/-- A tree as tokens. A negative number is written with a minus. -/
def tokens : Expr → List Token
  | int v => if v < 0 then [.minus, .int (-v)] else [.int v]
  | float v => if Number.isNegative v then [.minus, .float (-v)] else [.float v]
  | str s => [.str s]
  | bool b => [if b then .trueWord else .falseWord]
  | nil => [.noneWord]
  | name n => [.ident n]
  | list es => .leftBracket :: (tokensList es ++ [.rightBracket])
  | attr e n => enclosed .operand e.level e.tokens ++ [.dot, .ident n]
  | index e i =>
      enclosed .operand e.level e.tokens ++ .leftBracket :: (i.tokens ++ [.rightBracket])
  | call e es =>
      enclosed .operand e.level e.tokens ++ .leftParen :: (tokensList es ++ [.rightParen])
  | unary .neg e => .minus :: enclosed .factor e.level e.tokens
  | unary .not e => .notWord :: enclosed .negation e.level e.tokens
  | binary op a b =>
      enclosed op.left a.level a.tokens ++ (op.tokens ++ enclosed op.level.tighter b.level b.tokens)
  | boolOp op a b =>
      enclosed op.level a.level a.tokens ++
        op.token :: enclosed op.level.tighter b.level b.tokens
  | ifElse a b c =>
      enclosed .disjunction a.level a.tokens ++
        .ifWord :: (enclosed .disjunction b.level b.tokens ++ .elseWord :: c.tokens)

/-- The items of a list, with commas between them. -/
def tokensList : List Expr → List Token
  | [] => []
  | [e] => e.tokens
  | e :: es => e.tokens ++ .comma :: tokensList es

end

/-! ## What is written can be derived -/

namespace Derives

variable {e : Expr} {l : Level} {ts : List Token}

theorem enclosed (place : Level) (h : Derives (.tree l e) ts) :
    Derives (.tree place e) (Expr.enclosed place l ts) := by
  rw [Expr.enclosed]
  split
  next => exact h.parenthesized
  next hl => exact h.loose (Nat.le_of_not_lt hl)

theorem tokens_int (v : Int64) : Derives (.tree (Expr.int v).level (.int v)) (Expr.int v).tokens := by
  rw [level, tokens]
  split
  next =>
    have hminus := Derives.minus ((Derives.int (-v)).loose (l := .factor) (by decide))
    rwa [negated, Int64.neg_neg] at hminus
  next => exact .int v

theorem tokens_float (v : Float) :
    Derives (.tree (Expr.float v).level (.float v)) (Expr.float v).tokens := by
  rw [level, tokens]
  split
  next =>
    have hminus := Derives.minus ((Derives.float (-v)).loose (l := .factor) (by decide))
    rwa [negated, Number.neg_neg] at hminus
  next => exact .float v

theorem tokens_negated (h : Derives (.tree e.level e) e.tokens) :
    Derives (.tree (negated e).level (negated e)) (negated e).tokens := by
  have hminus := (h.enclosed .factor).minus
  cases e with
  | int v => exact tokens_int (-v)
  | float v => exact tokens_float (-v)
  | _ => exact hminus

theorem tokens_arithmetic {op : BinaryOp} {a b : Expr} (hop : op.level ≠ .comparison)
    (ha : Derives (.tree a.level a) a.tokens) (hb : Derives (.tree b.level b) b.tokens) :
    Derives (.tree op.level (.binary op a b)) (Expr.binary op a b).tokens := by
  rw [tokens, BinaryOp.left, if_neg hop]
  exact .arithmetic hop (ha.enclosed _) (hb.enclosed _)

theorem tokens_comparison {op : BinaryOp} {a b : Expr} (hop : op.level = .comparison)
    (ha : Derives (.tree a.level a) a.tokens) (hb : Derives (.tree b.level b) b.tokens) :
    Derives (.tree op.level (.binary op a b)) (Expr.binary op a b).tokens := by
  rw [tokens, BinaryOp.left, if_pos hop, hop]
  exact .comparison hop (ha.enclosed _) (hb.enclosed _)

/-- Adding an item in front. -/
theorem tokensList_cons {es : List Expr} (h : Derives (.tree e.level e) e.tokens)
    (hes : Derives (.items es) (tokensList es)) :
    Derives (.items (e :: es)) (tokensList (e :: es)) := by
  have he := h.loose (l := .conditional) (Nat.zero_le _)
  cases es with
  | nil => exact .lastItem he
  | cons e' es => exact .item he hes

end Derives

/-- A phrase that is derived for the tokens that it is written with. -/
def Phrase.Written : Phrase → Prop
  | .tree _ e => Derives (.tree e.level e) e.tokens
  | .items es => Derives (.items es) (tokensList es)

/-- Whatever is derived for some tokens is derived for those that it is written with. -/
theorem Derives.written {p : Phrase} {ts : List Token} (h : Derives p ts) : p.Written := by
  induction h with
  | int v => exact Derives.tokens_int v
  | float v => exact Derives.tokens_float v
  | str s ss =>
      have hone := Derives.str (String.join (s :: ss)) []
      rwa [String.join_cons, String.join_nil, String.append_empty] at hone
  | bool b => exact .bool b
  | nil => exact .nil
  | name n => exact .name n
  | parentheses _ ih => exact ih
  | list _ ih => exact .list ih
  | attr n _ ih => exact .attr n (ih.enclosed _)
  | index _ _ ih ihi => exact .index (ih.enclosed _) (ihi.loose (Nat.zero_le _))
  | call _ _ ih ihas => exact .call (ih.enclosed _) ihas
  | plus _ ih => exact ih
  | minus _ ih => exact Derives.tokens_negated ih
  | arithmetic hop _ _ iha ihb => exact Derives.tokens_arithmetic hop iha ihb
  | comparison hop _ _ iha ihb => exact Derives.tokens_comparison hop iha ihb
  | not _ ih => exact .not (ih.enclosed _)
  | boolOp _ _ iha ihb => exact .boolOp (iha.enclosed _) (ihb.enclosed _)
  | ifElse _ _ _ iha ihb ihc =>
      exact .ifElse (iha.enclosed _) (ihb.enclosed _) (ihc.loose (Nat.zero_le _))
  | loosen _ ih => exact ih
  | noItem => exact .noItem
  | lastItem _ ih => exact .lastItem (ih.loose (Nat.zero_le _))
  | item _ _ ih ihrest => exact Derives.tokensList_cons ih ihrest

end Expr

end LiveUI
