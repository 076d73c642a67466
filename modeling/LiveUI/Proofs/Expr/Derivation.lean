import LiveUI.Expr.Grammar
import LiveUI.Proofs.Source.Scanning

/-! # The grammar of expressions as derivations

Which tokens can be derived for which tree, level by level. A phrase of one level is also one of
every looser level. Operators that group to the left have their own level on the left and the next
tighter one on the right. -/

namespace LiveUI

open Source

namespace Expr

/-- The levels of the grammar, the loosest first. -/
inductive Level where
  | conditional | disjunction | conjunction | negation | comparison | sum | term | factor
  | operand | atom
deriving DecidableEq, Repr

namespace Level

def rank : Level → Nat
  | conditional => 0 | disjunction => 1 | conjunction => 2 | negation => 3 | comparison => 4
  | sum => 5 | term => 6 | factor => 7 | operand => 8 | atom => 9

/-- The next tighter level. -/
def tighter : Level → Level
  | conditional => disjunction
  | disjunction => conjunction
  | conjunction => negation
  | negation => comparison
  | comparison => sum
  | sum => term
  | term => factor
  | factor => operand
  | operand => atom
  | atom => atom

theorem rank_tighter {l : Level} (h : l ≠ atom) : l.tighter.rank = l.rank + 1 := by
  cases l <;> first | rfl | exact absurd rfl h

theorem rank_le_tighter (l : Level) : l.rank ≤ l.tighter.rank := by
  cases l <;> decide

theorem rank_le_atom (l : Level) : l.rank ≤ atom.rank := by
  cases l <;> decide

theorem eq_of_rank_eq {l l' : Level} (h : l.rank = l'.rank) : l = l' := by
  cases l <;> cases l' <;> first | rfl | cases h

end Level

end Expr

/-- The tokens that can stand in an expression. -/
def Source.Token.isInner : Token → Bool
  | .define | .pass | .equal | .colonEqual | .lessLess | .greaterGreater | .colon | .arrow
  | .newline | .indent | .dedent | .eof => false
  | _ => true

/-- The tokens that go on with no expression. -/
def Source.Token.isClosing : Token → Bool
  | .comma | .rightParen | .newline | .eof => true
  | _ => false

/-- The tokens that a phrase of a level can start with. -/
def Source.Token.opens (l : Expr.Level) : Token → Bool
  | .int _ | .float _ | .str _ | .trueWord | .falseWord | .noneWord | .ident _ | .leftParen
  | .leftBracket => true
  | .minus | .plus => l.rank ≤ Expr.Level.rank .factor
  | .notWord => l.rank ≤ Expr.Level.rank .negation
  | _ => false

theorem Source.Token.opens_loose {l l' : Expr.Level} {k : Token} (hl : l.rank ≤ l'.rank)
    (h : k.opens l' = true) : k.opens l = true := by
  cases k <;> simp only [opens, decide_eq_true_eq] at h ⊢ <;> first | trivial | omega

/-! ## Operators -/

namespace BoolOp

def level : BoolOp → Expr.Level
  | or => .disjunction
  | and => .conjunction

def token : BoolOp → Token
  | or => .orWord
  | and => .andWord

end BoolOp

namespace BinaryOp

def level : BinaryOp → Expr.Level
  | add | sub => .sum
  | mul | div | floorDiv | mod => .term
  | eq | ne | lt | le | gt | ge | isIn | notIn => .comparison

/-- Its tokens: one, or the two of `not in`. -/
def tokens : BinaryOp → List Token
  | add => [.plus] | sub => [.minus]
  | mul => [.star] | div => [.slash] | floorDiv => [.slashSlash] | mod => [.percent]
  | eq => [.equalEqual] | ne => [.notEqual] | lt => [.less] | le => [.lessEqual]
  | gt => [.greater] | ge => [.greaterEqual] | isIn => [.inWord] | notIn => [.notWord, .inWord]

end BinaryOp

namespace Expr

/-- What tokens are derived for: a tree of one level, or the items of a list. -/
inductive Phrase where
  | tree (l : Level) (e : Expr)
  | items (es : List Expr)

inductive Derives : Phrase → List Token → Prop where
  | int (v : Int64) : Derives (.tree .atom (.int v)) [.int v]
  | float (v : Float) : Derives (.tree .atom (.float v)) [.float v]
  | str (s : String) (ss : List String) :
      Derives (.tree .atom (.str (String.join (s :: ss)))) ((s :: ss).map .str)
  | bool (b : Bool) : Derives (.tree .atom (.bool b)) [if b then .trueWord else .falseWord]
  | nil : Derives (.tree .atom .nil) [.noneWord]
  | name (n : String) : Derives (.tree .atom (.name n)) [.ident n]
  | parentheses {e : Expr} {ts : List Token} (h : Derives (.tree .conditional e) ts) :
      Derives (.tree .atom e) (.leftParen :: (ts ++ [.rightParen]))
  | list {es : List Expr} {ts : List Token} (h : Derives (.items es) ts) :
      Derives (.tree .atom (.list es)) (.leftBracket :: (ts ++ [.rightBracket]))
  | attr {e : Expr} {ts : List Token} (n : String) (h : Derives (.tree .operand e) ts) :
      Derives (.tree .operand (.attr e n)) (ts ++ [.dot, .ident n])
  | index {e i : Expr} {ts is : List Token} (h : Derives (.tree .operand e) ts)
      (hi : Derives (.tree .conditional i) is) :
      Derives (.tree .operand (.index e i)) (ts ++ .leftBracket :: (is ++ [.rightBracket]))
  | call {e : Expr} {es : List Expr} {ts as : List Token} (h : Derives (.tree .operand e) ts)
      (has : Derives (.items es) as) :
      Derives (.tree .operand (.call e es)) (ts ++ .leftParen :: (as ++ [.rightParen]))
  /-- A plus says nothing. -/
  | plus {e : Expr} {ts : List Token} (h : Derives (.tree .factor e) ts) :
      Derives (.tree .factor e) (.plus :: ts)
  /-- A minus is taken in by a literal. -/
  | minus {e : Expr} {ts : List Token} (h : Derives (.tree .factor e) ts) :
      Derives (.tree .factor (negated e)) (.minus :: ts)
  | arithmetic {op : BinaryOp} {a b : Expr} {as bs : List Token} (hop : op.level ≠ .comparison)
      (ha : Derives (.tree op.level a) as) (hb : Derives (.tree op.level.tighter b) bs) :
      Derives (.tree op.level (.binary op a b)) (as ++ (op.tokens ++ bs))
  /-- Comparisons do not chain. -/
  | comparison {op : BinaryOp} {a b : Expr} {as bs : List Token} (hop : op.level = .comparison)
      (ha : Derives (.tree .sum a) as) (hb : Derives (.tree .sum b) bs) :
      Derives (.tree .comparison (.binary op a b)) (as ++ (op.tokens ++ bs))
  | not {e : Expr} {ts : List Token} (h : Derives (.tree .negation e) ts) :
      Derives (.tree .negation (.unary .not e)) (.notWord :: ts)
  | boolOp {op : BoolOp} {a b : Expr} {as bs : List Token} (ha : Derives (.tree op.level a) as)
      (hb : Derives (.tree op.level.tighter b) bs) :
      Derives (.tree op.level (.boolOp op a b)) (as ++ op.token :: bs)
  | ifElse {a b c : Expr} {as bs cs : List Token} (ha : Derives (.tree .disjunction a) as)
      (hb : Derives (.tree .disjunction b) bs) (hc : Derives (.tree .conditional c) cs) :
      Derives (.tree .conditional (.ifElse a b c)) (as ++ .ifWord :: (bs ++ .elseWord :: cs))
  | loosen {l : Level} {e : Expr} {ts : List Token} (h : Derives (.tree l.tighter e) ts) :
      Derives (.tree l e) ts
  | noItem : Derives (.items []) []
  | lastItem {e : Expr} {ts : List Token} (h : Derives (.tree .conditional e) ts) :
      Derives (.items [e]) ts
  /-- A comma may be the last token of a list. -/
  | item {e : Expr} {es : List Expr} {ts rest : List Token}
      (h : Derives (.tree .conditional e) ts) (hrest : Derives (.items es) rest) :
      Derives (.items (e :: es)) (ts ++ .comma :: rest)

namespace Derives

/-- A phrase of a level is one of every looser level. -/
theorem loose {l l' : Level} {e : Expr} {ts : List Token} (hl : l.rank ≤ l'.rank)
    (h : Derives (.tree l' e) ts) : Derives (.tree l e) ts := by
  induction hn : l'.rank - l.rank generalizing l with
  | zero =>
      obtain rfl := Level.eq_of_rank_eq (Nat.le_antisymm hl (Nat.le_of_sub_eq_zero hn))
      exact h
  | succ n ih =>
      have hne : l ≠ .atom := by
        rintro rfl
        have := l'.rank_le_atom
        omega
      have hrank := Level.rank_tighter hne
      exact .loosen (ih (by omega) (by omega))

theorem parenthesized {l l' : Level} {e : Expr} {ts : List Token} (h : Derives (.tree l' e) ts) :
    Derives (.tree l e) (.leftParen :: (ts ++ [.rightParen])) :=
  (Derives.parentheses (h.loose (Nat.zero_le _))).loose l.rank_le_atom

/-- No phrase is empty. -/
theorem head {l : Level} {e : Expr} {ts : List Token} (h : Derives (.tree l e) ts) :
    ∃ k ts', ts = k :: ts' ∧ k.opens l = true := by
  generalize hp : Phrase.tree l e = p at h
  induction h generalizing l e with
  | int | float | str | nil | name | parentheses | list | plus | minus | not =>
      cases hp
      exact ⟨_, _, rfl, rfl⟩
  | bool b =>
      cases hp
      cases b <;> exact ⟨_, _, rfl, rfl⟩
  | attr _ _ ih | index _ _ ih | call _ _ ih | arithmetic _ _ _ ih | boolOp _ _ ih =>
      cases hp
      obtain ⟨k, ts', rfl, hk⟩ := ih rfl
      exact ⟨k, _, rfl, hk⟩
  | comparison _ _ _ ih | ifElse _ _ _ ih | loosen _ ih =>
      cases hp
      obtain ⟨k, ts', rfl, hk⟩ := ih rfl
      exact ⟨k, _, rfl, Token.opens_loose (by first | decide | exact Level.rank_le_tighter _) hk⟩
  | noItem | lastItem | item => cases hp

end Derives

/-! ## Brackets -/

/-- Tokens of expressions whose brackets are closed, whatever is open around them. -/
structure Balanced (ks : List Token) : Prop where
  inner : ∀ k ∈ ks, k.isInner = true
  depth : ∀ d, depthBehind d ks = some d

namespace Balanced

variable {ks ks' : List Token}

theorem nil : Balanced [] :=
  ⟨by simp, fun _ => rfl⟩

theorem append (h : Balanced ks) (h' : Balanced ks') : Balanced (ks ++ ks') := by
  refine ⟨List.forall_mem_append.2 ⟨h.inner, h'.inner⟩, fun d => ?_⟩
  rw [depthBehind_append, h.depth]
  exact h'.depth d

theorem cons {k : Token} (h : Balanced ks) (hk : k.isInner = true)
    (hd : ∀ d, depthAfter d k = some d) : Balanced (k :: ks) := by
  refine ⟨List.forall_mem_cons.2 ⟨hk, h.inner⟩, fun d => ?_⟩
  rw [depthBehind, hd]
  exact h.depth d

theorem brackets (h : Balanced ks) {k close : Token} (hbrackets : k = .leftParen ∧
    close = .rightParen ∨ k = .leftBracket ∧ close = .rightBracket) :
    Balanced (k :: (ks ++ [close])) := by
  refine ⟨?_, fun d => ?_⟩
  · rcases hbrackets with ⟨rfl, rfl⟩ | ⟨rfl, rfl⟩ <;>
      simpa [Token.isInner, or_imp, forall_and] using h.inner
  · rcases hbrackets with ⟨rfl, rfl⟩ | ⟨rfl, rfl⟩ <;>
      simp [depthBehind, depthAfter, depthBehind_append, h.depth]

end Balanced

theorem Derives.balanced {p : Phrase} {ts : List Token} (h : Derives p ts) : Balanced ts := by
  have hop : ∀ op : BinaryOp, Balanced op.tokens := by
    intro op
    cases op <;> first
      | exact Balanced.nil.cons rfl fun _ => rfl
      | exact (Balanced.nil.cons rfl fun _ => rfl).cons rfl fun _ => rfl
  induction h with
  | int | float | nil | name => exact Balanced.nil.cons rfl fun _ => rfl
  | bool b => cases b <;> exact Balanced.nil.cons rfl fun _ => rfl
  | str s ss =>
      induction s :: ss with
      | nil => exact .nil
      | cons v vs ih => exact ih.cons rfl fun _ => rfl
  | parentheses _ ih => exact ih.brackets (.inl ⟨rfl, rfl⟩)
  | list _ ih => exact ih.brackets (.inr ⟨rfl, rfl⟩)
  | attr _ _ ih => exact ih.append ((Balanced.nil.cons rfl fun _ => rfl).cons rfl fun _ => rfl)
  | index _ _ ih ihi => exact ih.append (ihi.brackets (.inr ⟨rfl, rfl⟩))
  | call _ _ ih ihas => exact ih.append (ihas.brackets (.inl ⟨rfl, rfl⟩))
  | plus _ ih | minus _ ih | not _ ih => exact ih.cons rfl fun _ => rfl
  | arithmetic _ _ _ iha ihb | comparison _ _ _ iha ihb => exact iha.append ((hop _).append ihb)
  | @boolOp op _ _ _ _ _ _ iha ihb =>
      cases op <;> exact iha.append (ihb.cons rfl fun _ => rfl)
  | ifElse _ _ _ iha ihb ihc =>
      exact iha.append ((ihb.append (ihc.cons rfl fun _ => rfl)).cons rfl fun _ => rfl)
  | loosen _ ih => exact ih
  | noItem => exact .nil
  | lastItem _ ih => exact ih
  | item _ _ ih ihrest => exact ih.append (ihrest.cons rfl fun _ => rfl)

end Expr

end LiveUI
