import LiveUI.Proofs.Expr.Written
import LiveUI.Proofs.Number.Signs

/-! # Expressions equal themselves

Equality of trees compares floats as numbers, so a tree with a number that is undefined would not
equal itself. No literal is undefined. -/

namespace LiveUI

open Source

/-- A float that equals itself. -/
def Source.Token.IsDefined : Token → Prop
  | .float x => (x == x) = true
  | _ => True

namespace Source

theorem Token.ofWord_isDefined (word : String) : (Token.ofWord word).IsDefined := by
  unfold Token.ofWord
  split <;> trivial

theorem Token.isDefined_of_isBare {t : Token} (h : t.isBare = true) : t.IsDefined := by
  cases t <;> trivial

theorem symbol?_isBare {c : Char} {cs : List Char} {p : Token × Nat}
    (h : symbol? c cs = some p) : p.1.isBare = true := by
  have hsingle : ∀ {t : Token}, singleSymbol c = some t → t.isBare = true := by
    intro t ht
    unfold singleSymbol at ht
    split at ht <;> first | (cases ht; rfl) | cases ht
  have hdouble : ∀ {d : Char} {t : Token}, doubleSymbol c d = some t → t.isBare = true := by
    intro d t ht
    unfold doubleSymbol at ht
    split at ht <;> first | (cases ht; rfl) | cases ht
  unfold symbol? at h
  split at h
  next =>
    obtain ⟨t, ht, rfl⟩ := Option.map_eq_some_iff.1 h
    exact hsingle ht
  next =>
    split at h
    next ht =>
      cases h
      exact hdouble ht
    next =>
      obtain ⟨t, ht, rfl⟩ := Option.map_eq_some_iff.1 h
      exact hsingle ht

theorem munchNumeral_isDefined {c : Char} {cs : List Char} {t : Token} {n : Nat}
    (h : munchNumeral c cs = .token t n) : t.IsDefined := by
  cases numeral_of_munchNumeral h with
  | whole _ _ ht =>
      rw [ht]
      trivial
  | pointed _ _ ht =>
      rw [ht]
      exact Number.decimalFloat_beq_self _ _

theorem munch_isDefined {c : Char} {cs : List Char} {t : Token} {n : Nat}
    (h : munch c cs = .token t n) : t.IsDefined := by
  rcases munch_cases h with hsymbol | ⟨-, hstring⟩ | ⟨-, hnumeral⟩ | ⟨-, hword⟩
  · exact Token.isDefined_of_isBare (symbol?_isBare hsymbol)
  · obtain ⟨_, rfl, -⟩ := munchString_eq_token hstring
    trivial
  · exact munchNumeral_isDefined hnumeral
  · rw [munchWord, Munch.token.injEq] at hword
    obtain ⟨rfl, -⟩ := hword
    exact Token.ofWord_isDefined _

/-- The tokens of a text that no line ends in stand in it. -/
theorem Spells.munched {d d' : Nat} {text : List Char} {ks : List Token}
    (h : Spells Stops d text ks d') (hline : ∀ k ∈ ks, k ≠ .newline) :
    ∀ k ∈ ks, ∃ c cs n, munch c cs = .token k n := by
  obtain ⟨ls, e, rfl, hscan⟩ := h.scan_ofList
  rw [List.forall_mem_map] at hline ⊢
  rw [← List.append_nil ls] at hscan
  exact scan_munched hscan hline

end Source

namespace Expr

theorem beqList_self {es : List Expr} (h : ∀ e ∈ es, beq e e = true) : beqList es es = true := by
  induction es with
  | nil => rfl
  | cons e es ih =>
      obtain ⟨he, hes⟩ := List.forall_mem_cons.1 h
      rw [beqList, he, ih hes]
      rfl

theorem unary_beq_self (op : UnaryOp) {e : Expr} (h : beq e e = true) :
    beq (.unary op e) (.unary op e) = true := by
  simp [beq, h]

theorem negated_beq_self {e : Expr} (h : beq e e = true) : beq (negated e) (negated e) = true := by
  cases e with
  | int v => exact beq_self_eq_true (-v)
  | float v => exact Number.neg_beq_self h
  | _ => exact unary_beq_self .neg h

/-- The trees of a phrase. -/
def Phrase.trees : Phrase → List Expr
  | tree _ e => [e]
  | items es => es

/-- The tree of tokens whose floats are defined equals itself. -/
theorem Derives.beq_self {p : Phrase} {ts : List Token} (h : Derives p ts)
    (hts : ∀ k ∈ ts, k.IsDefined) : ∀ e ∈ p.trees, beq e e = true := by
  induction h with
  | int | str | bool | nil | name => simp [Phrase.trees, beq]
  | float v =>
      simp only [Phrase.trees, List.forall_mem_singleton]
      exact hts (.float v) List.mem_cons_self
  | loosen _ ih | lastItem _ ih => exact ih hts
  | noItem => simp [Phrase.trees]
  | list _ ih =>
      simp only [List.forall_mem_cons, List.forall_mem_append] at hts
      simp only [Phrase.trees, List.forall_mem_singleton] at ih ⊢
      rw [beq]
      exact beqList_self (ih hts.2.1)
  | call _ _ ih ihas =>
      simp only [List.forall_mem_cons, List.forall_mem_append] at hts
      simp only [Phrase.trees, List.forall_mem_singleton] at ih ihas ⊢
      rw [beq, ih hts.1, beqList_self (ihas hts.2.2.1)]
      rfl
  | minus _ ih =>
      simp only [List.forall_mem_cons] at hts
      simp only [Phrase.trees, List.forall_mem_singleton] at ih ⊢
      exact negated_beq_self (ih hts.2)
  | parentheses _ ih =>
      simp only [List.forall_mem_cons, List.forall_mem_append] at hts
      exact ih hts.2.1
  | plus _ ih => exact ih (List.forall_mem_cons.1 hts).2
  | attr _ _ ih =>
      simp only [List.forall_mem_append] at hts
      simp only [Phrase.trees, List.forall_mem_singleton] at ih ⊢
      simp [beq, ih hts.1]
  | not _ ih =>
      simp only [List.forall_mem_cons] at hts
      simp only [Phrase.trees, List.forall_mem_singleton] at ih ⊢
      exact unary_beq_self .not (ih hts.2)
  | index _ _ ih ih' =>
      simp only [List.forall_mem_cons, List.forall_mem_append] at hts
      simp only [Phrase.trees, List.forall_mem_singleton] at ih ih' ⊢
      rw [beq, ih hts.1, ih' hts.2.2.1]
      rfl
  | arithmetic _ _ _ ih ih' | comparison _ _ _ ih ih' =>
      simp only [List.forall_mem_append] at hts
      simp only [Phrase.trees, List.forall_mem_singleton] at ih ih' ⊢
      simp [beq, ih hts.1, ih' hts.2.2]
  | boolOp _ _ ih ih' =>
      simp only [List.forall_mem_append, List.forall_mem_cons] at hts
      simp only [Phrase.trees, List.forall_mem_singleton] at ih ih' ⊢
      simp [beq, ih hts.1, ih' hts.2.2]
  | ifElse _ _ _ iha ihb ihc =>
      simp only [List.forall_mem_cons, List.forall_mem_append] at hts
      simp only [Phrase.trees, List.forall_mem_singleton] at iha ihb ihc ⊢
      rw [beq, iha hts.1, ihb hts.2.2.1, ihc hts.2.2.2.2]
      rfl
  | item _ _ ih ihrest =>
      simp only [List.forall_mem_cons, List.forall_mem_append] at hts
      simp only [Phrase.trees, List.forall_mem_singleton, List.forall_mem_cons] at ih ihrest ⊢
      exact ⟨ih hts.1, ihrest hts.2.2⟩

end Expr

/-- The tree of an expression that can be written is derived for tokens that stand in a text. -/
theorem Expression.Written.munched {d : Nat} {e : Expression} (h : e.Written d) :
    ∃ ks, Expr.Derives (.tree .conditional e.expr) ks ∧
      ∀ k ∈ ks, ∃ c cs n, munch c cs = .token k n := by
  obtain ⟨ks, hspells, hderives⟩ := h
  refine ⟨ks, hderives, hspells.munched ?_⟩
  rintro _ hk rfl
  exact absurd (hderives.balanced.inner _ hk) Bool.false_ne_true

/-- An expression that can be written equals itself. -/
theorem Expression.Written.beq_self {d : Nat} {e : Expression} (h : e.Written d) :
    (e == e) = true := by
  obtain ⟨ks, hderives, hmunched⟩ := h.munched
  refine hderives.beq_self (fun k hk => ?_) e.expr List.mem_cons_self
  obtain ⟨c, cs, n, ht⟩ := hmunched k hk
  exact munch_isDefined ht

end LiveUI
