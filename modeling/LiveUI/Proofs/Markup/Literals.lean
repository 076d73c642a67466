import LiveUI.Proofs.Expr.SelfEquality
import LiveUI.Proofs.Markup.Building
import LiveUI.Proofs.Number.Integers
import LiveUI.Proofs.Source.Moving

/-! # Integer literals

A numeral stands for an integer that is not negative, and every integer of a tree is a numeral of its
text or the negative of one. So the integers of trees lie on both sides of zero alike, and the minus
signs before a literal are taken in exactly, however many there are and whatever stands in parentheses
between them. -/

namespace LiveUI

open Number Source Source.Reader

/-! ## Numerals -/

namespace Source

theorem munchNumeral_nonneg {c : Char} {cs : List Char} {v : Int64} {n : Nat}
    (h : munchNumeral c cs = .token (.int v) n) : 0 ≤ v.toInt := by
  cases numeral_of_munchNumeral h with
  | whole _ _ ht _ _ _ hv =>
      cases ht
      rw [int64?_eq_some_iff.1 hv]
      exact Int.natCast_nonneg _
  | pointed _ _ ht => cases ht

theorem munch_nonneg {c : Char} {cs : List Char} {v : Int64} {n : Nat}
    (h : munch c cs = .token (.int v) n) : 0 ≤ v.toInt := by
  rcases munch_cases h with hsymbol | ⟨-, hstring⟩ | ⟨-, hnumeral⟩ | ⟨-, hword⟩
  · cases symbol?_isBare hsymbol
  · obtain ⟨_, ht, -⟩ := munchString_eq_token hstring
    cases ht
  · exact munchNumeral_nonneg hnumeral
  · rw [munchWord, Munch.token.injEq] at hword
    obtain ⟨ht, -⟩ := hword
    unfold Token.ofWord at ht
    split at ht <;> cases ht

theorem Turn.munched {s s' : Stage} {ms : List Lexeme} (h : Turn s ms s') :
    ∀ l ∈ ms, l.token.isLayout = true ∨ ∃ c cs n, munch c cs = .token l.token n := by
  intro l hl
  cases h with
  | blank | comment | lastComment | joined => cases hl
  | layout _ _ _ halign => rcases align_marks halign l hl with rfl | rfl <;> exact .inl rfl
  | newline =>
      obtain rfl := List.mem_singleton.1 hl
      exact .inl rfl
  | token _ _ ht =>
      obtain rfl := List.mem_singleton.1 hl
      exact .inr ⟨_, _, _, ht⟩

theorem Leads.munched {s s' : Stage} {ls : List Lexeme} (h : Leads s ls s') :
    ∀ l ∈ ls, l.token.isLayout = true ∨ ∃ c cs n, munch c cs = .token l.token n := by
  induction h with
  | here => nofun
  | turn hturn _ ih => exact List.forall_mem_append.2 ⟨hturn.munched, ih⟩

/-- The integers of a text are not negative. -/
theorem nonneg_of_tokenize {source : List Char} {ls : List Lexeme} (h : tokenize source = .ok ls)
    {v : Int64} (hv : .int v ∈ ls.map (·.token)) : 0 ≤ v.toInt := by
  obtain ⟨found, s, hleads, -, rfl⟩ := tokenize_eq_ok.1 h
  obtain ⟨l, hl, hint⟩ := List.mem_map.1 hv
  rcases List.mem_append.1 hl with hl | hl
  · rcases hleads.munched l hl with hlayout | ⟨c, cs, n, ht⟩
    · rw [hint] at hlayout
      cases hlayout
    · exact munch_nonneg (hint ▸ ht)
  · obtain ⟨mark, hlayout, rfl⟩ := s.ending.lexemes_marks _ l hl
    obtain rfl : mark = .int v := hint
    cases hlayout

end Source

/-! ## Integers of trees -/

namespace Expr

mutual

/-- The integers of a tree, from left to right. -/
def ints : Expr → List Int64
  | int v => [v]
  | float _ | str _ | bool _ | nil | name _ => []
  | list items => intsList items
  | attr value _ => ints value
  | index value i => ints value ++ ints i
  | call func args => ints func ++ intsList args
  | unary _ operand => ints operand
  | binary _ left right => ints left ++ ints right
  | boolOp _ left right => ints left ++ ints right
  | ifElse body condition otherwise => ints body ++ ints condition ++ ints otherwise

def intsList : List Expr → List Int64
  | [] => []
  | e :: es => ints e ++ intsList es

end

/-- The integers of a phrase. -/
def Phrase.ints : Phrase → List Int64
  | tree _ e => e.ints
  | items es => intsList es

variable {e : Expr} {v : Int64} {ts ts' : List Token}

/-- The integer or its negative is a numeral among the tokens. -/
def Signed (ts : List Token) (v : Int64) : Prop :=
  .int v ∈ ts ∨ .int (-v) ∈ ts

namespace Signed

theorem mono (h : Signed ts v) (hsub : ∀ k ∈ ts, k ∈ ts') : Signed ts' v :=
  h.imp (hsub _) (hsub _)

theorem of_neg (h : Signed ts (-v)) : Signed ts v := by
  rw [Signed, Int64.neg_neg] at h
  exact h.symm

theorem negatable (h : Signed ts v) (hts : ∀ u, .int u ∈ ts → 0 ≤ u.toInt) : Negatable v := by
  rcases h with h | h
  · exact negatable_of_nonneg (hts v h)
  · have hneg := (negatable_of_nonneg (hts _ h)).neg
    rwa [Int64.neg_neg] at hneg

end Signed

/-- A minus changes no integer of a tree but the sign of a literal. -/
theorem ints_negated (h : v ∈ (negated e).ints) : v ∈ e.ints ∨ -v ∈ e.ints := by
  cases e with
  | int u =>
      obtain rfl := List.mem_singleton.1 h
      rw [Int64.neg_neg]
      exact .inr (List.mem_singleton_self u)
  | float => cases h
  | _ => exact .inl h

/-- The integers of a derived phrase are numerals among its tokens, up to their signs. -/
theorem Derives.signed {p : Phrase} (h : Derives p ts) : ∀ v ∈ p.ints, Signed ts v := by
  induction h with
  | int u =>
      intro v hv
      obtain rfl := List.mem_singleton.1 hv
      exact .inl (List.mem_singleton_self _)
  | float | str | bool | nil | name | noItem => nofun
  | loosen _ ih => exact ih
  | parentheses _ ih | list _ ih | attr _ _ ih | plus _ ih | not _ ih =>
      exact fun v hv => (ih v hv).mono fun k hk => by simp [hk]
  | minus _ ih =>
      intro v hv
      -- What takes the minus in may be the negative of a numeral itself; then it is the numeral again.
      rcases ints_negated hv with hv | hv
      · exact (ih v hv).mono fun k hk => List.mem_cons_of_mem _ hk
      · exact (ih (-v) hv).of_neg.mono fun k hk => List.mem_cons_of_mem _ hk
  | lastItem _ ih =>
      intro v hv
      rw [Phrase.ints, intsList, intsList, List.append_nil] at hv
      exact ih v hv
  | index _ _ ih ih' | call _ _ ih ih' | arithmetic _ _ _ ih ih' | comparison _ _ _ ih ih'
  | boolOp _ _ ih ih' | item _ _ ih ih' =>
      intro v hv
      rcases List.mem_append.1 hv with hv | hv
      · exact (ih v hv).mono fun k hk => by simp [hk]
      · exact (ih' v hv).mono fun k hk => by simp [hk]
  | ifElse _ _ _ iha ihb ihc =>
      intro v hv
      rcases List.mem_append.1 hv with hv | hv
      · rcases List.mem_append.1 hv with hv | hv
        · exact (iha v hv).mono fun k hk => by simp [hk]
        · exact (ihb v hv).mono fun k hk => by simp [hk]
      · exact (ihc v hv).mono fun k hk => by simp [hk]

/-! ## Signs -/

/-- A tree under signs, the outermost first; true stands for a minus. -/
def underSigns (marks : List Bool) (e : Expr) : Expr :=
  marks.foldr (fun minus e => if minus then negated e else e) e

theorem ints_underSigns {marks : List Bool} (h : v ∈ (underSigns marks e).ints) :
    v ∈ e.ints ∨ -v ∈ e.ints := by
  induction marks generalizing v with
  | nil => exact .inl h
  | cons minus marks ih =>
      cases minus with
      | false => exact ih h
      | true =>
          rcases ints_negated h with h | h
          · exact ih h
          · rcases ih h with h | h
            · exact .inr h
            · rw [Int64.neg_neg] at h
              exact .inl h

/-! ## Reading at a place of a text -/

/-- Whatever is read at the stream has integers that have a negative, and so it is at each of the signs
before an operand. A minus that takes in a literal comes to its exact negative. -/
structure Folds (s : Stream) : Prop where
  leaves : ∀ (l : Level) depth e s', l.reader depth s = .ok (e, s') → ∀ v ∈ e.ints, Negatable v
  folded : ∀ depth marks t e t', signs s.count s = .ok (marks, t) →
    operand (conditional depth) t = .ok (e, t') →
      ∀ outer inner, marks = outer ++ inner → ∀ v ∈ (underSigns inner e).ints, Negatable v
  negated : ∀ depth marks t e t', signs s.count s = .ok (marks, t) →
    operand (conditional depth) t = .ok (e, t') →
      ∀ outer inner v, marks = outer ++ true :: inner → underSigns inner e = .int v →
        underSigns (true :: inner) e = .int (-v) ∧ (-v).toInt = -v.toInt

section Folding

variable {s s' : Stream} {depth : Nat}

theorem Parses.negatable {l : Level} {r : Reader Expr} (h : Parses l r) (hr : r s = .ok (e, s'))
    (hs : ∀ u, .int u ∈ s.kinds → 0 ≤ u.toInt) : ∀ v ∈ e.ints, Negatable v := by
  obtain ⟨ks, hks, -, hderives⟩ := h s e s' hr
  exact fun v hv => (hderives.signed v hv).negatable fun u hu =>
    hs u (hks ▸ List.mem_append_left _ hu)

theorem folds_of_nonneg (hs : ∀ u, .int u ∈ s.kinds → 0 ≤ u.toInt) : Folds s := by
  have hfolded : ∀ depth marks t e t', signs s.count s = .ok (marks, t) →
      operand (conditional depth) t = .ok (e, t') →
        ∀ inner, ∀ v ∈ (underSigns inner e).ints, Negatable v := by
    intro depth marks t e t' hsigns hoperand inner v hv
    -- The operand is read behind the signs, from tokens that the stream has.
    obtain ⟨ks, hks, -, -⟩ := signs_takes marks t hsigns
    have hleaves := (operand_parses (conditional_parses depth)).negatable hoperand fun u hu =>
      hs u (hks ▸ List.mem_append_right _ hu)
    rcases ints_underSigns hv with hv | hv
    · exact hleaves v hv
    · have hneg := (hleaves _ hv).neg
      rwa [Int64.neg_neg] at hneg
  refine ⟨fun l depth e s' hr => (l.reader_parses depth).negatable hr hs,
    fun depth marks t e t' hsigns hoperand _ inner _ => hfolded depth marks t e t' hsigns hoperand inner,
    fun depth marks t e t' hsigns hoperand _ inner v _ hint => ⟨?_, ?_⟩⟩
  · exact congrArg negated hint
  · refine (hfolded depth marks t e t' hsigns hoperand inner v ?_).toInt_neg
    rw [hint]
    exact List.mem_singleton_self v

end Folding

end Expr

/-- The integers of an expression that can be written have a negative. -/
theorem Expression.Written.negatable {d : Nat} {e : Expression} (h : e.Written d) :
    ∀ v ∈ e.expr.ints, Negatable v := by
  obtain ⟨ks, hderives, hmunched⟩ := h.munched
  intro v hv
  refine (hderives.signed v hv).negatable fun u hu => ?_
  obtain ⟨c, cs, n, ht⟩ := hmunched _ hu
  exact munch_nonneg ht

/-! ## Whole texts -/

namespace Markup

/-- The expression is an argument or the value of an assignment somewhere in the construct. -/
inductive Construct.Has (e : Expression) : Construct → Prop where
  | positional {c : Construct} (h : e ∈ c.positional) : Has e c
  | keyword {c : Construct} {name : String} (h : (name, e) ∈ c.keywords) : Has e c
  | assigned {c : Construct} {a : Assignment} (ha : a ∈ c.assignments) (h : a.value = e) : Has e c
  | child {c child : Construct} (hchild : child ∈ c.children) (h : Has e child) : Has e c

def Item.Has (e : Expression) : Item → Prop
  | define d => e ∈ d.parameters.defaults ∨ ∃ c ∈ d.body, c.Has e
  | construct c => c.Has e

/-- The expression stands somewhere in the template. -/
def Module.Has (e : Expression) (m : Module) : Prop :=
  ∃ item ∈ m.items, item.Has e

variable {e : Expression}

theorem Construct.Written.has {c : Construct} (h : c.Written) (he : c.Has e) : ∃ d, e.Written d := by
  induction he with
  | positional he =>
      obtain ⟨a, ha, hvalue⟩ := List.mem_filterMap.1 he
      cases h with
      | intro _ harguments =>
          have hwritten := harguments a ha
          cases a <;> cases hvalue
          exact ⟨1, hwritten⟩
  | keyword he =>
      obtain ⟨a, ha, hvalue⟩ := List.mem_filterMap.1 he
      cases h with
      | intro _ harguments =>
          have hwritten := harguments a ha
          cases a <;> cases hvalue
          exact ⟨1, hwritten.2⟩
  | assigned ha hvalue =>
      obtain ⟨item, hitem, ha⟩ := List.mem_filterMap.1 ha
      cases item <;> cases ha
      cases h with
      | intro _ _ _ _ _ hassignments => exact ⟨0, hvalue ▸ (hassignments _ hitem).2⟩
  | child hchild _ ih =>
      obtain ⟨item, hitem, hchild⟩ := List.mem_filterMap.1 hchild
      cases item <;> cases hchild
      cases h with
      | intro _ _ _ _ _ _ hchildren => exact ih (hchildren _ hitem)

theorem Module.Written.has {m : Module} (h : m.Written) (he : m.Has e) : ∃ d, e.Written d := by
  obtain ⟨item, hitem, he⟩ := he
  have hwritten := h item hitem
  cases item with
  | define d =>
      rcases he with he | ⟨c, hc, he⟩
      · exact ⟨1, hwritten.parameters.defaults e he⟩
      · exact (hwritten.body c hc).has he
  | construct c => exact Construct.Written.has hwritten he

end Markup

/-- No integer literal that is read is too small to have a negative, and a minus before one always comes
to its exact negative: at every place of every text, and so in every expression of a template and in
every snippet. -/
theorem literals_fold :
    (∀ (source : List Char) (ls : List Lexeme) (s : Stream), tokenize source = .ok ls →
      s.rest <:+ ls → Expr.Folds s) ∧
    (∀ (source : String) (m : Markup.Module) (e : Expression), Markup.Module.parse source = .ok m →
      m.Has e → ∀ v ∈ e.expr.ints, Negatable v) ∧
    ∀ (code : String) (e : Expression), Expression.parse code = .ok e →
      ∀ v ∈ e.expr.ints, Negatable v := by
  refine ⟨fun source ls s htokens hs => ?_, fun source m e hparse he => ?_, fun code e hparse => ?_⟩
  · exact Expr.folds_of_nonneg fun u hu =>
      nonneg_of_tokenize htokens ((hs.map (·.token)).subset hu)
  · obtain ⟨d, hwritten⟩ := (Markup.Module.written_of_parse hparse).has he
    exact hwritten.negatable
  · exact (Expression.written_of_parse hparse 0).negatable

theorem literals_fold_greatest :
    (∃ ls, tokenize "W(-9223372036854775807)".toList = .ok ls ∧
      Expr.Folds (.ofLexemes "W(-9223372036854775807)".toList ls)) ∧
    (∃ m e, Markup.Module.parse "W(-9223372036854775807)" = .ok m ∧ m.Has e ∧
      e.expr.ints = [-9223372036854775807] ∧ ∀ v ∈ e.expr.ints, Negatable v) ∧
    ∃ e, Expression.parse "-(--9223372036854775807)" = .ok e ∧
      e.expr.ints = [-9223372036854775807] ∧ ∀ v ∈ e.expr.ints, Negatable v := by
  have htokens : tokenize "W(-9223372036854775807)".toList = .ok
      [⟨.ident "W", ⟨1, 1⟩, 0, 1⟩, ⟨.leftParen, ⟨1, 2⟩, 1, 2⟩, ⟨.minus, ⟨1, 3⟩, 2, 3⟩,
        ⟨.int 9223372036854775807, ⟨1, 4⟩, 3, 22⟩, ⟨.rightParen, ⟨1, 23⟩, 22, 23⟩,
        ⟨.newline, ⟨1, 24⟩, 23, 23⟩, ⟨.eof, ⟨1, 24⟩, 23, 23⟩] := by
    cbv
  obtain ⟨m, e, hmodule, hhas, hints⟩ : ∃ m e, Markup.Module.parse "W(-9223372036854775807)" = .ok m ∧
      m.Has e ∧ e.expr.ints = [-9223372036854775807] := by
    refine ⟨⟨[.construct { typeName := "W", arguments := [.positional ⟨"-9223372036854775807",
      .int (-9223372036854775807), ⟨1, 3⟩⟩], pos := ⟨1, 1⟩ }]⟩,
      ⟨"-9223372036854775807", .int (-9223372036854775807), ⟨1, 3⟩⟩, by cbv, ?_, rfl⟩
    exact ⟨_, List.mem_cons_self, .positional List.mem_cons_self⟩
  obtain ⟨e', hsnippet, hints'⟩ : ∃ e, Expression.parse "-(--9223372036854775807)" = .ok e ∧
      e.expr.ints = [-9223372036854775807] :=
    ⟨⟨"-(--9223372036854775807)", .int (-9223372036854775807), ⟨1, 1⟩⟩, by cbv, rfl⟩
  exact ⟨⟨_, htokens, literals_fold.1 _ _ _ htokens List.suffix_rfl⟩,
    ⟨m, e, hmodule, hhas, hints, literals_fold.2.1 _ _ _ hmodule hhas⟩,
    e', hsnippet, hints', literals_fold.2.2 _ _ hsnippet⟩

end LiveUI
