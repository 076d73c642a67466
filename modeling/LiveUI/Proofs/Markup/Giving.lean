import LiveUI.Proofs.Markup.Lookahead
import LiveUI.Proofs.Markup.Unplaced

/-! # Reading headers from their pieces

A reader that meets the pieces of a part of a template gives this part, up to its places, and goes on
with the pieces behind it. -/

namespace LiveUI.Markup

open LiveUI.Source LiveUI.Source.Reader

/-- What is read behind the name of a parameter: its default, if it has one. -/
abbrev readDefault (p : Parameters) (name : String) : Reader (List Expression) := do
  if (← peek) == .equal then
    let _ ← next
    return [← Expression.read]
  else if p.defaults.isEmpty then return []
  else failBehind (.parameterAfterDefault name)

/-- The stream has the tokens that lay the pieces. -/
def At (t : Stream) (ps : List Piece) : Prop :=
  Lays t.source t.rest ps

/-- From the pieces `ps` the reader succeeds with a result that has the property `Q`, before the
pieces `ps'`. -/
def Gives {α : Type} (r : Reader α) (ps : List Piece) (Q : α → Prop) (ps' : List Piece) : Prop :=
  ∀ t, At t ps → ∃ a t', r t = .ok (a, t') ∧ At t' ps' ∧ Q a

section Rules

variable {α β : Type} {r : Reader α} {f : α → Reader β} {ps ps' ps'' : List Piece} {Q : α → Prop}
  {R : β → Prop}

theorem Gives.pure {a : α} (h : Q a) : Gives (Pure.pure a) ps Q ps :=
  fun t ht => ⟨a, t, rfl, ht, h⟩

theorem Gives.bind (h : Gives r ps Q ps') (hf : ∀ a, Q a → Gives (f a) ps' R ps'') :
    Gives (r >>= f) ps R ps'' := by
  intro t ht
  obtain ⟨a, t', hr, ht', ha⟩ := h t ht
  rw [bind_ok hr]
  exact hf a ha t' ht'

theorem Gives.bind_eq {a : α} (h : Gives r ps (· = a) ps') (hf : Gives (f a) ps' R ps'') :
    Gives (r >>= f) ps R ps'' := by
  refine h.bind ?_
  rintro _ rfl
  exact hf

theorem Gives.imp {Q' : α → Prop} (h : Gives r ps Q ps') (hQ : ∀ a, Q a → Q' a) :
    Gives r ps Q' ps' := by
  intro t ht
  obtain ⟨a, t', hr, ht', ha⟩ := h t ht
  exact ⟨a, t', hr, ht', hQ a ha⟩

theorem Gives.map {g : α → β} (h : Gives r ps Q ps') (hg : ∀ a, Q a → R (g a)) :
    Gives (g <$> r) ps R ps' := by
  intro t ht
  obtain ⟨a, t', hr, ht', ha⟩ := h t ht
  exact ⟨g a, t', by rw [run_map, hr]; rfl, ht', hg a ha⟩

/-- What a reader sees of the stream is known from the pieces. -/
theorem Gives.get {f : Stream → Reader β} (h : ∀ t, At t ps → Gives (f t) ps R ps') :
    Gives (MonadState.get >>= f) ps R ps' :=
  fun t ht => h t ht t ht

/-- There are as many tokens as pieces at least. -/
theorem Gives.remaining {f : Nat → Reader β} (h : ∀ n, ps.length ≤ n → Gives (f n) ps R ps') :
    Gives (Reader.remaining >>= f) ps R ps' :=
  fun t ht => h t.count (by rw [t.count_eq]; exact ht.length_le) t ht

end Rules

/-! ## Single tokens -/

variable {β : Type} {k : Token} {ps ps' : List Piece} {t : Stream} {R : β → Prop}

/-- The token of a piece at the front. -/
theorem At.kinds (h : At t (.token k :: ps)) : t.kinds = k :: t.tail.kinds ∧ At t.tail ps := by
  obtain ⟨l, ls, hrest, rfl, hbehind⟩ := Lays.of_token h
  rw [Stream.kinds_tail, Stream.kinds, At, Stream.source_tail, Stream.rest_tail, hrest]
  exact ⟨rfl, hbehind⟩

theorem At.token (h : At t (.token k :: ps)) : t.peek = k ∧ At t.tail ps :=
  ⟨peek_of_kinds h.kinds.1, h.kinds.2⟩

theorem Gives.peek {f : Token → Reader β} (h : Gives (f k) (.token k :: ps) R ps') :
    Gives (Reader.peek >>= f) (.token k :: ps) R ps' := by
  intro t ht
  rw [run_peek, ht.token.1]
  exact h t ht

theorem Gives.next {f : Token → Reader β} (h : Gives (f k) ps R ps') :
    Gives (Reader.next >>= f) (.token k :: ps) R ps' := by
  intro t ht
  rw [run_next, ht.token.1]
  exact h _ ht.token.2

theorem gives_identifier {name : String} :
    Gives identifier (.token (.ident name) :: ps) (· = name) ps :=
  Gives.next (.pure rfl)

theorem gives_exactly (hk : k.isBare = true) :
    Gives (exactly k) (.token k :: ps) (· = ()) ps := by
  refine Gives.next ?_
  rw [if_pos ((Token.beq_iff hk).2 rfl)]
  exact .pure rfl

theorem gives_lineEnd : Gives lineEnd (.token .newline :: ps) (· = ()) ps :=
  Gives.peek (Gives.next (.pure rfl))

/-! ## Expressions -/

theorem At.expression_kinds {e : Expression} (h : At t (.expression e :: .token k :: ps)) :
    ∃ ks q, t.kinds = ks ++ k :: q ∧ Expr.Derives (.tree .conditional e.expr) ks := by
  obtain ⟨used, ls, hrest, -, hderives, h⟩ := Lays.of_expression h
  obtain ⟨l, ls, rfl, rfl, -⟩ := h.of_token
  exact ⟨_, _, by rw [Stream.kinds, hrest, List.map_append, List.map_cons], hderives⟩

/-- An expression starts with a token that an expression can start with. -/
theorem Gives.opens {e : Expression} {f : Token → Reader β}
    (h : ∀ k, k.opens .conditional = true → Gives (f k) (.expression e :: ps) R ps') :
    Gives (Reader.peek >>= f) (.expression e :: ps) R ps' := by
  intro t ht
  obtain ⟨used, rest, hrest, -, hderives, -⟩ := Lays.of_expression ht
  obtain ⟨k, ks, hks, hk⟩ := hderives.head
  have hpeek : t.peek = k := by
    refine peek_of_kinds (q := ks ++ rest.map (·.token)) ?_
    rw [Stream.kinds, hrest, List.map_append, hks]
    rfl
  rw [run_peek, hpeek]
  exact h k hk t ht

/-- An expression is read back before what ends it. -/
theorem gives_read {e : Expression} (hk : k.isClosing = true) :
    Gives Expression.read (.expression e :: .token k :: ps) (·.unplaced = e.unplaced)
      (.token k :: ps) := by
  intro t ht
  obtain ⟨used, rest, hrest, hspans, hderives, hlays⟩ := Lays.of_expression ht
  have hskip : (t.skip used.length).rest = rest := by
    rw [Stream.rest_skip, hrest, List.drop_left]
  have hbehind : At (t.skip used.length) (.token k :: ps) := by
    rwa [At, Stream.source_skip, hskip]
  have hkinds : t.kinds = used.map (·.token) ++ (t.skip used.length).kinds := by
    rw [Stream.kinds, Stream.kinds, hrest, hskip, List.map_append]
  have hends : Expr.Level.conditional.Ends (t.skip used.length).kinds := by
    rw [hbehind.kinds.1]
    exact Expr.Level.ends_of_isClosing hk _ _
  have hread := Expression.read_of_derives hderives hkinds hends
  rw [List.length_map, Stream.textSince_skip hrest hspans, String.ofList_toList] at hread
  exact ⟨_, _, hread, hbehind, rfl⟩

/-! ## Assignments -/

theorem gives_target {target : Target} {op : Operator} :
    Gives readTarget (.target target :: .token op.token :: ps) (· = target)
      (.token op.token :: ps) := by
  intro t ht
  obtain ⟨used, rest, hrest, hspans, htokens, hwritten, hlays⟩ := Lays.of_target ht
  obtain ⟨l, ls, rfl, hl, -⟩ := hlays.of_token
  have hused : ∀ k ∈ used.map (·.token), k.isBinding = false ∧ k ≠ .eof := by
    rw [htokens]
    exact fun k hk => Token.of_isPassed (target.isPassed_tokens k hk)
  have hbinding : l.token.isBinding = true := by
    rw [hl]
    cases op <;> rfl
  refine ⟨target, t.skip used.length, ?_, ?_, rfl⟩
  · rw [run_readTarget hrest hspans hused hbinding, String.ofList_toList,
      Target.parse_text hwritten]
  · rwa [At, Stream.source_skip, Stream.rest_skip, hrest, List.drop_left]

theorem gives_operator (op : Operator) : Gives readOperator (.token op.token :: ps) (· = op) ps := by
  refine Gives.next ?_
  cases op <;> exact .pure rfl

theorem gives_assignment {a : Assignment} :
    Gives readAssignment (a.pieces ++ ps) (·.unplaced = a.unplaced) ps := by
  refine Gives.get fun t _ => gives_target.bind_eq ((gives_operator _).bind_eq ?_)
  refine (gives_read rfl).bind fun e he => gives_lineEnd.bind_eq (.pure ?_)
  rw [Assignment.unplaced, he, Assignment.unplaced]

/-! ## Lists between brackets -/

theorem gives_comma {close : Token} {bracket : Char} :
    Gives (elementEnd close bracket) (.token .comma :: ps) (· = true) ps :=
  Gives.next (.pure rfl)

theorem gives_close {close : Token} {bracket : Char}
    (hclose : close = .rightParen ∨ close = .rightBracket) :
    Gives (elementEnd close bracket) (.token close :: ps) (· = false) ps := by
  refine Gives.next ?_
  rcases hclose with rfl | rfl <;> exact .pure rfl

theorem gives_moreNames {names : List String} {n : Nat} (hk : k ≠ .comma) (hn : names.length ≤ n) :
    Gives (moreNames n) ((names.flatMap fun name => .token .comma :: namePiece name) ++ .token k :: ps)
      (· = names) (.token k :: ps) := by
  induction names generalizing n with
  | nil =>
      cases n with
      | zero => exact .pure rfl
      | succ n =>
          refine Gives.peek ?_
          cases k <;> first | exact .pure rfl | exact absurd rfl hk
  | cons name names ih =>
      obtain ⟨n, rfl⟩ : ∃ m, n = m + 1 := ⟨n - 1, by simp at hn; omega⟩
      exact Gives.peek (Gives.next (gives_identifier.bind_eq
        ((ih (by simpa using hn)).bind_eq (.pure rfl))))

theorem gives_captures {captures : List Capture} {n : Nat} (hne : captures ≠ [])
    (hn : captures.length ≤ n) :
    Gives (readCaptures n) (commas (captures.map (·.pieces)) ++ .token .rightBracket :: ps)
      (· = captures) ps := by
  induction captures generalizing n with
  | nil => exact absurd rfl hne
  | cons p captures ih =>
      obtain ⟨n, rfl⟩ : ∃ m, n = m + 1 := ⟨n - 1, by simp at hn; omega⟩
      rw [List.map_cons, commas_cons, List.append_assoc]
      refine Gives.peek (gives_identifier.bind_eq ((gives_exactly rfl).bind_eq
        (gives_identifier.bind_eq ?_)))
      cases captures with
      | nil => exact (gives_close (.inr rfl)).bind_eq (.pure rfl)
      | cons q captures =>
          exact gives_comma.bind_eq ((ih (by simp) (by simpa using hn)).bind_eq (.pure rfl))

/-! ## Arguments -/

theorem Argument.keyword?_unplaced (a : Argument) : a.unplaced.keyword? = a.keyword? := by
  cases a <;> rfl

theorem any_keyword? {before before' : List Argument}
    (h : before'.map (·.unplaced) = before.map (·.unplaced)) (p : Option String → Bool) :
    before'.any (p ·.keyword?) = before.any (p ·.keyword?) := by
  have hmap : ∀ as : List Argument, as.any (p ·.keyword?) =
      (as.map (·.unplaced)).any (p ·.keyword?) := by
    intro as
    simp only [List.any_map, Function.comp_def, Argument.keyword?_unplaced]
  rw [hmap, hmap before, h]

theorem gives_atKeyword {name : String} :
    Gives atKeyword (.token (.ident name) :: .token .equal :: ps) (· = true)
      (.token (.ident name) :: .token .equal :: ps) := by
  refine Gives.get fun t ht => ?_
  have hsecond : t.peekSecond = .equal := by
    rw [t.peekSecond_eq, ht.kinds.1, ht.kinds.2.kinds.1]
    rfl
  rw [ht.token.1, hsecond]
  exact .pure rfl

/-- No equals sign stands behind the first token of an expression. -/
theorem gives_noKeyword {e : Expression} (hk : k.isClosing = true) :
    Gives atKeyword (.expression e :: .token k :: ps) (· = false)
      (.expression e :: .token k :: ps) := by
  refine Gives.get fun t ht => ?_
  obtain ⟨ks, q, hkinds, hderives⟩ := ht.expression_kinds
  have hsecond : t.peekSecond ≠ .equal := by
    rw [t.peekSecond_eq, hkinds]
    have hinner := hderives.balanced.inner
    rcases ks with _ | ⟨k₁, _ | ⟨k₂, ks⟩⟩
    · obtain ⟨_, _, heq, -⟩ := hderives.head
      cases heq
    · rintro rfl
      cases hk
    · rintro rfl
      cases hinner .equal (by simp)
  split
  next heq => exact absurd heq hsecond
  next => exact .pure rfl

/-- An argument is read behind others with which it can stand. -/
theorem gives_argument {a : Argument} {before before' : List Argument} (hk : k.isClosing = true)
    (hbefore : before'.map (·.unplaced) = before.map (·.unplaced)) (ha : a.Follows before) :
    Gives (readArgument before') (a.pieces ++ .token k :: ps) (·.unplaced = a.unplaced)
      (.token k :: ps) := by
  cases a with
  | positional value =>
      have hany := any_keyword? hbefore (·.isSome)
      rw [Argument.Follows] at ha
      refine (gives_noKeyword hk).bind_eq ?_
      rw [if_neg Bool.false_ne_true, hany, ha, if_neg Bool.false_ne_true]
      refine (gives_read hk).bind fun e he => .pure ?_
      rw [Argument.unplaced, he, Argument.unplaced]
  | keyword name value =>
      have hany := any_keyword? hbefore (· == some name)
      rw [Argument.Follows] at ha
      refine gives_atKeyword.bind_eq ?_
      refine gives_identifier.bind_eq (Gives.next ((gives_read hk).bind fun e he => ?_))
      rw [hany, ha, if_neg Bool.false_ne_true]
      refine .pure ?_
      rw [Argument.unplaced, he, Argument.unplaced]

/-- No argument starts with the bracket that ends the list. -/
theorem Argument.opens {a : Argument} {f : Token → Reader β}
    (h : ∀ k, (k == .rightParen) = false → Gives (f k) (a.pieces ++ ps) R ps') :
    Gives (Reader.peek >>= f) (a.pieces ++ ps) R ps' := by
  cases a with
  | positional value =>
      refine Gives.opens fun k hk => h k ?_
      cases k <;> first | rfl | cases hk
  | keyword name value => exact Gives.peek (h _ rfl)

theorem gives_arguments {before before' after : List Argument} {n : Nat}
    (hbefore : before'.map (·.unplaced) = before.map (·.unplaced))
    (horderly : Orderly (before ++ after)) (hne : after ≠ []) (hn : after.length ≤ n) :
    Gives (readArguments n before')
      (commas (after.map (·.pieces)) ++ .token .rightParen :: ps)
      (·.map (·.unplaced) = (before ++ after).map (·.unplaced)) ps := by
  induction after generalizing before before' n with
  | nil => exact absurd rfl hne
  | cons a after ih =>
      obtain ⟨n, rfl⟩ : ∃ m, n = m + 1 := ⟨n - 1, by simp at hn; omega⟩
      have ha : a.Follows before := horderly before a after rfl
      rw [List.map_cons, commas_cons, List.append_assoc]
      refine Argument.opens fun k hk => ?_
      rw [hk, if_neg Bool.false_ne_true]
      cases after with
      | nil =>
          refine (gives_argument rfl hbefore ha).bind fun a' ha' => ?_
          refine (gives_close (.inl rfl)).bind_eq (.pure ?_)
          simp [hbefore, ha']
      | cons b after =>
          refine (gives_argument rfl hbefore ha).bind fun a' ha' => gives_comma.bind_eq ?_
          have hbefore' : (before' ++ [a']).map (·.unplaced) = (before ++ [a]).map (·.unplaced) := by
            simp [hbefore, ha']
          have hrest := ih (n := n) hbefore' (by simpa using horderly) (by simp) (by simpa using hn)
          simpa using hrest

end LiveUI.Markup
