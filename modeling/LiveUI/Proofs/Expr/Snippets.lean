import LiveUI.Proofs.Expr.Parentheses
import LiveUI.Proofs.Expr.Written

/-! # Snippets

One expression and the end of its snippet are read exactly when the tokens before the end can be
derived, and the tree is the one that they are derived for. So no tokens are derived for two trees,
and a tree that is written out is read back. -/

namespace LiveUI.Expr

open LiveUI.Source LiveUI.Source.Reader

/-- The end of a snippet: line ends, and behind them the end of the tokens. -/
def endsSnippet : List Token → Bool
  | [] | .eof :: _ => true
  | .newline :: q => endsSnippet q
  | _ => false

/-- One expression and nothing behind it is read as a tree. -/
def Accepts (s : Stream) (e : Expr) : Prop :=
  ∃ x s', Expression.snippet s = .ok (x, s') ∧ x.expr = e

/-! ## The end -/

theorem snippetEnd_iff {n : Nat} {s : Stream} (hn : s.count ≤ n) :
    (∃ s', Expression.snippetEnd n s = .ok ((), s')) ↔ endsSnippet s.kinds = true := by
  induction n generalizing s with
  | zero =>
      have hs : s.kinds = [] := by
        rw [s.count_eq_kinds] at hn
        exact List.length_eq_zero_iff.1 (Nat.le_zero.1 hn)
      rw [hs]
      exact iff_of_true ⟨s, rfl⟩ rfl
  | succ n ih =>
      rw [Expression.snippetEnd, run_peek, s.peek_eq]
      cases hs : s.kinds with
      | nil => exact iff_of_true ⟨s, rfl⟩ rfl
      | cons k q =>
          cases k with
          | newline =>
              have htail := kinds_tail_of hs
              have hcount := count_cons hs
              have hiff := ih (s := s.tail) (by omega)
              rw [htail] at hiff
              exact hiff
          | eof => exact iff_of_true ⟨s, rfl⟩ rfl
          | _ => exact iff_of_false (by rintro ⟨s', ⟨⟩⟩) Bool.false_ne_true

/-- Nothing goes on behind the end of a snippet. -/
theorem ends_of_endsSnippet {q : List Token} (hq : endsSnippet q = true) (l : Level) :
    l.Ends q := by
  rcases q with _ | ⟨k, q⟩
  · intro l' _
    cases l' <;> rfl
  · cases k <;> first | exact absurd hq Bool.false_ne_true | exact Level.ends_of_isClosing rfl l q

/-- No phrase has the end of a line in it. -/
theorem Derives.inside {p : Phrase} {ts : List Token} (h : Derives p ts) :
    ∀ k ∈ ts, endsSnippet [k] = false := by
  intro k hk
  have hinner := h.balanced.inner k hk
  cases k <;> first | rfl | cases hinner

/-! ## Snippets -/

theorem accepts_iff {s : Stream} {e : Expr} :
    Accepts s e ↔ ∃ ts q, s.kinds = ts ++ q ∧ endsSnippet q = true ∧
      Derives (.tree .conditional e) ts := by
  constructor
  · rintro ⟨x, s', h, rfl⟩
    obtain ⟨x', t, hread, hrest⟩ := bind_eq_ok.1 h
    rw [run_remaining] at hrest
    obtain ⟨_, t', hend, hpure⟩ := bind_eq_ok.1 hrest
    cases hpure
    obtain ⟨ts, hts, -, -, hderives⟩ := Expression.read_eq_ok hread
    exact ⟨ts, t.kinds, hts, (snippetEnd_iff (Nat.le_refl _)).1 ⟨_, hend⟩, hderives⟩
  · rintro ⟨ts, q, hs, hq, hderives⟩
    have hread := Expression.read_of_derives hderives hs (ends_of_endsSnippet hq _)
    rw [← kinds_skip_of hs] at hq
    obtain ⟨s', hend⟩ := (snippetEnd_iff (Nat.le_refl _)).2 hq
    have hsnippet : Expression.snippet s =
        .ok (⟨(s.skip ts.length).textSince s.start, e, s.here⟩, s') := by
      rw [Expression.snippet, bind_ok hread, run_remaining, bind_ok hend]
      rfl
    exact ⟨_, s', hsnippet, rfl⟩

/-- Tokens without places. -/
def unplacedStream (ts : List Token) : Stream :=
  .ofLexemes [] (ts.map fun k => ⟨k, ⟨0, 0⟩, 0, 0⟩)

theorem kinds_unplacedStream (ts : List Token) : (unplacedStream ts).kinds = ts := by
  simp [unplacedStream, Stream.kinds, Stream.ofLexemes, Function.comp_def]

/-- No tokens are derived for two trees. -/
theorem Derives.unique {ts : List Token} {e e' : Expr} (h : Derives (.tree .conditional e) ts)
    (h' : Derives (.tree .conditional e') ts) : e = e' := by
  have hs : (unplacedStream ts).kinds = ts ++ [] := by
    rw [kinds_unplacedStream, List.append_nil]
  have hread := (h.read ts.length _ [] hs (Nat.le_refl _)).2 (ends_of_endsSnippet rfl _)
  have hread' := (h'.read ts.length _ [] hs (Nat.le_refl _)).2 (ends_of_endsSnippet rfl _)
  rw [hread] at hread'
  cases hread'
  rfl

/-- Tokens without the end of the tokens, the last of which does not belong to the end of a snippet. -/
structure Inside (ts : List Token) : Prop where
  eof : .eof ∉ ts
  newline : ts.getLast? ≠ some .newline

theorem newline_of_endsSnippet {ts q : List Token} (h : endsSnippet (ts ++ q) = true)
    (heof : .eof ∉ ts) : ∀ k ∈ ts, k = .newline := by
  induction ts with
  | nil => simp
  | cons k ts ih =>
      simp only [List.mem_cons, not_or] at heof
      cases k <;> first
        | exact absurd rfl heof.1
        | exact absurd h Bool.false_ne_true
        | exact List.forall_mem_cons.2 ⟨rfl, ih h heof.2⟩

/-- Tokens are parted into a phrase and the end of a snippet in one way. -/
theorem Inside.eq_of_append {ts ts' q q' : List Token} (hts : Inside ts)
    (hq : endsSnippet q = true) (hts' : ∀ k ∈ ts', endsSnippet [k] = false)
    (hq' : endsSnippet q' = true) (h : ts ++ q = ts' ++ q') : ts' = ts := by
  rcases List.append_eq_append_iff.1 h with ⟨more, rfl, rfl⟩ | ⟨more, rfl, rfl⟩
  · cases more with
    | nil => exact List.append_nil ts
    | cons k more =>
        have hk := hts' k (by simp)
        cases k <;> first | exact absurd hq Bool.false_ne_true | exact absurd hk (by decide)
  · rcases List.eq_nil_or_concat more with rfl | ⟨init, k, rfl⟩
    · exact (List.append_nil ts').symm
    · have heof : .eof ∉ init.concat k := fun hmem => hts.eof (List.mem_append_right _ hmem)
      have hk := newline_of_endsSnippet hq' heof k (by simp)
      exact absurd (by simp [hk]) hts.newline

theorem Derives.toInside {p : Phrase} {ts : List Token} (h : Derives p ts) : Inside ts where
  eof hmem := absurd (h.inside _ hmem) (by decide)
  newline hlast := absurd (h.inside _ (List.mem_of_getLast? hlast)) (by decide)

theorem Inside.accepts_iff {ts q : List Token} (hts : Inside ts) (hq : endsSnippet q = true)
    {s : Stream} (hs : s.kinds = ts ++ q) {e : Expr} :
    Accepts s e ↔ Derives (.tree .conditional e) ts := by
  rw [Expr.accepts_iff]
  refine ⟨?_, fun h => ⟨ts, q, hs, hq, h⟩⟩
  rintro ⟨ts', q', hs', hq', h⟩
  rwa [hts.eq_of_append hq h.inside hq' (hs.symm.trans hs')] at h

/-- **The reader of snippets is exact.** Tokens before the end of a snippet are read as a tree just
when they are derived for it; they are derived for no second tree; and the tree is read back from
the tokens that it is written with, which have parentheses only around an operand whose level is
looser than its place needs. -/
theorem snippet_exact {ts q : List Token} (hts : Inside ts) (hq : endsSnippet q = true) :
    (∀ s, s.kinds = ts ++ q → ∀ e, Accepts s e ↔ Derives (.tree .conditional e) ts) ∧
      (∀ e e', Derives (.tree .conditional e) ts → Derives (.tree .conditional e') ts → e = e') ∧
      ∀ e, Derives (.tree .conditional e) ts → ∀ s, s.kinds = e.tokens ++ q →
        ∀ e', Accepts s e' ↔ e' = e := by
  refine ⟨fun s hs e => hts.accepts_iff hq hs, fun e e' h h' => h.unique h', ?_⟩
  intro e h s hs e'
  have hwritten : Derives (.tree .conditional e) e.tokens := h.written.loose (Nat.zero_le _)
  rw [hwritten.toInside.accepts_iff hq hs]
  refine ⟨fun h' => h'.unique hwritten, ?_⟩
  rintro rfl
  exact hwritten

/-- The tokens of `-(a + 1)` and the end of their line. -/
theorem snippet_exact_negated_sum :
    Inside [.minus, .leftParen, .ident "a", .plus, .int 1, .rightParen] ∧
      endsSnippet [.newline, .eof] = true ∧
      Accepts (unplacedStream
          ([.minus, .leftParen, .ident "a", .plus, .int 1, .rightParen] ++ [.newline, .eof]))
        (.unary .neg (.binary .add (.name "a") (.int 1))) := by
  have hsum : Derives (.tree .sum (.binary .add (.name "a") (.int 1)))
      [.ident "a", .plus, .int 1] :=
    .arithmetic (show BinaryOp.add.level ≠ .comparison by decide) ((Derives.name "a").loose (by decide))
      ((Derives.int 1).loose (by decide))
  have hminus := (Derives.minus hsum.parenthesized).loose (l := .conditional) (by decide)
  refine ⟨hminus.toInside, rfl, ?_⟩
  exact ((snippet_exact hminus.toInside rfl).1 _ (kinds_unplacedStream _) _).2 hminus

end LiveUI.Expr
