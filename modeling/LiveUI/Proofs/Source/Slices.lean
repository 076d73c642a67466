import LiveUI.Proofs.Source.Lines
import LiveUI.Proofs.Source.Spelling

/-! # Pieces of a text are read alike

The text from the start of one token to the end of a later one, with the brackets between them balanced,
has the same tokens where it is moved to: by itself, if no line ends in it outside of its brackets, and
between any brackets. A comment or a line feed in it is passed over wherever a bracket is open. -/

namespace LiveUI.Source

/-- The text from the start of the first of the tokens to the end of the last one. -/
def pieceOf (source : List Char) (used : List Lexeme) : List Char :=
  slice source (used.head?.elim 0 (·.start)) (used.getLast?.elim 0 (·.stop))

/-- The text has the tokens `ks` and those that end it. -/
def Lexes (cs : List Char) (ks : List Token) : Prop :=
  ∃ ls, tokenize cs = .ok ls ∧ ls.map (·.token) = ks ++ [.newline, .eof]

/-- No line ends between the tokens outside of their brackets. -/
def OneLine (source : List Char) (used : List Lexeme) : Prop :=
  ∀ before l l' after, used = before ++ l :: l' :: after →
    depthBehind 0 ((before ++ [l]).map (·.token)) = some 0 → Unbroken (slice source l.stop l'.start)

theorem Spans.piece {source text : List Char} {used : List Lexeme} (h : Spans source used text) :
    pieceOf source used = text := by
  obtain ⟨before, rest, rfl, hhead, hlast⟩ := h
  rw [Option.map_eq_some_iff] at hhead hlast
  obtain ⟨first, hfirst, hstart⟩ := hhead
  obtain ⟨last, hlast, hstop⟩ := hlast
  rw [pieceOf, hfirst, hlast, Option.elim_some, Option.elim_some, hstart, hstop, slice_append]

theorem OneLine.portable {source : List Char} {used : List Lexeme} (h : OneLine source used)
    (d : Nat) : Portable source d 0 used :=
  fun before l l' after hused hdepth => .inr (h before l l' after hused hdepth)

/-- Balanced tokens may stand between any brackets. -/
theorem portable_of_balanced {source : List Char} {used : List Lexeme} {d : Nat}
    (h : depthBehind 0 (used.map (·.token)) = some d) (i k : Nat) :
    Portable source i (k + 1) used := by
  intro before l l' after hused hdepth
  have hsplit : used = (before ++ [l]) ++ l' :: after := by simpa using hused
  rw [hsplit, List.map_append, depthBehind_append, Option.bind_eq_some_iff] at h
  obtain ⟨j, hj, -⟩ := h
  have hopen := depthBehind_add hj (k + 1)
  rw [Nat.zero_add, hdepth, Option.some_inj] at hopen
  omega

/-- A line without blocks around it is ended, and then the text. -/
theorem Ending.tokens_of_plain {t : Token} (ht : t.isLayout = false) (cur : Cursor) :
    ((⟨cur, []⟩ : Ending).lexemes (some t)).map (·.token) = [.newline, .eof] := by
  cases t <;> first | rfl | cases ht

/-- A text without a margin is read as its tokens. -/
theorem lexes_of_spells {ok : List Char → Prop} {c : Char} {text : List Char} {ks : List Token} {d : Nat}
    (hc : isFiller c = false) (hok : ok []) (hplain : ∀ k ∈ ks, k.isLayout = false)
    (h : Spells ok 0 (c :: text) ks d) : Lexes (c :: text) ks := by
  have hrest : (Cursor.ofList (c :: text)).rest = (c :: text) ++ [] := (List.append_nil _).symm
  obtain ⟨ls, rfl, hcovers, hfinds⟩ := h _ [] hrest hok
  obtain ⟨l, hlast⟩ : ∃ l, ls.getLast? = some l :=
    Option.isSome_iff_exists.1 (by simpa using hcovers.ne_nil)
  have hl := hplain l.token (List.mem_map_of_mem (List.mem_of_getLast? hlast))
  have hline := hfinds (blocksAt 0)
  rw [scan_nil (Cursor.rest_skip_length hrest)] at hline
  have hscan : scan 0 [] true (Cursor.ofList (c :: text)) =
      (scan 0 (blocksAt 0) false (Cursor.ofList (c :: text))).map fun p => ([] ++ p.1, p.2) :=
    scan_blanks (k := 0) rfl hc (align_dedent 0 0)
  rw [hline] at hscan
  refine ⟨ls ++ (⟨(Cursor.ofList (c :: text)).skip (c :: text).length, []⟩ : Ending).lexemes
    (ls.getLast?.map (·.token)), ?_, ?_⟩
  · rw [tokenize, hscan]
    simp [Except.map, bind, Except.bind, pure, Except.pure, blocksAt]
  · rw [List.map_append, hlast, Option.map_some, Ending.tokens_of_plain hl]

/-- What a piece of a text may stand behind. -/
def leftMarks : List (Char × Token) :=
  [('(', .leftParen), ('[', .leftBracket)]

/-- What a piece of a text may stand before. -/
def rightMarks : List (Char × Token) :=
  [(',', .comma), (')', .rightParen), (']', .rightBracket)]

theorem spells_leftMark {ok : List Char → Prop} {c : Char} {t : Token} (h : (c, t) ∈ leftMarks)
    (d : Nat) : t.isLayout = false ∧ isFiller c = false ∧ Spells ok d [c] [t] (d + 1) := by
  simp only [leftMarks, List.mem_cons, Prod.mk.injEq, List.not_mem_nil, or_false] at h
  rcases h with ⟨rfl, rfl⟩ | ⟨rfl, rfl⟩ <;>
    exact ⟨rfl, rfl, spells_single rfl (fun e _ _ => by simp [doubleSymbol]) rfl⟩

theorem spells_rightMark {ok : List Char → Prop} {c : Char} {t : Token} (h : (c, t) ∈ rightMarks)
    (d : Nat) : t.isLayout = false ∧ isEnd c = true ∧ ∃ d', Spells ok (d + 1) [c] [t] d' := by
  simp only [rightMarks, List.mem_cons, Prod.mk.injEq, List.not_mem_nil, or_false] at h
  rcases h with ⟨rfl, rfl⟩ | ⟨rfl, rfl⟩ | ⟨rfl, rfl⟩ <;>
    exact ⟨rfl, rfl, _, spells_single rfl (fun e _ _ => by simp [doubleSymbol]) rfl⟩

/-- Between brackets a text is read as its tokens. -/
theorem lexes_between {o m : Char} {opening closing : Token} {text : List Char} {ks : List Token}
    (ho : (o, opening) ∈ leftMarks) (hm : (m, closing) ∈ rightMarks)
    (hplain : ∀ k ∈ ks, k.isLayout = false) (h : Spells Halts 1 text ks 1) :
    Lexes (o :: text ++ [m]) (opening :: ks ++ [closing]) := by
  obtain ⟨hopening, hfiller, hspells⟩ :
      _ ∧ _ ∧ Spells (fun _ => True) 0 [o] [opening] 1 := spells_leftMark ho 0
  obtain ⟨hclosing, hend, d, hspells'⟩ := spells_rightMark hm 0
  have hwhole : Spells Halts 0 (o :: text ++ [m]) (opening :: ks ++ [closing]) d := by
    refine (hspells.append h fun _ _ => trivial).append hspells' ?_
    rintro rest - _ ⟨⟩
    exact hend
  refine lexes_of_spells hfiller nofun (fun k hk => ?_) hwhole
  rcases List.mem_append.1 hk with hk | hk
  · rcases List.mem_cons.1 hk with rfl | hk
    · exact hopening
    · exact hplain k hk
  · rw [List.mem_singleton.1 hk, hclosing]

/-- The text that some tokens cover, the brackets among them balanced and none of them a mark of the
layout, has these tokens with all that they carry: between any brackets, and by itself if no line ends in
it outside of its own brackets. -/
theorem tokenize_piece {source : List Char} {before used after : List Lexeme}
    (h : tokenize source = .ok (before ++ used ++ after)) (hne : used ≠ [])
    (hplain : ∀ l ∈ used, l.token.isLayout = false)
    (hbalanced : depthBehind 0 (used.map (·.token)) = some 0) :
    (OneLine source used → Lexes (pieceOf source used) (used.map (·.token))) ∧
      (∀ o opening m closing, (o, opening) ∈ leftMarks → (m, closing) ∈ rightMarks →
        Lexes (o :: pieceOf source used ++ [m]) (opening :: used.map (·.token) ++ [closing])) ∧
      ∀ k, Spells Halts (k + 1) (pieceOf source used) (used.map (·.token)) (k + 1) := by
  have hremains := remains_of_tokenize h
  rw [List.append_assoc] at hremains
  obtain ⟨d, -, hremains⟩ := hremains.drop
  obtain ⟨c, text, d', hspans, hc, hspells, -, -⟩ := hremains.spelt hne hplain
  have hinside : ∀ k, Spells Halts (k + 1) (c :: text) (used.map (·.token)) (k + 1) := by
    intro k
    refine hspells _ _ (portable_of_balanced hbalanced d k) ?_
    have hdepth := depthBehind_add hbalanced (k + 1)
    rwa [Nat.zero_add] at hdepth
  have htokens : ∀ t ∈ used.map (·.token), t.isLayout = false := by simpa using hplain
  rw [hspans.piece]
  refine ⟨fun hline => ?_, fun o opening m closing ho hm => ?_, hinside⟩
  · exact lexes_of_spells hc nofun htokens (hspells 0 0 (hline.portable d) hbalanced)
  · exact lexes_between ho hm htokens (hinside 0)

/-- An argument of a call is moved. A backslash joins two of its lines, and there is a comment between its
brackets. -/
theorem tokenize_piece_argument :
    ∃ ks before used after,
      tokenize "x = f(-\\\n g(# c\n b), 1)\n".toList = .ok (before ++ used ++ after) ∧ used ≠ [] ∧
      (∀ l ∈ used, l.token.isLayout = false) ∧ used.map (·.token) = ks ∧
      depthBehind 0 ks = some 0 ∧ Lexes "-\\\n g(# c\n b)".toList ks ∧
      Lexes "[-\\\n g(# c\n b),".toList (.leftBracket :: ks ++ [.comma]) := by
  have h : tokenize "x = f(-\\\n g(# c\n b), 1)\n".toList = .ok
      ([⟨.ident "x", ⟨1, 1⟩, 0, 1⟩, ⟨.equal, ⟨1, 3⟩, 2, 3⟩, ⟨.ident "f", ⟨1, 5⟩, 4, 5⟩,
          ⟨.leftParen, ⟨1, 6⟩, 5, 6⟩] ++
        [⟨.minus, ⟨1, 7⟩, 6, 7⟩, ⟨.ident "g", ⟨2, 2⟩, 10, 11⟩, ⟨.leftParen, ⟨2, 3⟩, 11, 12⟩,
          ⟨.ident "b", ⟨3, 2⟩, 17, 18⟩, ⟨.rightParen, ⟨3, 3⟩, 18, 19⟩] ++
        [⟨.comma, ⟨3, 4⟩, 19, 20⟩, ⟨.int 1, ⟨3, 6⟩, 21, 22⟩, ⟨.rightParen, ⟨3, 7⟩, 22, 23⟩,
          ⟨.newline, ⟨3, 8⟩, 23, 24⟩, ⟨.eof, ⟨4, 1⟩, 24, 24⟩]) := by
    cbv
  obtain ⟨halone, hbetween, -⟩ := tokenize_piece h (by simp) (by decide) (by rfl)
  refine ⟨_, _, _, _, h, by simp, by decide, rfl, by rfl, halone ?_,
    hbetween '[' .leftBracket ',' .comma (by simp [leftMarks]) (by simp [rightMarks])⟩
  rintro (_ | ⟨_, _ | ⟨_, _ | ⟨_, _ | ⟨_, before⟩⟩⟩⟩) l l' after hsplit hdepth
  all_goals simp only [List.nil_append, List.cons_append, List.cons.injEq] at hsplit
  · obtain ⟨rfl, rfl, -⟩ := hsplit
    exact .joined (.blank (.inl rfl) .nil)
  · obtain ⟨-, rfl, rfl, -⟩ := hsplit
    exact .nil
  · obtain ⟨rfl, rfl, rfl, -⟩ := hsplit
    cases hdepth
  · obtain ⟨rfl, rfl, rfl, rfl, -⟩ := hsplit
    cases hdepth
  · obtain ⟨-, -, -, -, hlast⟩ := hsplit
    have hlength := congrArg List.length hlast
    simp only [List.length_append, List.length_cons, List.length_nil] at hlength
    omega

end LiveUI.Source
