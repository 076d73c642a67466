import LiveUI.Markup.Builder
import LiveUI.Proofs.Markup.Accepting

/-! # Left-hand sides

A left-hand side is read from a text just when it names a target by itself and the text can hold it:
the name at its front is not reserved, and its index is not the least number, whose magnitude is no
literal. -/

namespace LiveUI.Markup

open LiveUI.Source LiveUI.Source.Reader

/-! ## The tokens of a left-hand side -/

namespace Target

/-- The characters of left-hand sides, and those outside ASCII, letters and digits among them. -/
def isPart (c : Char) : Bool :=
  isWordPart c || c == '.' || c == '[' || c == ']' || c == '-' || 128 ≤ c.toNat

/-- What has no blank in it ends before a blank. -/
theorem length_le_of_run {p : Char → Bool} {run after text rest : List Char} (hp : p ' ' = false)
    (hrun : ∀ c ∈ run, p c = true) (h : text ++ ' ' :: rest = run ++ after) :
    run.length ≤ text.length := by
  rcases List.append_eq_append_iff.1 h with ⟨more, rfl, hrest⟩ | ⟨more, rfl, -⟩
  · cases more with
    | nil => simp
    | cons m more =>
        cases hrest
        have hblank := hrun ' ' (by simp)
        rw [hp] at hblank
        cases hblank
  · simp

theorem symbol?_part {c : Char} {text rest : List Char} {t : Token} {n : Nat}
    (hc : isPart c = true) (htext : ∀ e ∈ text, isPart e = true)
    (h : symbol? c (text ++ ' ' :: rest) = some (t, n)) : n = 0 ∧ t.isPassed = true := by
  have hdouble : ∀ e, e = ' ' ∨ isPart e = true → doubleSymbol c e = none := by
    intro e he
    unfold doubleSymbol
    split <;> first | rfl | (revert hc he; decide)
  have hsingle : (singleSymbol c).map (·, 0) = some (t, n) := by
    cases text with
    | nil => simpa [symbol?, hdouble ' ' (.inl rfl)] using h
    | cons e text => simpa [symbol?, hdouble e (.inr (htext e List.mem_cons_self))] using h
  obtain ⟨t', ht', heq⟩ := Option.map_eq_some_iff.1 hsingle
  cases heq
  refine ⟨rfl, ?_⟩
  unfold singleSymbol at ht'
  split at ht' <;> first | (cases ht'; first | rfl | (revert hc; decide)) | cases ht'

theorem munchNumeral_part {c : Char} {text rest : List Char} {t : Token} {n : Nat}
    (h : munchNumeral c (text ++ ' ' :: rest) = .token t n) :
    n ≤ text.length ∧ t.isPassed = true := by
  cases numeral_of_munchNumeral h with
  | whole hcs hn ht hwhole =>
      rw [hn, ht]
      exact ⟨length_le_of_run rfl hwhole hcs, rfl⟩
  | @pointed whole fraction _ d hcs hn ht hwhole hd hfraction =>
      have hrun : ∀ e ∈ whole ++ '.' :: d :: fraction, (isNumeralPart e || e == '.') = true := by
        simp only [List.forall_mem_append, List.forall_mem_cons]
        exact ⟨fun e he => by rw [hwhole e he]; rfl, rfl, by simp [isNumeralPart, hd],
          fun e he => by rw [hfraction e he]; rfl⟩
      rw [hn, ht]
      exact ⟨length_le_of_run (p := fun e => isNumeralPart e || e == '.') rfl hrun hcs, rfl⟩

/-- A token of a left-hand side ends with it, and a search for a binding operator passes it by. -/
theorem munch_part {c : Char} {text rest : List Char} {t : Token} {n : Nat}
    (hc : isPart c = true) (htext : ∀ e ∈ text, isPart e = true)
    (h : munch c (text ++ ' ' :: rest) = .token t n) : n ≤ text.length ∧ t.isPassed = true := by
  rcases munch_cases h with hsymbol | ⟨hmark, -⟩ | ⟨-, hnumeral⟩ | ⟨-, hword⟩
  · obtain ⟨rfl, ht⟩ := symbol?_part hc htext hsymbol
    exact ⟨Nat.zero_le _, ht⟩
  · rcases hmark with rfl | rfl <;> cases hc
  · exact munchNumeral_part hnumeral
  · obtain ⟨word, after, hsplit, hrun, hafter⟩ := run_split isWordPart (text ++ ' ' :: rest)
    rw [hsplit, munchWord_run hrun hafter, Munch.token.injEq] at hword
    obtain ⟨rfl, rfl⟩ := hword
    exact ⟨length_le_of_run rfl hrun hsplit, Token.isPassed_ofWord _⟩

theorem isFiller_of_isPart {c : Char} (hc : isPart c = true) : isFiller c = false := by
  rw [Bool.eq_false_iff]
  intro hfiller
  rcases cases_of_isFiller hfiller with rfl | rfl | rfl | rfl | rfl | rfl <;> cases hc

/-- Where a scan passes a left-hand side, its tokens cover the whole of it and no more. -/
theorem scan_parts {d : Nat} {bl : List Nat} {cur : Cursor} {text rest : List Char}
    {ls : List Lexeme} {e : Ending} (hne : text ≠ []) (htext : ∀ c ∈ text, isPart c = true)
    (hrest : cur.rest = text ++ ' ' :: rest) (h : scan d bl false cur = .ok (ls, e)) :
    ∃ used ls' d', ls = used ++ ls' ∧ Covers cur.offset (cur.offset + bytes text) used ∧
      (∀ k ∈ used.map (·.token), k.isPassed = true) ∧
      scan d' bl false (cur.skip text.length) = .ok (ls', e) := by
  -- Each turn takes a token off the text, up to the blank behind it.
  induction hn : text.length using Nat.strongRecOn generalizing text cur d ls with
  | ind n ih =>
      obtain ⟨c, text, rfl⟩ := List.exists_cons_of_ne_nil hne
      obtain ⟨hc, htext⟩ := List.forall_mem_cons.1 htext
      have hstart : cur.skip (gap cur.rest) = cur := by
        rw [hrest, List.cons_append, gap_cons (.inl (isFiller_of_isPart hc))]
        rfl
      obtain ⟨t, m, d', ls', ht, hd, hnext, rfl⟩ :=
        token_of_scan (by rw [hstart, hrest]; rfl) (by rintro rfl; cases hc) h
      rw [hstart] at hnext ⊢
      obtain ⟨hm, hpassed⟩ := munch_part hc htext ht
      obtain ⟨word, text, rfl, rfl⟩ : ∃ word text', text = word ++ text' ∧ m = word.length :=
        ⟨text.take m, text.drop m, (List.take_append_drop _ _).symm,
          by rw [List.length_take, Nat.min_eq_left hm]⟩
      have hword : cur.rest = (c :: word) ++ (text ++ ' ' :: rest) := by
        rw [hrest]
        simp
      have hcovers : Covers cur.offset _ [cur.lexeme (c :: word).length t] := covers_lexeme hword t
      by_cases hempty : text = []
      · subst hempty
        refine ⟨[cur.lexeme (word.length + 1) t], ls', d', rfl, ?_, by simpa [Cursor.lexeme] using hpassed, ?_⟩
        · simpa using hcovers
        · simpa [← hn] using hnext
      · have hrest' : (cur.skip (word.length + 1)).rest = text ++ ' ' :: rest :=
          Cursor.rest_skip_length hword
        have hoffset : (cur.skip (word.length + 1)).offset = cur.offset + bytes (c :: word) :=
          Cursor.offset_skip hword
        obtain ⟨used, ls'', d'', rfl, hcovers', hused, hscan⟩ :=
          ih text.length (by rw [← hn, List.length_cons, List.length_append]; omega) hempty
            (fun e he => htext e (List.mem_append_right _ he)) hrest' hnext rfl
        rw [hoffset, Nat.add_assoc, ← bytes_append] at hcovers'
        rw [← Cursor.skip_add] at hscan
        refine ⟨cur.lexeme (word.length + 1) t :: used, ls'', d'', rfl, hcovers'.cons,
          List.forall_mem_cons.2 ⟨hpassed, hused⟩, ?_⟩
        rw [← hn]
        have hlength : (c :: (word ++ text)).length = word.length + 1 + text.length := by
          simp
          omega
        rw [hlength]
        exact hscan

end Target

/-! ## The text of an assignment in a block -/

theorem scan_lineFeed {d : Nat} {bl : List Nat} {cur : Cursor} (hrest : cur.rest = ['\n']) :
    ∃ found e, scan d bl false cur = .ok (found, e) ∧ e.blocks = bl ∧
      found.map (·.token) = if d = 0 then [.newline] else [] := by
  have hstart : cur.skip (gap cur.rest) = cur := by
    rw [hrest]
    rfl
  have hend : (cur.skip 1).rest = [] := by rw [Cursor.rest_skip, hrest]; rfl
  by_cases hd : d = 0
  · subst hd
    rw [scan_newline hrest, scan_last hend]
    exact ⟨_, _, rfl, rfl, rfl⟩
  · rw [scan_line (by rw [hstart, hrest]), hstart, if_neg hd, if_neg hd, scan_nil hend]
    exact ⟨_, _, rfl, rfl, rfl⟩

/-- What is left of the tokens behind a left-hand side, with the marks that close the text. It makes
no difference whether a bracket is still open. -/
theorem scan_one {d : Nat} {bl : List Nat} {cur : Cursor} (hrest : cur.rest = " = 1\n".toList) :
    ∃ found e, scan d bl false cur = .ok (found, e) ∧ found ≠ [] ∧
      (found ++ e.lexemes (found.getLast?.map (·.token))).map (·.token) =
        .equal :: .int 1 :: .newline :: (List.replicate bl.length .dedent ++ [.eof]) := by
  have hequal : (cur.skip (gap cur.rest)).rest = '=' :: [' ', '1', '\n'] := by
    rw [Cursor.rest_skip, hrest]
    rfl
  have hone : ((((cur.skip (gap cur.rest)).skip 1).skip
      (gap ((cur.skip (gap cur.rest)).skip 1).rest))).rest = '1' :: ['\n'] := by
    rw [Cursor.rest_skip, Cursor.rest_skip, hequal]
    rfl
  have hline : ((((cur.skip (gap cur.rest)).skip 1).skip
      (gap ((cur.skip (gap cur.rest)).skip 1).rest)).skip 1).rest = ['\n'] := by
    rw [Cursor.rest_skip, hone]
    rfl
  obtain ⟨found, e, hscan, hblocks, hfound⟩ := @scan_lineFeed d bl _ hline
  have hscan' : scan d bl false _ = _ := scan_token hone (t := .int 1) (n := 0) rfl rfl
  rw [hscan] at hscan'
  have hscan'' : scan d bl false cur = _ := scan_token hequal (t := .equal) (n := 0) rfl rfl
  rw [hscan'] at hscan''
  refine ⟨_, _, hscan'', by simp, ?_⟩
  by_cases hd : d = 0
  · rw [if_pos hd] at hfound
    obtain ⟨l, rfl, hl⟩ := List.map_eq_singleton_iff.1 hfound
    simp [Ending.lexemes, Cursor.lexeme, hl, hblocks]
  · rw [if_neg hd, List.map_eq_nil_iff] at hfound
    simp [Ending.lexemes, Cursor.lexeme, hfound, hblocks]

/-- A block with one assignment of one to the left-hand side. -/
def lineOf (lhs : List Char) : List Char :=
  "W:\n    ".toList ++ (lhs ++ " = 1\n".toList)

theorem rest_lineOf (lhs : List Char) :
    ((Cursor.ofList (lineOf lhs)).skip 7).rest = lhs ++ " = 1\n".toList := by
  rw [Cursor.rest_skip]
  rfl

/-- What is found before a left-hand side. -/
theorem scan_header {lhs : List Char} (hne : lhs ≠ []) (hlhs : ∀ c ∈ lhs, Target.isPart c = true) :
    ∃ header, header.map (·.token) = [.ident "W", .colon, .newline, .indent] ∧
      scan 0 [] true (Cursor.ofList (lineOf lhs)) =
        (scan 0 [4] false ((Cursor.ofList (lineOf lhs)).skip 7)).map fun p =>
          (header ++ p.1, p.2) := by
  obtain ⟨c, text, rfl⟩ := List.exists_cons_of_ne_nil hne
  have hc := Target.isFiller_of_isPart (hlhs c List.mem_cons_self)
  generalize hcur : Cursor.ofList (lineOf (c :: text)) = cur
  have hrest : cur.rest = 'W' :: ':' :: '\n' :: (blanks 1 ++ c :: (text ++ " = 1\n".toList)) := by
    rw [← hcur]
    rfl
  have hcolon : (cur.skip 1).rest = ':' :: '\n' :: (blanks 1 ++ c :: (text ++ " = 1\n".toList)) := by
    rw [Cursor.rest_skip, hrest]
    rfl
  have hline : (cur.skip 2).rest = '\n' :: (blanks 1 ++ c :: (text ++ " = 1\n".toList)) := by
    rw [Cursor.rest_skip, hrest]
    rfl
  have hbody : (cur.skip 3).rest = blanks 1 ++ c :: (text ++ " = 1\n".toList) := by
    rw [Cursor.rest_skip, hrest]
    rfl
  have hname : Finds 0 cur [cur.lexeme 1 (.ident "W")] 0 (cur.skip 1) :=
    finds_token (show cur.rest = 'W' :: ([] ++ _) from hrest) rfl rfl
  have hopen : scan 0 [] true cur = (scan 0 [] false cur).map fun p => ([] ++ p.1, p.2) :=
    scan_blanks (k := 0) (c := 'W') hrest rfl (align_dedent 0 0)
  have hwords : scan 0 [] false cur = (scan 0 [] false (cur.skip 2)).map fun p =>
      ([cur.lexeme 1 (.ident "W"), (cur.skip 1).lexeme 1 .colon] ++ p.1, p.2) := by
    rw [Cursor.skip_add 1 1]
    exact hname.trans (finds_token (show (cur.skip 1).rest = ':' :: ([] ++ _) from hcolon) rfl rfl) []
  have hindent : scan 0 [] true (cur.skip 3) = (scan 0 [4] false (cur.skip 7)).map fun p =>
      ([(cur.skip 7).lexeme 0 .indent] ++ p.1, p.2) := by
    rw [Cursor.skip_add 3 4]
    exact scan_blanks (k := 1) hbody hc (align_indent 0)
  rw [hopen, hwords, scan_newline hline, ← Cursor.skip_add, hindent]
  refine ⟨[cur.lexeme 1 (.ident "W"), (cur.skip 1).lexeme 1 .colon, (cur.skip 2).lexeme 1 .newline,
    (cur.skip 7).lexeme 0 .indent], rfl, ?_⟩
  cases scan 0 [4] false (cur.skip 7) <;> rfl

/-- The tokens of the block, those of the left-hand side being `used`. -/
def Laid (lhs : List Char) (ls used : List Lexeme) : Prop :=
  ∃ header rest, ls = header ++ (used ++ rest) ∧
    header.map (·.token) = [.ident "W", .colon, .newline, .indent] ∧
    Spans (lineOf lhs) used lhs ∧ (∀ k ∈ used.map (·.token), k.isPassed = true) ∧
    rest.map (·.token) = [.equal, .int 1, .newline, .dedent, .eof]

/-- The block has tokens just when a scan passes the left-hand side. -/
theorem laid_of_scan {lhs : List Char} {used : List Lexeme} {d : Nat} (hne : lhs ≠ [])
    (hlhs : ∀ c ∈ lhs, Target.isPart c = true)
    (hcovers : Covers ((Cursor.ofList (lineOf lhs)).skip 7).offset
      (((Cursor.ofList (lineOf lhs)).skip 7).offset + bytes lhs) used)
    (hused : ∀ k ∈ used.map (·.token), k.isPassed = true)
    (hscan : scan 0 [4] false ((Cursor.ofList (lineOf lhs)).skip 7) =
      (scan d [4] false (((Cursor.ofList (lineOf lhs)).skip 7).skip lhs.length)).map fun p =>
        (used ++ p.1, p.2)) :
    ∃ ls, tokenize (lineOf lhs) = .ok ls ∧ Laid lhs ls used := by
  have hrest := rest_lineOf lhs
  obtain ⟨header, hheader, hopen⟩ := scan_header hne hlhs
  obtain ⟨found, e, hfound, hne', hmarks⟩ := @scan_one d [4] _ (Cursor.rest_skip_length hrest)
  rw [hscan, hfound] at hopen
  have hspans := hcovers.spans ((Cursor.in_ofList (lineOf lhs)).skip_any 7) hrest
  have hlast : (header ++ (used ++ found)).getLast? = found.getLast? := by
    obtain ⟨l, hl⟩ := Option.isSome_iff_exists.1 (List.getLast?_isSome.2 hne')
    simp [List.getLast?_append, hl]
  refine ⟨_, ?_, header, found ++ e.lexemes (found.getLast?.map (·.token)), rfl, hheader, hspans,
    hused, hmarks⟩
  rw [tokenize, hopen]
  simp only [Except.map, bind, Except.bind, pure, Except.pure, hlast, List.append_assoc]

theorem laid_of_tokenize {lhs : List Char} {ls : List Lexeme} (hne : lhs ≠ [])
    (hlhs : ∀ c ∈ lhs, Target.isPart c = true) (h : tokenize (lineOf lhs) = .ok ls) :
    ∃ used, Laid lhs ls used := by
  have hrest : ((Cursor.ofList (lineOf lhs)).skip 7).rest = lhs ++ ' ' :: "= 1\n".toList :=
    rest_lineOf lhs
  obtain ⟨header, -, hopen⟩ := scan_header hne hlhs
  cases hscan : scan 0 [4] false ((Cursor.ofList (lineOf lhs)).skip 7) with
  | error e =>
      rw [tokenize, hopen, hscan] at h
      cases h
  | ok p =>
      obtain ⟨used, ls', d', hls', hcovers, hused, hscan'⟩ := Target.scan_parts hne hlhs hrest hscan
      obtain ⟨ls'', htokens, hlaid⟩ := laid_of_scan hne hlhs hcovers hused
        (by rw [hscan, hscan']; exact congrArg (fun l => Except.ok (l, p.2)) hls')
      rw [h] at htokens
      cases htokens
      exact ⟨used, hlaid⟩

/-! ## Reading the block -/

section Reading

variable {s : Stream} {lhs : List Char} {used rest : List Lexeme} {inner : Reader Construct} {n : Nat}

theorem run_constructWith_line {q : List Token}
    (hs : s.kinds = .ident "W" :: .colon :: .newline :: .indent :: q) :
    readConstructWith inner s = (readItems inner ((s.skip 4).count + 1) (s.skip 4)).map fun p =>
      (⟨"W", [], [], [], p.1, s.here⟩, p.2) := by
  have hcolon := peek_of_kinds (kinds_tail_of hs)
  have hline := kinds_tail_of (kinds_tail_of hs)
  have hindent := peek_of_kinds (kinds_tail_of hline)
  rw [readConstructWith, run_get, bind_ok (run_identifier (peek_of_kinds hs))]
  refine (bind_ok (a := []) (show _ = Except.ok (_, s.tail) by rw [run_peek, hcolon]; rfl)).trans ?_
  refine (bind_ok (a := []) (show _ = Except.ok (_, s.tail) by rw [run_peek, hcolon]; rfl)).trans ?_
  refine (bind_ok (a := []) (show _ = Except.ok (_, s.tail) by rw [run_peek, hcolon]; rfl)).trans ?_
  have hblock : readBlock inner s.tail.tail =
      readItems inner ((s.skip 4).count + 1) (s.skip 4) := by
    rw [readBlock, bind_ok (run_exactly rfl (peek_of_kinds hline)), run_peek, hindent]
    rfl
  cases hitems : readItems inner ((s.skip 4).count + 1) (s.skip 4) with
  | error e => exact bind_error (by rw [run_peek, hcolon, ← hitems, ← hblock]; rfl)
  | ok p => exact bind_ok (by rw [run_peek, hcolon, ← hitems, ← hblock]; rfl)

theorem parse_of_readAssignment {a : Assignment} {b : Lexeme} {s' : Stream}
    (hrest : s.rest = used ++ b :: rest) (hspans : Spans s.source used lhs)
    (hused : ∀ k ∈ used.map (·.token), k.isPassed = true) (hb : b.token = .equal)
    (h : readAssignment s = .ok (a, s')) : Target.parse (String.ofList lhs) = .ok a.target := by
  rw [readAssignment, run_get] at h
  obtain ⟨t, s₁, ht, h⟩ := bind_eq_ok.1 h
  obtain ⟨op, s₂, -, h⟩ := bind_eq_ok.1 h
  obtain ⟨value, s₃, -, h⟩ := bind_eq_ok.1 h
  obtain ⟨-, s₄, -, h⟩ := bind_eq_ok.1 h
  cases h
  rw [run_readTarget hrest hspans (fun k hk => Token.of_isPassed (hused k hk)) (by rw [hb]; rfl)]
    at ht
  cases hparse : Target.parse (String.ofList lhs) with
  | error e => rw [hparse] at ht; cases ht
  | ok t' => rw [hparse] at ht; cases ht; rfl

/-- A block whose only item is an assignment has the target that its left-hand side names. -/
theorem parse_of_readItems {a : Assignment} {s' : Stream} (hrest : s.rest = used ++ rest)
    (hspans : Spans s.source used lhs) (hused : ∀ k ∈ used.map (·.token), k.isPassed = true)
    (hmarks : rest.map (·.token) = [.equal, .int 1, .newline, .dedent, .eof])
    (h : readItems inner (n + 1) s = .ok ([.assignment a], s')) :
    Target.parse (String.ofList lhs) = .ok a.target := by
  obtain ⟨b, rest, rfl, hb, hmarks⟩ := List.map_eq_cons_iff.1 hmarks
  obtain ⟨l, used, rfl⟩ := List.exists_cons_of_ne_nil hspans.ne_nil
  have hpeek : s.peek = l.token := by rw [Stream.peek, hrest]; rfl
  rw [readItems, run_get, hpeek] at h
  -- An item that does not begin with a name cannot go on to the `=` that stands here.
  cases hl : l.token with
  | ident name =>
      rw [hl] at h
      dsimp only at h
      cases hbinding : hasBinding 0 s.rest with
      | false =>
          rw [hbinding, if_neg Bool.false_ne_true] at h
          obtain ⟨item, s₁, hitem, h⟩ := bind_eq_ok.1 h
          obtain ⟨items, s₂, -, h⟩ := bind_eq_ok.1 h
          cases h
          rw [run_map] at hitem
          cases hchild : inner s with
          | error e => rw [hchild] at hitem; cases hitem
          | ok p => rw [hchild] at hitem; cases hitem
      | true =>
          rw [hbinding, if_pos rfl] at h
          obtain ⟨item, s₁, hitem, h⟩ := bind_eq_ok.1 h
          obtain ⟨items, s₂, -, h⟩ := bind_eq_ok.1 h
          cases h
          rw [run_map] at hitem
          cases hassignment : readAssignment s with
          | error e => rw [hassignment] at hitem; cases hitem
          | ok p =>
              rw [hassignment] at hitem
              cases hitem
              exact parse_of_readAssignment hrest hspans hused hb hassignment
  | pass =>
      rw [hl] at h
      change (Reader.next >>= _) s = _ at h
      rw [run_next] at h
      obtain ⟨u, s₁, hend, -⟩ := bind_eq_ok.1 h
      have hnext : s.tail.peek.isPassed = true ∨ s.tail.peek = .equal := by
        rw [Stream.peek, Stream.rest_tail, hrest]
        cases used with
        | nil => exact .inr hb
        | cons m used => exact .inl (hused _ (by simp))
      rcases peek_of_lineEnd hend with hk | hk <;>
        · rw [hk] at hnext
          rcases hnext with hnext | hnext <;> cases hnext
  | dedent =>
      rw [hl] at h
      cases h
  | _ =>
      rw [hl] at h
      cases h

theorem readItems_of_parse {t : Target} {name : String} (hrest : s.rest = used ++ rest)
    (hspans : Spans s.source used lhs) (hused : ∀ k ∈ used.map (·.token), k.isPassed = true)
    (hmarks : rest.map (·.token) = [.equal, .int 1, .newline, .dedent, .eof])
    (hname : s.peek = .ident name) (hdepth : depthBehind 0 (used.map (·.token)) = some 0)
    (ht : Target.parse (String.ofList lhs) = .ok t) :
    ∃ a s', readItems inner (n + 2) s = .ok ([.assignment a], s') ∧ a.target = t ∧
      s'.kinds = [.eof] := by
  obtain ⟨b, rest, rfl, hb, hmarks⟩ := List.map_eq_cons_iff.1 hmarks
  have hbinding : hasBinding 0 s.rest = true := by
    rw [hrest, hasBinding_append hused hdepth, hasBinding, hb]
    rfl
  have hskip : (s.skip used.length).kinds = [.equal, .int 1, .newline, .dedent, .eof] := by
    rw [Stream.kinds_skip, Stream.kinds, hrest, List.map_append, List.map_cons, hb, hmarks,
      ← List.length_map (·.token), List.drop_left]
  have htarget := run_readTarget hrest hspans (fun k hk => Token.of_isPassed (hused k hk))
    (by rw [hb]; rfl)
  rw [ht] at htarget
  generalize s.skip used.length = s₁ at hskip htarget
  have hone := kinds_tail_of hskip
  obtain ⟨value, hvalue⟩ : ∃ value, Expression.read s₁.tail = .ok (value, s₁.tail.tail) :=
    ⟨_, Expression.read_of_derives (q := [.newline, .dedent, .eof])
      ((Expr.Derives.int 1).loose (by decide)) hone (Expr.Level.ends_of_isClosing rfl _ _)⟩
  have hline : s₁.tail.tail.kinds = [.newline, .dedent, .eof] := kinds_tail_of hone
  have hend := kinds_tail_of hline
  have hassignment : readAssignment s =
      .ok (⟨t, .default, value, s.here⟩, s₁.tail.tail.tail) := by
    rw [readAssignment, run_get, bind_ok htarget]
    refine (bind_ok (a := .default) (show _ = Except.ok (_, s₁.tail) by
      rw [readOperator, run_next, peek_of_kinds hskip]; rfl)).trans ?_
    rw [bind_ok hvalue, bind_ok (run_lineEnd (peek_of_kinds hline))]
    rfl
  have hdone : readItems inner (n + 1) s₁.tail.tail.tail = .ok ([], s₁.tail.tail.tail.tail) := by
    rw [readItems, run_get, peek_of_kinds hend]
    rfl
  refine ⟨⟨t, .default, value, s.here⟩, _, ?_, rfl, kinds_tail_of hend⟩
  rw [readItems, run_get, hname]
  dsimp only
  rw [hbinding, if_pos rfl]
  refine (bind_ok (show _ = Except.ok (_, s₁.tail.tail.tail) by rw [run_map, hassignment]; rfl)).trans
    ?_
  exact bind_ok hdone

theorem run_readAll_line {q : List Token}
    (hs : s.kinds = .ident "W" :: .colon :: .newline :: .indent :: q) :
    readAll s = (readConstructWith (readConstructTo s.count) s).bind fun p =>
      (readModule s.count p.2).map fun p' => (.construct p.1 :: p'.1, p'.2) := by
  rw [readAll, run_remaining, readModule, run_peek, peek_of_kinds hs]
  dsimp only
  have hconstruct : readConstruct s = readConstructWith (readConstructTo s.count) s := rfl
  cases h : readConstructWith (readConstructTo s.count) s with
  | error e => exact bind_error (hconstruct.trans h)
  | ok p =>
      rw [bind_ok (hconstruct.trans h)]
      change (readModule s.count >>= _) p.2 = (readModule s.count p.2).map _
      cases h' : readModule s.count p.2 with
      | error e => exact bind_error h'
      | ok p' => exact bind_ok h'

end Reading

theorem Laid.skip {lhs : List Char} {ls used : List Lexeme} (h : Laid lhs ls used) :
    ∃ q rest, (Stream.ofLexemes (lineOf lhs) ls).kinds =
        .ident "W" :: .colon :: .newline :: .indent :: q ∧
      ((Stream.ofLexemes (lineOf lhs) ls).skip 4).rest = used ++ rest ∧
      rest.map (·.token) = [.equal, .int 1, .newline, .dedent, .eof] := by
  obtain ⟨header, rest, rfl, hheader, -, -, hmarks⟩ := h
  have hlength : header.length = 4 := by simpa using congrArg List.length hheader
  refine ⟨(used ++ rest).map (·.token), rest, ?_, ?_, hmarks⟩
  · rw [Stream.kinds]
    change (header ++ (used ++ rest)).map (·.token) = _
    rw [List.map_append, hheader]
    rfl
  · rw [Stream.rest_skip, ← hlength]
    exact List.drop_left

/-! ## The two ways to a target -/

/-- The tokens of a left-hand side that names a target, where a text can hold the target. -/
theorem Target.spells_of_parse {lhs : String} {t : Target} (h : parse lhs = .ok t)
    (ht : t.Written) :
    ∃ name ks, Spells Breaks 0 lhs.toList (.ident name :: ks) 0 ∧
      (∀ k ∈ Token.ident name :: ks, k.isPassed = true) ∧
      depthBehind 0 (.ident name :: ks) = some 0 := by
  have hdepth : ∀ attr, depthBehind 0 [Token.ofWord attr] = some 0 := by
    intro attr
    rw [depthBehind, depthAfter_ofWord]
    rfl
  rcases parse_eq_ok h with ⟨rfl, hword⟩ | ⟨n, attr, rfl, hlhs, hn, hattr⟩ |
    ⟨n, negative, ds, i, attr, rfl, hlhs, hn, hds, hattr, hi⟩
  · have hspells := spells_word (d := 0) hword
    rw [String.ofList_toList, ofWord_of_isName ht] at hspells
    exact ⟨_, _, hspells, by simp [Token.isPassed], rfl⟩
  · have hspells := (spells_word (d := 0) hn).append (spells_member hattr) fun rest _ => by
      rintro _ ⟨⟩
      rfl
    rw [← hlhs, String.ofList_toList, String.ofList_toList, ofWord_of_isName ht.1] at hspells
    exact ⟨_, _, hspells, by simpa [Token.isPassed] using Token.isPassed_ofWord attr, hdepth attr⟩
  · obtain ⟨v, hv⟩ : ∃ v, Number.int64? (Number.digitsValue ds) = some v := by
      have hmin := Int64.toInt_minValue
      have hi' := i.toInt_lt
      have hrange := ht.2.2
      rw [hi] at hi' hrange
      refine ⟨_, Number.int64?_of_fits ⟨by omega, ?_⟩⟩
      split at hi' <;> split at hrange <;> omega
    have hspells := spells_element (d := 0) negative hn hds hv hattr
    have hdepth := depthBehind_element n attr negative v
    rw [← hlhs, String.ofList_toList, String.ofList_toList, ofWord_of_isName ht.1] at hspells
    rw [ofWord_of_isName ht.1] at hdepth
    refine ⟨_, _, hspells, ?_, hdepth⟩
    cases negative <;> simpa [Token.isPassed] using Token.isPassed_ofWord attr

theorem Assignment.new_one {lhs : String} {t : Target} :
    (∃ a, Assignment.new lhs .default "1" = .ok a ∧ a.target = t) ↔ Target.parse lhs = .ok t := by
  obtain ⟨value, hvalue⟩ : ∃ value, Expression.parse "1" = .ok value := by
    have hone : (Expression.parse "1").isOk = true := by cbv
    cases h : Expression.parse "1" with
    | error e => rw [h] at hone; cases hone
    | ok value => exact ⟨value, rfl⟩
  rw [Assignment.new, hvalue]
  cases Target.parse lhs with
  | error e => simp [bind, Except.bind]
  | ok t' => simp [bind, Except.bind, pure, Except.pure]

theorem toList_line (lhs : String) :
    ("W:\n    " ++ lhs ++ " = 1\n").toList = lineOf lhs.toList := by
  rw [String.toList_append, String.toList_append, List.append_assoc]
  unfold lineOf
  with_reducible rfl

theorem parse_of_line {lhs : String} (hlhs : ∀ c ∈ lhs.toList, Target.isPart c = true)
    {m : Module} {c : Construct} {a : Assignment}
    (hparse : Module.parse ("W:\n    " ++ lhs ++ " = 1\n") = .ok m)
    (hitems : m.items = [.construct c]) (hbody : c.body = [.assignment a]) :
    Target.parse lhs = .ok a.target := by
  by_cases hne : lhs.toList = []
  · obtain rfl : lhs = "" := by simpa using hne
    have hrefused : (Module.parse ("W:\n    " ++ "" ++ " = 1\n")).isOk = false := by cbv
    rw [hparse] at hrefused
    cases hrefused
  · obtain ⟨ls, s', htokens, hread⟩ := Module.parse_eq_ok.1 hparse
    rw [toList_line] at htokens hread
    obtain ⟨used, hlaid⟩ := laid_of_tokenize hne hlhs htokens
    obtain ⟨q, rest, hkinds, hrest, hmarks⟩ := hlaid.skip
    obtain ⟨-, -, -, -, hspans, hused, -⟩ := hlaid
    rw [run_readAll_line hkinds, run_constructWith_line hkinds, hitems] at hread
    generalize readConstructTo _ = inner at hread
    cases hblock : readItems inner _ ((Stream.ofLexemes (lineOf lhs.toList) ls).skip 4) with
    | error e => rw [hblock] at hread; cases hread
    | ok p =>
        rw [hblock] at hread
        simp only [Except.map, Except.bind] at hread
        split at hread
        next => cases hread
        next =>
          simp only [Except.ok.injEq, Prod.mk.injEq, List.cons.injEq, Item.construct.injEq] at hread
          obtain ⟨⟨rfl, -⟩, -⟩ := hread
          rw [show p = ([.assignment a], p.2) from Prod.ext hbody rfl] at hblock
          have hspans' : Spans ((Stream.ofLexemes (lineOf lhs.toList) ls).skip 4).source used
              lhs.toList := by
            rw [Stream.source_skip]
            exact hspans
          have htarget := parse_of_readItems hrest hspans' hused hmarks hblock
          rwa [String.ofList_toList] at htarget

theorem line_of_parse {lhs : String} {t : Target} (hlhs : ∀ c ∈ lhs.toList, Target.isPart c = true)
    (h : Target.parse lhs = .ok t) (ht : t.Written) :
    ∃ m c a, Module.parse ("W:\n    " ++ lhs ++ " = 1\n") = .ok m ∧ m.items = [.construct c] ∧
      c.body = [.assignment a] ∧ a.target = t := by
  obtain ⟨name, ks, hspells, hpassed, hdepth⟩ := Target.spells_of_parse h ht
  have hne : lhs.toList ≠ [] := by
    intro hempty
    rw [Target.parse, Target.parseBy, Target.pieces?, hempty] at h
    cases h
  obtain ⟨used, hkinds, hcovers, hfinds⟩ :=
    hspells _ " = 1\n".toList (rest_lineOf lhs.toList) (by rintro _ ⟨⟩; rfl)
  rw [← hkinds] at hpassed hdepth
  obtain ⟨ls, htokens, hlaid⟩ := laid_of_scan hne hlhs hcovers hpassed (hfinds [4])
  obtain ⟨q, rest, hs, hrest, hmarks⟩ := hlaid.skip
  obtain ⟨-, -, -, -, hspans, -, -⟩ := hlaid
  have hname' : ((Stream.ofLexemes (lineOf lhs.toList) ls).skip 4).peek = .ident name := by
    refine peek_of_kinds (q := ks ++ rest.map (·.token)) ?_
    rw [Stream.kinds, hrest, List.map_append, hkinds]
    rfl
  have hspans' : Spans ((Stream.ofLexemes (lineOf lhs.toList) ls).skip 4).source used
      lhs.toList := by
    rw [Stream.source_skip]
    exact hspans
  obtain ⟨n, hn⟩ : ∃ n, ((Stream.ofLexemes (lineOf lhs.toList) ls).skip 4).count = n + 1 := by
    refine ⟨_, (Nat.succ_pred_eq_of_pos ?_).symm⟩
    rw [Stream.count_eq, hrest, List.length_append]
    have := List.length_pos_iff.2 hspans.ne_nil
    omega
  obtain ⟨m, hm⟩ : ∃ m, (Stream.ofLexemes (lineOf lhs.toList) ls).count = m + 1 :=
    ⟨_, count_cons hs⟩
  obtain ⟨a, s', hitems, hat, hend⟩ : ∃ a s', readItems (readConstructTo (m + 1)) (n + 2) _ =
      .ok ([.assignment a], s') ∧ a.target = t ∧ s'.kinds = [.eof] :=
    readItems_of_parse hrest hspans' hpassed hmarks hname' hdepth (by rwa [String.ofList_toList])
  have hlast : readModule (m + 1) s' = .ok ([], s') := by
    rw [readModule, run_peek, peek_of_kinds hend]
    rfl
  have hread : readAll (Stream.ofLexemes (lineOf lhs.toList) ls) =
      .ok ([.construct ⟨"W", [], [], [], [.assignment a],
        (Stream.ofLexemes (lineOf lhs.toList) ls).here⟩], s') := by
    rw [run_readAll_line hs, run_constructWith_line hs, hn, hm, hitems]
    simp only [Except.map, Except.bind, hlast]
  rw [← toList_line] at htokens hread
  exact ⟨⟨_⟩, _, a, Module.parse_eq_ok.2 ⟨ls, s', htokens, hread⟩, rfl, rfl, hat⟩

theorem written_of_line {source : String} {m : Module} {c : Construct} {a : Assignment}
    (hparse : Module.parse source = .ok m) (hitems : m.items = [.construct c])
    (hbody : c.body = [.assignment a]) : a.target.Written := by
  have hwritten : c.Written := Module.written_of_parse hparse (.construct c) (by simp [hitems])
  cases hwritten with
  | intro _ _ _ _ _ hassignments _ => exact (hassignments a (by simp [hbody])).1

/-- **Left-hand sides in a text.** A text with an assignment is read with a target just when the
left-hand side by itself names the target and the target can be written. -/
theorem line_iff_assignment {lhs : String} (hlhs : ∀ c ∈ lhs.toList, Target.isPart c = true)
    (t : Target) :
    (∃ m c a, Module.parse ("W:\n    " ++ lhs ++ " = 1\n") = .ok m ∧ m.items = [.construct c] ∧
        c.body = [.assignment a] ∧ a.target = t) ↔
      (∃ a, Assignment.new lhs .default "1" = .ok a ∧ a.target = t) ∧ t.Written := by
  rw [Assignment.new_one]
  constructor
  · rintro ⟨m, c, a, hparse, hitems, hbody, rfl⟩
    exact ⟨parse_of_line hlhs hparse hitems hbody, written_of_line hparse hitems hbody⟩
  · exact fun h => line_of_parse hlhs h.1 h.2

/-- The index of minus zero is zero in both ways. -/
theorem line_iff_assignment_minusZero :
    (∀ c ∈ "a[-0].b".toList, Target.isPart c = true) ∧
      ∃ m c a, Module.parse ("W:\n    " ++ "a[-0].b" ++ " = 1\n") = .ok m ∧
        m.items = [.construct c] ∧ c.body = [.assignment a] ∧ a.target = .element "a" 0 "b" := by
  have hparts : ∀ c ∈ "a[-0].b".toList, Target.isPart c = true :=
    List.all_eq_true.1 (by cbv)
  have hwritten : Target.Written (.element "a" 0 "b") := by
    refine ⟨by decide, by decide, by decide⟩
  have hparse : Target.parse "a[-0].b" = .ok (.element "a" 0 "b") := by cbv
  exact ⟨hparts, (line_iff_assignment hparts _).2 ⟨Assignment.new_one.2 hparse, hwritten⟩⟩

/-- A reserved word is a left-hand side by itself, and none in a text. -/
theorem reserved_word_disagrees :
    (∃ a, Assignment.new "if" .default "1" = .ok a ∧ a.target = .own "if") ∧
      ∀ m, Module.parse "W:\n    if = 1\n" ≠ .ok m := by
  have hparse : Target.parse "if" = .ok (.own "if") := by cbv
  refine ⟨Assignment.new_one.2 hparse, fun m hm => ?_⟩
  have hrefused : (Module.parse "W:\n    if = 1\n").isOk = false := by cbv
  rw [hm] at hrefused
  cases hrefused

end LiveUI.Markup
