import LiveUI.Proofs.Source.Moving

/-! # Line endings

With a carriage return before every line feed a text has the same tokens, provided that no backslash joins
two of its lines: a backslash before a carriage return is refused. -/

namespace LiveUI.Source

/-- The text with a carriage return before each line feed. -/
def crlf (cs : List Char) : List Char :=
  cs.flatMap fun c => if c = '\n' then ['\r', '\n'] else [c]

@[simp]
theorem crlf_append (cs cs' : List Char) : crlf (cs ++ cs') = crlf cs ++ crlf cs' :=
  List.flatMap_append

theorem crlf_newline (cs : List Char) : crlf ('\n' :: cs) = '\r' :: '\n' :: crlf cs :=
  rfl

theorem crlf_cons {c : Char} (h : c ≠ '\n') (cs : List Char) : crlf (c :: cs) = c :: crlf cs := by
  simp [crlf, h]

/-- Nothing is changed inside of a line. -/
theorem crlf_of_line {cs : List Char} (h : '\n' ∉ cs) : crlf cs = cs := by
  induction cs with
  | nil => rfl
  | cons c cs ih =>
      rw [List.mem_cons, not_or] at h
      rw [crlf_cons (Ne.symm h.1), ih h.2]

/-- A token ends where it ended with the other line ends. -/
theorem ends_crlf (cs : List Char) : Ends cs (crlf cs) := by
  have hhead : ∀ rest, Halts (crlf ('\n' :: rest)) := by
    rintro rest _ ⟨⟩
    rfl
  cases cs with
  | nil => exact .halts nofun
  | cons c cs =>
      by_cases hc : c = '\n'
      · subst hc
        exact .halts (hhead cs)
      · rw [crlf_cons hc]
        refine .same rfl ?_
        cases cs with
        | nil => exact .inl rfl
        | cons d cs =>
            by_cases hd : d = '\n'
            · subst hd
              exact .inr (hhead cs)
            · rw [crlf_cons hd]
              exact .inl rfl

/-! ## Gaps -/

theorem gap_margin {b : List Char} (hb : ∀ c ∈ b, isMargin c = true) (cs : List Char) :
    gap (b ++ cs) = b.length + gap cs := by
  induction b with
  | nil => simp
  | cons c b ih =>
      obtain ⟨hc, hb⟩ := List.forall_mem_cons.1 hb
      have hblank : c = ' ' ∨ c = '\t' ∨ c = '\r' := by simpa [isMargin, or_assoc] using hc
      rw [List.cons_append, gap_blank hblank, ih hb, List.length_cons]
      omega

/-- A gap that goes up to the end of a line goes up to a carriage return before it. -/
theorem gap_crlf {g cs : List Char} (hline : '\n' ∉ g) (h : gap (g ++ '\n' :: cs) = g.length)
    (cs' : List Char) : gap (g ++ '\r' :: '\n' :: cs') = g.length + 1 := by
  have hnewline : ∀ cs, gap ('\n' :: cs) = 0 := gap_cons (.inr rfl)
  obtain ⟨b, rest, rfl, hb, hrest⟩ := exists_margin g
  rw [List.append_assoc] at h ⊢
  rw [gap_margin hb, List.length_append] at h ⊢
  have hgap : gap (rest ++ '\n' :: cs) = rest.length := Nat.add_left_cancel h
  suffices hreturn : gap (rest ++ '\r' :: '\n' :: cs') = rest.length + 1 by rw [hreturn, Nat.add_assoc]
  cases rest with
  | nil => rw [List.nil_append, gap_blank (.inr (.inr rfl)), hnewline]; rfl
  | cons c rest =>
      have hline' : '\n' ∉ c :: rest := fun hmem => hline (List.mem_append_right b hmem)
      by_cases hc : c = '#'
      · subst hc
        have hrun : ∀ r ∈ rest, decide (r ≠ '\n') = true := by
          intro r hr
          rw [decide_eq_true_eq]
          rintro rfl
          exact hline' (List.mem_cons_of_mem _ hr)
        have hcomment : ∀ r ∈ rest ++ ['\r'], decide (r ≠ '\n') = true :=
          List.forall_mem_append.2 ⟨hrun, by simp⟩
        have htake := takeWhile_append_stop hcomment
          (show ∀ d ∈ ('\n' :: cs').head?, decide (d ≠ '\n') = false by simp)
        rw [List.append_assoc] at htake
        rw [List.cons_append, gap]
        exact congrArg (· + 1) ((congrArg List.length htake).trans List.length_append)
      · -- What else is passed over has the end of a line in it.
        exfalso
        rw [List.cons_append, gap.eq_def] at hgap
        split at hgap
        next heq => cases heq
        next heq =>
          cases rest with
          | nil =>
              rw [List.length_singleton] at hgap
              omega
          | cons d rest =>
              cases heq
              exact hline' (by simp)
        next heq => exact hc (List.cons.inj heq).1
        next heq =>
          cases heq
          have hblank : ¬(c = ' ' ∨ c = '\t' ∨ c = '\r') := by
            simpa [isMargin, and_assoc] using hrest c rfl
          rw [if_neg hblank] at hgap
          cases hgap

/-- The first line feed in a gap stands behind a backslash that stands behind blanks. -/
theorem exists_join {cs : List Char} (h : '\n' ∈ cs.take (gap cs)) :
    ∃ b rest, cs = b ++ '\\' :: '\n' :: rest ∧ ∀ c ∈ b, isMargin c = true := by
  fun_induction gap cs with
  | case1 => cases h
  | case2 cs _ => exact ⟨[], cs, rfl, by simp⟩
  | case3 cs =>
      have hline : '\n' ∉ '#' :: cs.takeWhile (· ≠ '\n') := by
        simpa using fun hmem => by simpa using List.mem_takeWhile_imp hmem
      rw [List.take_succ_cons] at h
      have htake : cs.take (cs.takeWhile (· ≠ '\n')).length = cs.takeWhile (· ≠ '\n') :=
        (List.prefix_iff_eq_take.1 (List.takeWhile_prefix _)).symm
      rw [htake] at h
      exact absurd h hline
  | case4 c cs _ _ hblank ih =>
      rw [List.take_succ_cons, List.mem_cons] at h
      have hc : '\n' ≠ c := by rintro rfl; simp at hblank
      obtain ⟨b, rest, rfl, hb⟩ := ih (h.resolve_left hc)
      refine ⟨c :: b, rest, rfl, List.forall_mem_cons.2 ⟨?_, hb⟩⟩
      simpa [isMargin, or_assoc] using hblank
  | case5 => cases h

/-! ## Tokens on one line -/

theorem line_of_forall {p : Char → Bool} {cs : List Char} (h : ∀ c ∈ cs, p c = true)
    (hp : p '\n' = false) : '\n' ∉ cs := by
  intro hmem
  rw [h _ hmem] at hp
  cases hp

/-- No token but a string goes over the end of a line. -/
theorem munch_line {c : Char} {text cs : List Char} {t : Token}
    (h : munch c (text ++ cs) = .token t text.length) (ht : ∀ v, t ≠ .str v) : '\n' ∉ text := by
  rcases munch_cases h with hsymbol | ⟨-, hstring⟩ | ⟨-, hnumeral⟩ | ⟨-, hword⟩
  · cases text with
    | nil => exact List.not_mem_nil
    | cons d text =>
        simp only [List.cons_append, symbol?] at hsymbol
        cases hdouble : doubleSymbol c d with
        | none => simp [hdouble] at hsymbol
        | some t' =>
            obtain ⟨-, rfl⟩ : t' = t ∧ text = [] := by simpa [hdouble] using hsymbol
            intro hmem
            obtain rfl := List.mem_singleton.1 hmem
            rw [doubleSymbol_of_isStop c rfl] at hdouble
            cases hdouble
  · obtain ⟨v, rfl, -⟩ := munchString_eq_token hstring
    exact absurd rfl (ht _)
  · cases numeral_of_munchNumeral hnumeral with
    | whole hcs hn _ hwhole =>
        obtain ⟨rfl, -⟩ := List.append_inj hcs hn
        exact line_of_forall hwhole rfl
    | @pointed _ _ _ d hcs hn _ hwhole hd hfraction =>
        obtain ⟨rfl, -⟩ := List.append_inj hcs hn
        have hd' : '\n' ≠ d := by rintro rfl; cases hd
        simpa [line_of_forall hwhole rfl, hd'] using line_of_forall hfraction rfl
  · rw [munchWord, Munch.token.injEq] at hword
    exact line_of_forall (run_of_length hword.2).1 rfl

/-- No string goes over the end of a line. -/
def StringsOnLines (source : List Char) (ls : List Lexeme) : Prop :=
  ∀ l ∈ ls, ∀ v, l.token = .str v → '\n' ∉ slice source l.start l.stop

/-! ## Turns -/

theorem Cursor.rest_skip_of_length {cur : Cursor} {text rest : List Char} {n : Nat}
    (h : cur.rest = text ++ rest) (hn : text.length = n) : (cur.skip n).rest = rest :=
  hn ▸ rest_skip_length h

theorem slice_lexeme {source text rest : List Char} {cur : Cursor} {t : Token} (h : cur.In source)
    (hrest : cur.rest = text ++ rest) :
    slice source (cur.lexeme text.length t).start (cur.lexeme text.length t).stop = text := by
  obtain ⟨before, hsource, hoffset⟩ := h
  have hstop : (cur.lexeme text.length t).stop = bytes before + bytes text := by
    rw [← hoffset]
    exact Cursor.offset_skip hrest
  have hstart : (cur.lexeme text.length t).start = bytes before := hoffset
  rw [hstart, hstop, hsource, hrest, slice_append]

/-- No token goes over the end of a line where no string does. -/
theorem munch_line_of_strings {source text cs : List Char} {cur : Cursor} {c : Char} {t : Token}
    (hin : cur.In source) (hrest : cur.rest = c :: (text ++ cs))
    (ht : munch c (text ++ cs) = .token t text.length)
    (hstrings : StringsOnLines source [cur.lexeme (text.length + 1) t]) : '\n' ∉ text := by
  by_cases hstr : ∃ v, t = .str v
  · obtain ⟨v, rfl⟩ := hstr
    have hslice := hstrings _ (List.mem_singleton.2 rfl) v rfl
    have hplace : cur.rest = (c :: text) ++ cs := hrest
    have hall : slice source (cur.lexeme (text.length + 1) (.str v)).start
        (cur.lexeme (text.length + 1) (.str v)).stop = c :: text :=
      slice_lexeme hin hplace
    rw [hall] at hslice
    exact fun hmem => hslice (List.mem_cons_of_mem c hmem)
  · exact munch_line ht (not_exists.1 hstr)

/-- A backslash joins the line with the next one before the next token. -/
def Stage.Joins (s : Stage) : Prop :=
  s.fresh = false ∧ '\n' ∈ s.cur.rest.take (gap s.cur.rest)

theorem align_kinds {bl bl' : List Nat} {w : Nat} {cur : Cursor} {marks : List Lexeme}
    (h : align bl w cur = .ok (marks, bl')) (cur' : Cursor) :
    ∃ marks', align bl w cur' = .ok (marks', bl') ∧
      marks'.map (·.token) = marks.map (·.token) := by
  simp only [align] at h ⊢
  split at h
  next hw =>
    cases h
    exact ⟨_, if_pos hw, rfl⟩
  next hw =>
    rw [if_neg hw]
    split at h
    next hleft =>
      cases h
      exact ⟨_, if_pos hleft, by simp [Cursor.lexeme]⟩
    next => cases h

variable {s s₁ : Stage} {ms ls : List Lexeme} {source : List Char} {cur' : Cursor}

/-- The text in a gap that no backslash joins with the next line. -/
theorem line_of_not_joins {d : Nat} {bl : List Nat} {cur : Cursor} {g rest : List Char}
    (hrest : cur.rest = g ++ rest) (hg : gap cur.rest = g.length)
    (hjoin : ¬Stage.Joins ⟨d, bl, false, cur⟩) : '\n' ∉ g := by
  intro hmem
  refine hjoin ⟨rfl, ?_⟩
  change '\n' ∈ cur.rest.take (gap cur.rest)
  rwa [hg, hrest, List.take_left]

theorem crlf_gap {d : Nat} {bl : List Nat} {cur cur' : Cursor} {g cs : List Char}
    (hrest : cur.rest = g ++ '\n' :: cs) (hg : gap cur.rest = g.length)
    (hjoin : ¬Stage.Joins ⟨d, bl, false, cur⟩) (hcur : cur'.rest = crlf cur.rest) :
    cur'.rest = (g ++ ['\r']) ++ '\n' :: crlf cs ∧ gap cur'.rest = (g ++ ['\r']).length ∧
      (cur.skip (g.length + 1)).rest = cs ∧
      (cur'.skip ((g ++ ['\r']).length + 1)).rest = crlf cs := by
  have hline := line_of_not_joins hrest hg hjoin
  have hrest' : cur'.rest = (g ++ ['\r']) ++ '\n' :: crlf cs := by
    simp [hcur, hrest, crlf_of_line hline, crlf_newline]
  have hend : cur.rest = (g ++ ['\n']) ++ cs := by simpa using hrest
  have hend' : cur'.rest = (g ++ ['\r'] ++ ['\n']) ++ crlf cs := by simpa using hrest'
  refine ⟨hrest', ?_, Cursor.rest_skip_of_length hend (by simp),
    Cursor.rest_skip_of_length hend' (by simp)⟩
  rw [hrest] at hg
  rw [hrest', List.append_assoc, List.length_append]
  exact gap_crlf hline hg _

/-- A turn over the text with the other line ends, if no line is joined. -/
theorem Turn.crlf (h : Turn s ms s₁) (hjoin : ¬s.Joins) (hin : s.cur.In source)
    (hstrings : StringsOnLines source ms) (hcur : cur'.rest = crlf s.cur.rest) :
    ∃ ms' cur₁, Turn ⟨s.depth, s.blocks, s.fresh, cur'⟩ ms' ⟨s₁.depth, s₁.blocks, s₁.fresh, cur₁⟩ ∧
      ms'.map (·.token) = ms.map (·.token) ∧ cur₁.rest = Source.crlf s₁.cur.rest := by
  -- A carriage return is blank on an empty line and text in a comment. Elsewhere it ends the gap or
  -- the token before it, as the line feed does.
  cases h with
  | @blank d bl cur m cs hrest hm =>
      have hline := line_of_forall hm rfl
      have hrest' : cur'.rest = (m ++ ['\r']) ++ '\n' :: Source.crlf cs := by
        simp [hcur, hrest, crlf_of_line hline, crlf_newline]
      have hmargin : ∀ c ∈ m ++ ['\r'], isMargin c = true :=
        List.forall_mem_append.2 ⟨hm, by simp [isMargin]⟩
      refine ⟨_, _, .blank hrest' hmargin, rfl, ?_⟩
      have hend : cur.rest = (m ++ ['\n']) ++ cs := by simpa using hrest
      have hend' : cur'.rest = (m ++ ['\r'] ++ ['\n']) ++ Source.crlf cs := by simpa using hrest'
      rw [Cursor.rest_skip_of_length hend (by simp), Cursor.rest_skip_of_length hend' (by simp)]
  | @comment d bl cur m text cs hrest hm htext =>
      have hline := line_of_forall hm rfl
      have hrest' : cur'.rest = m ++ '#' :: ((text ++ ['\r']) ++ '\n' :: Source.crlf cs) := by
        simp [hcur, hrest, crlf_of_line hline, crlf_of_line htext, crlf_newline, crlf_cons]
      refine ⟨_, _, .comment hrest' hm (by simpa using htext), rfl, ?_⟩
      have hend : cur.rest = (m ++ '#' :: (text ++ ['\n'])) ++ cs := by simpa using hrest
      have hend' : cur'.rest = (m ++ '#' :: (text ++ ['\r'] ++ ['\n'])) ++ Source.crlf cs := by
        simpa using hrest'
      rw [Cursor.rest_skip_of_length hend (by simp; omega),
        Cursor.rest_skip_of_length hend' (by simp; omega)]
  | @lastComment d bl cur m text hrest hm htext =>
      have hline := line_of_forall hm rfl
      have hrest' : cur'.rest = m ++ '#' :: text := by
        simp [hcur, hrest, crlf_of_line hline, crlf_of_line htext, crlf_cons]
      refine ⟨_, _, .lastComment hrest' hm htext, rfl, ?_⟩
      have hend : ∀ {u : Cursor}, u.rest = m ++ '#' :: text →
          (u.skip (m.length + text.length + 2)).rest = [] := by
        intro u hu
        rw [Cursor.rest_skip, hu, List.drop_eq_nil_iff, List.length_append, List.length_cons]
        omega
      rw [hend hrest, hend hrest']
      rfl
  | @layout d bl bl' cur m cs c marks hrest hm hc halign =>
      have hline := line_of_forall hm rfl
      have hc' := (opensLine_iff.1 hc).2.1
      have hrest' : cur'.rest = m ++ c :: Source.crlf cs := by
        simp [hcur, hrest, crlf_of_line hline, crlf_cons hc']
      obtain ⟨marks', halign', hkinds⟩ := align_kinds halign (cur'.skip m.length)
      refine ⟨marks', _, .layout hrest' hm hc halign', hkinds, ?_⟩
      rw [Cursor.rest_skip_length hrest, Cursor.rest_skip_length hrest', crlf_cons hc']
  | @newline bl cur g cs hrest hg =>
      obtain ⟨hrest', hg', hend, hend'⟩ := crlf_gap hrest hg hjoin hcur
      exact ⟨_, _, .newline hrest' hg', rfl, by rw [hend, hend']⟩
  | @joined d bl cur g cs hrest hg hd =>
      obtain ⟨hrest', hg', hend, hend'⟩ := crlf_gap hrest hg hjoin hcur
      exact ⟨_, _, .joined hrest' hg' hd, rfl, by rw [hend, hend']⟩
  | @token d d' bl cur g text cs c t hrest hg ht hd =>
      have hline := line_of_not_joins hrest hg hjoin
      have hfiller := isFiller_of_munch ht
      have hc : c ≠ '\n' := by rintro rfl; cases hfiller
      have htext := munch_line_of_strings (hin.skip hrest) (Cursor.rest_skip_length hrest) ht hstrings
      have hrest' : cur'.rest = g ++ c :: (text ++ Source.crlf cs) := by
        simp [hcur, hrest, crlf_of_line hline, crlf_of_line htext, crlf_cons hc]
      have hg' : gap cur'.rest = g.length := by
        rw [hrest] at hg
        rw [hrest']
        exact gap_append (.inl hfiller) hg
      refine ⟨_, _, .token hrest' hg' (munch_append (ends_crlf cs) ht) hd, rfl, ?_⟩
      have hend : cur.rest = (g ++ c :: text) ++ cs := by simpa using hrest
      have hend' : cur'.rest = (g ++ c :: text) ++ Source.crlf cs := by simpa using hrest'
      rw [Cursor.rest_skip_of_length hend (by simp), Cursor.rest_skip_of_length hend' (by simp)]

/-- A joined line is refused with the other line ends. -/
theorem Stage.Joins.fails (h : s.Joins) (hcur : cur'.rest = crlf s.cur.rest) :
    ∃ p, Fails ⟨s.depth, s.blocks, s.fresh, cur'⟩ ⟨.unexpectedCharacter '\\', p, none⟩ := by
  obtain ⟨d, bl, fresh, cur⟩ := s
  obtain ⟨rfl, hmem⟩ := h
  obtain ⟨b, rest, hrest, hb⟩ := exists_join hmem
  change cur.rest = _ at hrest
  have hrest' : cur'.rest = b ++ '\\' :: '\r' :: '\n' :: crlf rest := by
    simp [hcur, hrest, crlf_of_line (line_of_forall hb rfl), crlf_newline, crlf_cons]
  have hg : gap cur'.rest = b.length := by
    rw [hrest', gap_margin hb]
    rfl
  exact ⟨_, .fault hrest' hg (by decide) (by cbv)⟩

/-- At the end of a text nothing changes. -/
theorem Stage.AtEnd.crlf (h : s.AtEnd) (hjoin : ¬s.Joins) (hcur : cur'.rest = Source.crlf s.cur.rest) :
    Stage.AtEnd ⟨s.depth, s.blocks, s.fresh, cur'⟩ := by
  obtain ⟨d, bl, fresh, cur⟩ := s
  cases fresh with
  | true =>
      have hmargin : ∀ c ∈ cur.rest, isMargin c = true := h
      change ∀ c ∈ cur'.rest, _
      rwa [hcur, crlf_of_line (line_of_forall hmargin rfl)]
  | false =>
      have hgap : gap cur.rest = cur.rest.length := h
      have hline := line_of_not_joins (List.append_nil cur.rest).symm hgap hjoin
      change gap cur'.rest = cur'.rest.length
      rwa [hcur, crlf_of_line hline]

/-! ## Whole texts -/

/-- Turns over the text with the other line ends, if no line is joined on the way. -/
theorem Leads.crlf (h : Leads s ls s₁) (hjoin : ∀ found s', Leads s found s' → ¬s'.Joins)
    (hin : s.cur.In source) (hstrings : StringsOnLines source ls)
    (hcur : cur'.rest = Source.crlf s.cur.rest) :
    ∃ ls' cur₁, Leads ⟨s.depth, s.blocks, s.fresh, cur'⟩ ls' ⟨s₁.depth, s₁.blocks, s₁.fresh, cur₁⟩ ∧
      ls'.map (·.token) = ls.map (·.token) ∧ cur₁.rest = Source.crlf s₁.cur.rest := by
  induction h generalizing cur' with
  | here => exact ⟨[], cur', .here, rfl, hcur⟩
  | @turn s s₂ s₁ ms ls hturn hleads ih =>
      obtain ⟨text, htext, hskip⟩ := hturn.passes
      obtain ⟨ms', cur₂, hturn', hms, hcur₂⟩ := hturn.crlf (hjoin [] s .here) hin
        (fun l hl => hstrings l (List.mem_append_left _ hl)) hcur
      obtain ⟨ls', cur₁, hleads', hls, hcur₁⟩ := ih
        (fun found s' h => hjoin _ s' (.turn hturn h)) (hskip ▸ hin.skip htext)
        (fun l hl => hstrings l (List.mem_append_right _ hl)) hcur₂
      exact ⟨_, cur₁, .turn hturn' hleads', by rw [List.map_append, hms, hls, List.map_append], hcur₁⟩

/-- The first joined line on the way is refused. -/
theorem Leads.crlf_fails (h : Leads s ls s₁) (hjoins : s₁.Joins) (hin : s.cur.In source)
    (hstrings : StringsOnLines source ls) (hcur : cur'.rest = Source.crlf s.cur.rest) :
    ∃ ls' s' p, Leads ⟨s.depth, s.blocks, s.fresh, cur'⟩ ls' s' ∧
      Fails s' ⟨.unexpectedCharacter '\\', p, none⟩ := by
  induction h generalizing cur' with
  | here =>
      obtain ⟨p, hfails⟩ := hjoins.fails hcur
      exact ⟨[], _, p, .here, hfails⟩
  | @turn s s₂ s₁ ms ls hturn hleads ih =>
      by_cases hfirst : s.Joins
      · obtain ⟨p, hfails⟩ := hfirst.fails hcur
        exact ⟨[], _, p, .here, hfails⟩
      · -- No line is joined yet, so the turn is made over the text with the other line ends as well.
        obtain ⟨text, htext, hskip⟩ := hturn.passes
        obtain ⟨ms', cur₂, hturn', -, hcur₂⟩ := hturn.crlf hfirst hin
          (fun l hl => hstrings l (List.mem_append_left _ hl)) hcur
        obtain ⟨ls', s', p, hleads', hfails⟩ := ih hjoins (hskip ▸ hin.skip htext)
          (fun l hl => hstrings l (List.mem_append_right _ hl)) hcur₂
        exact ⟨_, s', p, .turn hturn' hleads', hfails⟩

/-- A backslash joins two lines of the text. -/
def JoinsLines (source : List Char) : Prop :=
  ∃ found s, Leads (.start source) found s ∧ s.Joins

theorem Ending.kinds_eq {e e' : Ending} (h : e.blocks = e'.blocks) (last : Option Token) :
    (e.lexemes last).map (·.token) = (e'.lexemes last).map (·.token) := by
  simp only [lexemes, h, Cursor.lexeme, List.map_append, List.map_replicate, List.map_singleton]
  congr 2
  split <;> rfl

/-- **Line endings.** A text no string of which goes over the end of a line has the same tokens with a
carriage return before every line feed, unless a backslash joins two of its lines. In that case it is
refused, for the backslash. -/
theorem tokenize_crlf {source : List Char} {ls : List Lexeme} (h : tokenize source = .ok ls)
    (hstrings : StringsOnLines source ls) :
    (¬JoinsLines source →
      ∃ ls', tokenize (crlf source) = .ok ls' ∧ ls'.map (·.token) = ls.map (·.token)) ∧
    (JoinsLines source →
      ∃ p, tokenize (crlf source) = .error ⟨.unexpectedCharacter '\\', p, none⟩) := by
  obtain ⟨found, s, hleads, hend, rfl⟩ := tokenize_eq_ok.1 h
  have hin : (Stage.start source).cur.In source := Cursor.in_ofList source
  have hcur : (Cursor.ofList (crlf source)).rest = crlf (Stage.start source).cur.rest := rfl
  constructor
  · intro hjoins
    have hno : ∀ found s', Leads (.start source) found s' → ¬s'.Joins :=
      fun found s' hleads hs' => hjoins ⟨found, s', hleads, hs'⟩
    obtain ⟨found', cur', hleads', hfound, hcur'⟩ := hleads.crlf hno hin
      (fun l hl => hstrings l (List.mem_append_left _ hl)) hcur
    refine ⟨_, tokenize_eq_ok.2 ⟨found', _, hleads', hend.crlf (hno _ _ hleads) hcur', rfl⟩, ?_⟩
    have hlast : found'.getLast?.map (·.token) = found.getLast?.map (·.token) := by
      rw [← List.getLast?_map, hfound, List.getLast?_map]
    have hblocks : (Stage.ending ⟨s.depth, s.blocks, s.fresh, cur'⟩).blocks = s.ending.blocks := rfl
    rw [List.map_append, hfound, hlast, List.map_append, Ending.kinds_eq hblocks]
  · rintro ⟨found₁, s₁, hleads₁, hs₁⟩
    obtain ⟨more, rfl⟩ := hleads.exists_append hend hleads₁
    obtain ⟨ls', s', p, hleads', hfails⟩ := hleads₁.crlf_fails hs₁ hin (fun l hl =>
      hstrings l (List.mem_append_left _ (List.mem_append_left _ hl))) hcur
    exact ⟨p, tokenize_eq_error.2 ⟨ls', s', hleads', hfails⟩⟩

/-- A text in which no strings are found. -/
theorem exists_tokenize_of_kinds {source : List Char} {ks : List Token}
    (h : (tokenize source).toOption.map (·.map (·.token)) = some ks) (hks : ∀ v, .str v ∉ ks) :
    ∃ ls, tokenize source = .ok ls ∧ StringsOnLines source ls := by
  obtain ⟨ls, hls, rfl⟩ := exists_tokenize h
  exact ⟨ls, hls, fun _ hl v hv => absurd (hv ▸ List.mem_map_of_mem hl) (hks v)⟩

/-- A block with a comment on its header, and two lines that a backslash joins. -/
theorem tokenize_crlf_block :
    (∃ ls ls', tokenize "a: # b\n c\n".toList = .ok ls ∧ StringsOnLines "a: # b\n c\n".toList ls ∧
      ¬JoinsLines "a: # b\n c\n".toList ∧ tokenize (crlf "a: # b\n c\n".toList) = .ok ls' ∧
      ls'.map (·.token) = ls.map (·.token)) ∧
    ∃ ls p, tokenize "a\\\n(b)".toList = .ok ls ∧ StringsOnLines "a\\\n(b)".toList ls ∧
      JoinsLines "a\\\n(b)".toList ∧
      tokenize (crlf "a\\\n(b)".toList) = .error ⟨.unexpectedCharacter '\\', p, none⟩ := by
  constructor
  · have hkinds : (tokenize "a: # b\n c\n".toList).toOption.map (·.map (·.token)) =
        some [.ident "a", .colon, .newline, .indent, .ident "c", .newline, .dedent, .eof] := by
      cbv
    have hreturns : (tokenize (crlf "a: # b\n c\n".toList)).isOk = true := by cbv
    obtain ⟨ls, hls, hstrings⟩ := exists_tokenize_of_kinds hkinds (by simp)
    obtain ⟨hsame, hrefused⟩ := tokenize_crlf hls hstrings
    have hjoins : ¬JoinsLines "a: # b\n c\n".toList := by
      intro hjoins
      obtain ⟨p, herror⟩ := hrefused hjoins
      rw [herror] at hreturns
      cases hreturns
    obtain ⟨ls', hls', heq⟩ := hsame hjoins
    exact ⟨ls, ls', hls, hstrings, hjoins, hls', heq⟩
  · have hkinds : (tokenize "a\\\n(b)".toList).toOption.map (·.map (·.token)) =
        some [.ident "a", .leftParen, .ident "b", .rightParen, .newline, .eof] := by
      cbv
    have hname : Leads (.start "a\\\n(b)".toList) _ _ :=
      .turn (@Turn.layout 0 [] [] _ [] _ 'a' [] rfl (by simp) rfl rfl) <|
        .turn (@Turn.token 0 0 [] _ [] [] _ 'a' (.ident "a") rfl rfl (by cbv) rfl) .here
    have hjoins : JoinsLines "a\\\n(b)".toList := ⟨_, _, hname, rfl, by decide⟩
    obtain ⟨ls, hls, hstrings⟩ := exists_tokenize_of_kinds hkinds (by simp)
    obtain ⟨p, herror⟩ := (tokenize_crlf hls hstrings).2 hjoins
    exact ⟨ls, p, hls, hstrings, hjoins, herror⟩

/-- Not every text keeps its tokens: a sum over two lines that a backslash joins is refused. -/
theorem crlf_refuses_joined :
    ¬∀ source ls, '\r' ∉ source → tokenize source = .ok ls → StringsOnLines source ls →
      ∃ ls', tokenize (crlf source) = .ok ls' ∧ ls'.map (·.token) = ls.map (·.token) := by
  intro hall
  have hkinds : (tokenize "x = 1 + \\\n 2\n".toList).toOption.map (·.map (·.token)) =
      some [.ident "x", .equal, .int 1, .plus, .int 2, .newline, .eof] := by
    cbv
  have hrefused : (tokenize (crlf "x = 1 + \\\n 2\n".toList)).isOk = false := by cbv
  obtain ⟨ls, hls, hstrings⟩ := exists_tokenize_of_kinds hkinds (by simp)
  obtain ⟨ls', hls', -⟩ := hall _ ls (by decide) hls hstrings
  rw [hls'] at hrefused
  cases hrefused

end LiveUI.Source
