import LiveUI.Proofs.Source.Stages

/-! # Stages in another place

A scan that starts further on in a text finds the same tokens further on. What it finds in whole lines
does not depend on the lines that follow, and all of it stands in the text that it goes over. -/

namespace LiveUI.Source

/-! ## Moving down -/

def Position.down (n : Nat) (p : Position) : Position :=
  ⟨p.line + n, p.col⟩

/-- The token `k` bytes and `n` lines further on. -/
def Lexeme.moved (k n : Nat) (l : Lexeme) : Lexeme :=
  ⟨l.token, l.pos.down n, l.start + k, l.stop + k⟩

def SyntaxError.down (n : Nat) (e : SyntaxError) : SyntaxError :=
  { e with pos := e.pos.down n }

namespace Cursor

/-- The same text `k` bytes and `n` lines further on. -/
def moved (k n : Nat) (cur : Cursor) : Cursor :=
  ⟨cur.rest, cur.offset + k, cur.pos.down n⟩

variable (k n : Nat)

theorem advance_down (p : Position) (c : Char) :
    advance (p.down n) c = (advance p c).down n := by
  simp only [advance, Position.down]
  split
  · rw [Nat.add_right_comm]
  · rfl

theorem skip_moved (m : Nat) (cur : Cursor) :
    (cur.moved k n).skip m = (cur.skip m).moved k n := by
  induction m generalizing cur with
  | zero => rfl
  | succ m ih =>
      obtain ⟨rest, offset, pos⟩ := cur
      cases rest with
      | nil => rfl
      | cons c cs =>
          have hnext : (⟨cs, offset + k + c.utf8Size, advance (pos.down n) c⟩ : Cursor) =
              moved k n ⟨cs, offset + c.utf8Size, advance pos c⟩ := by
            rw [moved, advance_down, Nat.add_right_comm]
          exact (congrArg (skip m) hnext).trans (ih _)

theorem lexeme_moved (m : Nat) (cur : Cursor) (t : Token) :
    (cur.moved k n).lexeme m t = (cur.lexeme m t).moved k n := by
  rw [lexeme, skip_moved]
  rfl

end Cursor

section Moved

variable (k n : Nat)

def Stage.moved (s : Stage) : Stage :=
  ⟨s.depth, s.blocks, s.fresh, s.cur.moved k n⟩

theorem align_moved (bl : List Nat) (w : Nat) (cur : Cursor) :
    align bl w (cur.moved k n) =
      ((align bl w cur).map fun p => (p.1.map (·.moved k n), p.2)).mapError (·.down n) := by
  simp only [align, Cursor.lexeme_moved]
  split
  · rfl
  · split
    · simp [Except.map, Except.mapError]
    · rfl

variable {s s' : Stage} {ms ls : List Lexeme} {e : SyntaxError}

theorem Turn.moved (h : Turn s ms s') :
    Turn (s.moved k n) (ms.map (·.moved k n)) (s'.moved k n) := by
  cases h <;> simp only [Stage.moved, ← Cursor.skip_moved, List.map_nil, List.map_cons,
    ← Cursor.lexeme_moved]
  case blank hrest hm => exact .blank hrest hm
  case comment hrest hm htext => exact .comment hrest hm htext
  case lastComment hrest hm htext => exact .lastComment hrest hm htext
  case layout hrest hm hc halign =>
    refine .layout hrest hm hc ?_
    rw [Cursor.skip_moved, align_moved, halign]
    rfl
  case newline hrest hg => exact .newline hrest hg
  case joined hrest hg hd => exact .joined hrest hg hd
  case token hrest hg ht hd => exact .token hrest hg ht hd

theorem Leads.moved (h : Leads s ls s') :
    Leads (s.moved k n) (ls.map (·.moved k n)) (s'.moved k n) := by
  induction h with
  | here => exact .here
  | turn hturn _ ih =>
      rw [List.map_append]
      exact .turn (hturn.moved k n) ih

theorem Fails.moved (h : Fails s e) : Fails (s.moved k n) (e.down n) := by
  cases h with
  | unindent hrest hm hc halign =>
      refine .unindent hrest hm hc ?_
      rw [Cursor.skip_moved, align_moved, halign]
      rfl
  | @fault _ _ cur g _ _ _ m hrest hg hc hfault =>
      have hpos : (((cur.moved k n).skip g.length).skip m).pos =
          (((cur.skip g.length).skip m).pos.down n) := by
        rw [Cursor.skip_moved, Cursor.skip_moved]
        rfl
      rw [SyntaxError.down, ← hpos]
      exact .fault hrest hg hc hfault
  | @unmatched _ _ cur g _ _ _ _ hrest hg ht hd =>
      have hpos : ((cur.moved k n).skip g.length).pos = ((cur.skip g.length).pos.down n) := by
        rw [Cursor.skip_moved]
        rfl
      rw [SyntaxError.down, ← hpos]
      exact .unmatched hrest hg ht hd

theorem Stage.ending_moved (s : Stage) :
    (s.moved k n).ending = ⟨s.ending.cur.moved k n, s.ending.blocks⟩ :=
  congrArg (Ending.mk · s.blocks) (Cursor.skip_moved k n s.cur.rest.length s.cur)

/-- A scan of the text further on. -/
theorem Stage.scan_moved (s : Stage) :
    (s.moved k n).scan = (s.scan.map fun p =>
      (p.1.map (·.moved k n), (⟨p.2.cur.moved k n, p.2.blocks⟩ : Ending))).mapError (·.down n) := by
  obtain ⟨ls, s', hleads, hend | ⟨e, hfails⟩⟩ := s.exists_leads
  · have hend' : (s'.moved k n).AtEnd := hend
    rw [hleads.scan, hend.scan, (hleads.moved k n).scan, hend'.scan, s'.ending_moved]
    simp [Except.map, Except.mapError]
  · rw [hleads.scan, hfails.scan, (hleads.moved k n).scan, (hfails.moved k n).scan]
    rfl

theorem Ending.lexemes_moved (e : Ending) (last : Option Token) :
    (⟨e.cur.moved k n, e.blocks⟩ : Ending).lexemes last = (e.lexemes last).map (·.moved k n) := by
  simp only [lexemes, Cursor.lexeme_moved, List.map_append, List.map_replicate, List.map_cons,
    List.map_nil]
  congr 2
  split <;> rfl

end Moved

/-! ## What follows -/

/-- The same place before another text. -/
def Cursor.before (rest : List Char) (cur : Cursor) : Cursor :=
  ⟨rest, cur.offset, cur.pos⟩

theorem Cursor.skip_before {cur : Cursor} {text rest : List Char} (rest' : List Char)
    (h : cur.rest = text ++ rest) :
    (cur.before (text ++ rest')).skip text.length = (cur.skip text.length).before rest' := by
  induction text generalizing cur with
  | nil => rfl
  | cons c text ih =>
      obtain ⟨_, offset, pos⟩ := cur
      subst h
      have hrest : (⟨text ++ rest, offset + c.utf8Size, advance pos c⟩ : Cursor).rest =
        text ++ rest := rfl
      exact ih hrest

def Stage.before (rest : List Char) (s : Stage) : Stage :=
  ⟨s.depth, s.blocks, s.fresh, s.cur.before rest⟩

/-- The text, if any, ends with a line feed. -/
def EndsLine (cs : List Char) : Prop :=
  ∀ c ∈ cs.getLast?, c = '\n'

theorem EndsLine.of_append {cs cs' : List Char} (h : EndsLine (cs ++ cs')) : EndsLine cs' := by
  intro c hc
  exact h c (by rw [List.getLast?_append, Option.mem_def.1 hc, Option.some_or]; rfl)

theorem EndsLine.newline_mem {cs : List Char} (h : EndsLine cs) (hne : cs ≠ []) : '\n' ∈ cs := by
  have hlast := List.getLast?_eq_some_getLast hne
  exact h _ hlast ▸ List.getLast_mem hne

/-- A token before the end of a line is found whatever comes on the next lines. -/
theorem EndsLine.ends {cs : List Char} (h : EndsLine cs) (hne : cs ≠ []) (rest rest' : List Char) :
    Ends (cs ++ rest) (cs ++ rest') := by
  obtain ⟨c, cs, rfl⟩ := List.exists_cons_of_ne_nil hne
  cases cs with
  | nil =>
      obtain rfl : c = '\n' := h c rfl
      refine .halts ?_
      rintro _ ⟨⟩
      rfl
  | cons d cs => exact .same rfl (.inl rfl)

section Following

variable {d : Nat} {bl : List Nat} {cur : Cursor} {s s' : Stage} {ms ls : List Lexeme}
  {x y post text cs : List Char}

/-- A cursor that passes over `text` inside of `x` does so whatever follows `x`. -/
theorem Cursor.skip_split {n : Nat} (post' : List Char) (hrest : cur.rest = text ++ cs)
    (hn : text.length = n) (hx : cur.rest = x ++ post) (hy : (cur.skip n).rest = y ++ post) :
    cs = y ++ post ∧ x = text ++ y ∧
      (cur.skip n).before (y ++ post') = (cur.before (x ++ post')).skip n := by
  subst hn
  obtain rfl : cs = y ++ post := by rw [← hy, Cursor.rest_skip_length hrest]
  obtain rfl : x = text ++ y := by
    rw [hrest, ← List.append_assoc] at hx
    exact (List.append_cancel_right hx).symm
  refine ⟨rfl, rfl, ?_⟩
  rw [List.append_assoc]
  exact (Cursor.skip_before _ hrest).symm

/-- A token behind the text `g` is the same one whatever follows it. -/
theorem Cursor.lexeme_before {g rest : List Char} (rest' : List Char)
    (h : cur.rest = g ++ (text ++ rest)) (t : Token) :
    ((cur.before (g ++ (text ++ rest'))).skip g.length).lexeme text.length t =
      (cur.skip g.length).lexeme text.length t := by
  rw [skip_before _ h, lexeme, skip_before _ (rest_skip_length h)]
  rfl

/-- A cursor that skips passes over a text. -/
theorem Cursor.exists_skipped (n : Nat) (cur : Cursor) :
    ∃ text, cur.rest = text ++ (cur.skip n).rest ∧ cur.skip n = cur.skip text.length := by
  induction n generalizing cur with
  | zero => exact ⟨[], rfl, rfl⟩
  | succ n ih =>
      obtain ⟨rest, offset, pos⟩ := cur
      cases rest with
      | nil => exact ⟨[], rfl, rfl⟩
      | cons c cs =>
          obtain ⟨text, hrest, hskip⟩ := ih ⟨cs, offset + c.utf8Size, advance pos c⟩
          exact ⟨c :: text, congrArg (c :: ·) hrest, hskip⟩

/-- A turn inside of whole lines does not depend on the lines that follow. -/
theorem Turn.before (post' : List Char) (h : Turn s ms s') (hx : s.cur.rest = x ++ post)
    (hy : s'.cur.rest = y ++ post) (hline : EndsLine x) (hinside : y = [] → s'.fresh = true) :
    Turn (s.before (x ++ post')) ms (s'.before (y ++ post')) := by
  cases h with
  | @blank d bl cur m cs hrest hm =>
      obtain ⟨rfl, rfl, hskip⟩ := Cursor.skip_split post'
        (show cur.rest = (m ++ ['\n']) ++ cs by simpa using hrest) (by simp) hx hy
      have hrest' : (cur.before (m ++ ['\n'] ++ y ++ post')).rest = m ++ '\n' :: (y ++ post') := by
        simp [Cursor.before]
      simp only [Stage.before, hskip]
      exact .blank hrest' hm
  | @comment d bl cur m text cs hrest hm htext =>
      obtain ⟨rfl, rfl, hskip⟩ := Cursor.skip_split post'
        (show cur.rest = (m ++ '#' :: (text ++ ['\n'])) ++ cs by simpa using hrest)
        (by simp; omega) hx hy
      have hrest' : (cur.before (m ++ '#' :: (text ++ ['\n']) ++ y ++ post')).rest =
          m ++ '#' :: (text ++ '\n' :: (y ++ post')) := by
        simp [Cursor.before]
      simp only [Stage.before, hskip]
      exact .comment hrest' hm htext
  | @lastComment d bl cur m text hrest hm htext =>
      -- The comment is not followed by a line feed, so no whole line ends with it.
      exfalso
      have hend : (cur.skip (m.length + text.length + 2)).rest = [] := by
        rw [Cursor.rest_skip, hrest, List.drop_eq_nil_iff, List.length_append, List.length_cons]
        omega
      obtain ⟨rfl, rfl⟩ := List.append_eq_nil_iff.1 (hy.symm.trans hend)
      rw [List.append_nil] at hx
      obtain rfl : m ++ '#' :: text = x := hrest.symm.trans hx
      have hmem := hline.of_append.newline_mem (List.cons_ne_nil _ _)
      exact htext (List.mem_of_ne_of_mem (by decide) hmem)
  | @layout d bl bl' cur m cs c marks hrest hm hc halign =>
      have hne : y ≠ [] := fun h => Bool.false_ne_true (hinside h)
      obtain ⟨hcs, rfl, hskip⟩ := Cursor.skip_split post' hrest rfl hx hy
      obtain ⟨c', y, rfl⟩ := List.exists_cons_of_ne_nil hne
      cases hcs
      have hrest' : (cur.before (m ++ c :: y ++ post')).rest = m ++ c :: (y ++ post') := by
        simp [Cursor.before]
      simp only [Stage.before, hskip]
      refine .layout hrest' hm hc ?_
      rw [← hskip]
      exact halign
  | @newline bl cur g cs hrest hg =>
      obtain ⟨rfl, rfl, hskip⟩ := Cursor.skip_split post'
        (show cur.rest = (g ++ ['\n']) ++ cs by simpa using hrest) (by simp) hx hy
      have hrest' : (cur.before (g ++ ['\n'] ++ y ++ post')).rest = g ++ '\n' :: (y ++ post') := by
        simp [Cursor.before]
      have hlexeme : ((cur.before (g ++ ['\n'] ++ y ++ post')).skip g.length).lexeme 1 .newline =
          (cur.skip g.length).lexeme 1 .newline := by
        rw [List.append_assoc, List.append_assoc]
        exact Cursor.lexeme_before (y ++ post') hrest .newline
      simp only [Stage.before, hskip]
      rw [← hlexeme]
      refine .newline hrest' ?_
      rw [hrest] at hg
      rw [hrest']
      exact gap_append (.inr rfl) hg
  | @joined d bl cur g cs hrest hg hd =>
      obtain ⟨rfl, rfl, hskip⟩ := Cursor.skip_split post'
        (show cur.rest = (g ++ ['\n']) ++ cs by simpa using hrest) (by simp) hx hy
      have hrest' : (cur.before (g ++ ['\n'] ++ y ++ post')).rest = g ++ '\n' :: (y ++ post') := by
        simp [Cursor.before]
      simp only [Stage.before, hskip]
      refine .joined hrest' ?_ hd
      rw [hrest] at hg
      rw [hrest']
      exact gap_append (.inr rfl) hg
  | @token d d' bl cur g text cs c t hrest hg ht hd =>
      have hne : y ≠ [] := fun h => Bool.false_ne_true (hinside h)
      obtain ⟨rfl, rfl, hskip⟩ := Cursor.skip_split post'
        (show cur.rest = (g ++ c :: text) ++ cs by simpa using hrest) (by simp) hx hy
      have hrest' : (cur.before (g ++ c :: text ++ y ++ post')).rest =
          g ++ c :: (text ++ (y ++ post')) := by
        simp [Cursor.before]
      have hlexeme : ((cur.before (g ++ c :: text ++ y ++ post')).skip g.length).lexeme
          (text.length + 1) t = (cur.skip g.length).lexeme (text.length + 1) t := by
        rw [List.append_assoc, List.append_assoc]
        exact Cursor.lexeme_before (y ++ post') hrest t
      simp only [Stage.before, hskip]
      rw [← hlexeme]
      refine .token hrest' ?_ (munch_append (hline.of_append.ends hne post post') ht) hd
      rw [hrest] at hg
      rw [hrest']
      exact gap_append (.inl (isFiller_of_munch ht)) hg

/-- A turn passes over a text. -/
theorem Turn.passes (h : Turn s ms s') :
    ∃ text, s.cur.rest = text ++ s'.cur.rest ∧ s'.cur = s.cur.skip text.length := by
  cases h with
  | blank | comment | lastComment | layout | newline | joined | token =>
      exact Cursor.exists_skipped _ _

theorem Leads.passes (h : Leads s ls s') :
    ∃ text, s.cur.rest = text ++ s'.cur.rest ∧ s'.cur = s.cur.skip text.length := by
  induction h with
  | here => exact ⟨[], rfl, rfl⟩
  | turn hturn _ ih =>
      obtain ⟨text, hrest, hcur⟩ := hturn.passes
      obtain ⟨text', hrest', hcur'⟩ := ih
      refine ⟨text ++ text', ?_, ?_⟩
      · rw [hrest, hrest', List.append_assoc]
      · rw [hcur', hcur, ← Cursor.skip_add, List.length_append]

theorem Leads.weight_le (h : Leads s ls s') : s'.weight ≤ s.weight := by
  induction h with
  | here => exact Nat.le_refl _
  | turn hturn _ ih => exact Nat.le_trans ih (Nat.le_of_lt hturn.weight_lt)

/-- What is found in whole lines does not depend on the lines that follow. -/
theorem Leads.before (post' : List Char) (h : Leads s ls s') (hx : s.cur.rest = x ++ s'.cur.rest)
    (hline : EndsLine x) (hfresh : s'.fresh = true) :
    Leads (s.before (x ++ post')) ls (s'.before post') := by
  induction h generalizing x with
  | @here s =>
      obtain rfl : x = [] := List.append_left_eq_self.1 hx.symm
      exact .here
  | @turn s s₁ s' ms ls hturn hleads ih =>
      obtain ⟨text, htext, -⟩ := hturn.passes
      obtain ⟨y, hy, -⟩ := hleads.passes
      obtain rfl : x = text ++ y := by
        rw [htext, hy, ← List.append_assoc] at hx
        exact (List.append_cancel_right hx).symm
      refine .turn (hturn.before post' hx hy hline ?_) (ih hy hline.of_append hfresh)
      -- Nothing but the start of a line is left to be passed where no character is.
      rintro rfl
      have hle := hleads.weight_le
      rw [Stage.weight, Stage.weight, hfresh, hy] at hle
      cases hs₁ : s₁.fresh with
      | true => rfl
      | false => simp [hs₁] at hle

end Following

/-! ## Places -/

/-- The token stands in the text that starts at a byte offset. -/
def Lexeme.Lies (l : Lexeme) (offset : Nat) (text : List Char) : Prop :=
  ∃ u v w, text = u ++ (v ++ w) ∧ l.start = offset + bytes u ∧ l.stop = l.start + bytes v

namespace Lexeme.Lies

variable {l : Lexeme} {offset : Nat} {text : List Char}

theorem append_left (h : l.Lies offset text) (rest : List Char) : l.Lies offset (text ++ rest) := by
  obtain ⟨u, v, w, rfl, hstart, hstop⟩ := h
  exact ⟨u, v, w ++ rest, by simp, hstart, hstop⟩

theorem append_right {before : List Char} (h : l.Lies (offset + bytes before) text) :
    l.Lies offset (before ++ text) := by
  obtain ⟨u, v, w, rfl, hstart, hstop⟩ := h
  exact ⟨before ++ u, v, w, by simp, by rw [hstart, bytes_append, Nat.add_assoc], hstop⟩

/-- A token that takes no text. -/
theorem behind (hstart : l.start = offset + bytes text) (hstop : l.stop = offset + bytes text) :
    l.Lies offset text :=
  ⟨text, [], [], by simp, hstart, by rw [hstart, hstop]; rfl⟩

end Lexeme.Lies

theorem Cursor.lexeme_lies {cur : Cursor} {g text rest : List Char} (t : Token)
    (h : cur.rest = g ++ (text ++ rest)) :
    ((cur.skip g.length).lexeme text.length t).Lies cur.offset (g ++ text) :=
  ⟨g, text, [], by simp, offset_skip h, offset_skip (rest_skip_length h)⟩

section Lying

variable {s s' : Stage} {ms ls : List Lexeme} {x : List Char}

theorem Turn.lies (h : Turn s ms s') (hx : s.cur.rest = x ++ s'.cur.rest) :
    ∀ l ∈ ms, l.Lies s.cur.offset x := by
  intro l hl
  cases h with
  | blank | comment | lastComment | joined => cases hl
  | layout hrest hm hc halign =>
      rw [Cursor.rest_skip_length hrest] at hx
      obtain rfl := List.append_cancel_right (hx.symm.trans hrest)
      have hoffset := Cursor.offset_skip hrest
      rcases align_marks halign l hl with rfl | rfl <;> exact .behind hoffset hoffset
  | @newline bl cur g cs hrest hg =>
      obtain rfl := List.mem_singleton.1 hl
      have hpassed : cur.rest = (g ++ ['\n']) ++ cs := by simpa using hrest
      have hend : (cur.skip (g.length + 1)).rest = cs := by
        simpa using Cursor.rest_skip_length hpassed
      rw [hend] at hx
      obtain rfl := List.append_cancel_right (hx.symm.trans hpassed)
      exact Cursor.lexeme_lies .newline hrest
  | @token d d' bl cur g text cs c t hrest hg ht hd =>
      obtain rfl := List.mem_singleton.1 hl
      have hpassed : cur.rest = (g ++ c :: text) ++ cs := by simpa using hrest
      have hend : (cur.skip (g.length + (text.length + 1))).rest = cs := by
        simpa using Cursor.rest_skip_length hpassed
      rw [hend] at hx
      obtain rfl := List.append_cancel_right (hx.symm.trans hpassed)
      exact Cursor.lexeme_lies t hrest

theorem Leads.lies (h : Leads s ls s') (hx : s.cur.rest = x ++ s'.cur.rest) :
    ∀ l ∈ ls, l.Lies s.cur.offset x := by
  induction h generalizing x with
  | here => nofun
  | @turn s s₁ s' ms ls hturn hleads ih =>
      obtain ⟨text, htext, hcur⟩ := hturn.passes
      obtain ⟨y, hy, -⟩ := hleads.passes
      obtain rfl : x = text ++ y := by
        rw [htext, hy, ← List.append_assoc] at hx
        exact (List.append_cancel_right hx).symm
      intro l hl
      rcases List.mem_append.1 hl with hl | hl
      · exact (hturn.lies htext l hl).append_left y
      · refine Lexeme.Lies.append_right ?_
        rw [← Cursor.offset_skip htext, ← hcur]
        exact ih hy l hl

/-- What a scan finds stands in the text that it goes over, and so do the tokens that close it. -/
theorem Stage.scan_lies {e : Ending} (h : s.scan = .ok (ls, e)) (last : Option Token) :
    ∀ l ∈ ls ++ e.lexemes last, l.Lies s.cur.offset s.cur.rest := by
  obtain ⟨s', hleads, -, rfl⟩ := scan_eq_ok.1 h
  obtain ⟨text, htext, hcur⟩ := hleads.passes
  intro l hl
  rcases List.mem_append.1 hl with hl | hl
  · rw [htext]
    exact (hleads.lies htext l hl).append_left _
  · have hend : s'.ending.cur.offset = s.cur.offset + bytes s.cur.rest := by
      rw [Stage.ending, Cursor.offset_skip (List.append_nil _).symm, hcur,
        Cursor.offset_skip htext, Cursor.rest_skip_length htext, htext, bytes_append,
        Nat.add_assoc]
    obtain ⟨mark, -, rfl⟩ := s'.ending.lexemes_marks last l hl
    exact .behind hend hend

end Lying

/-! ## Lines -/

theorem EndsLine.append {cs cs' : List Char} (h : EndsLine cs) (h' : EndsLine cs') :
    EndsLine (cs ++ cs') := by
  intro c hc
  rw [List.getLast?_append, Option.mem_def, Option.or_eq_some_iff] at hc
  rcases hc with hc | ⟨-, hc⟩
  · exact h' c hc
  · exact h c hc

theorem EndsLine.line (cs : List Char) : EndsLine (cs ++ ['\n']) := by
  intro c hc
  rw [List.getLast?_concat] at hc
  cases hc
  rfl

namespace Cursor

variable {cur : Cursor} {text rest : List Char}

theorem line_skip (h : cur.rest = text ++ rest) :
    (cur.skip text.length).pos.line = cur.pos.line + text.count '\n' := by
  induction text generalizing cur with
  | nil => rfl
  | cons c text ih =>
      obtain ⟨_, offset, pos⟩ := cur
      subst h
      have hrest : (⟨text ++ rest, offset + c.utf8Size, advance pos c⟩ : Cursor).rest =
        text ++ rest := rfl
      refine (ih hrest).trans ?_
      rw [advance, List.count_cons]
      by_cases hc : c = '\n'
      · simp [hc]
        omega
      · simp [hc]

/-- Behind whole lines a line starts. -/
theorem pos_skip (h : cur.rest = text ++ rest) (hline : EndsLine text) (hcol : cur.pos.col = 1) :
    (cur.skip text.length).pos = ⟨cur.pos.line + text.count '\n', 1⟩ := by
  have hlines := line_skip h
  have hcol' : (cur.skip text.length).pos.col = 1 := by
    rcases List.eq_nil_or_concat' text with rfl | ⟨text, c, rfl⟩
    · exact hcol
    · obtain rfl : c = '\n' := hline c List.getLast?_concat
      rw [List.length_append, skip_add]
      rw [List.append_assoc] at h
      have hrest := rest_skip_length h
      generalize cur.skip text.length = cur' at hrest
      obtain ⟨_, offset, pos⟩ := cur'
      subst hrest
      rfl
  rw [← hlines, ← hcol']

end Cursor

end LiveUI.Source
