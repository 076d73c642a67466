import LiveUI.Proofs.Source.Alike
import LiveUI.Proofs.Source.Blocks
import LiveUI.Proofs.Source.Moving

/-! # Lines without tokens

Blank lines and comments may be put in wherever a logical line starts. What is found before them stays
where it is, and all that is found behind them is found further down. -/

namespace LiveUI.Source

/-! ## Lines without tokens -/

/-- Lines that hold nothing but blanks, or blanks and a comment. -/
inductive Silent : List Char → Prop where
  | none : Silent []
  | blank {m rest : List Char} (hm : ∀ c ∈ m, isMargin c = true) (h : Silent rest) :
      Silent (m ++ '\n' :: rest)
  | comment {m text rest : List Char} (hm : ∀ c ∈ m, isMargin c = true) (htext : '\n' ∉ text)
      (h : Silent rest) : Silent (m ++ '#' :: (text ++ '\n' :: rest))

/-- A logical line of the text `pre ++ post` starts before `post`. -/
def StartsLine (pre post : List Char) : Prop :=
  EndsLine pre ∧ ∃ found s, Leads (.start (pre ++ post)) found s ∧ s.fresh = true ∧ s.cur.rest = post

theorem Silent.endsLine {lines : List Char} (h : Silent lines) : EndsLine lines := by
  induction h with
  | none => nofun
  | @blank m rest _ _ ih =>
      have := (EndsLine.line m).append ih
      simpa using this
  | @comment m text rest _ _ _ ih =>
      have := (EndsLine.line (m ++ '#' :: text)).append ih
      simpa using this

/-- Nothing is found in lines without tokens. -/
theorem Silent.leads {lines post : List Char} (h : Silent lines) {d : Nat} {bl : List Nat}
    {cur : Cursor} (hrest : cur.rest = lines ++ post) :
    Leads ⟨d, bl, true, cur⟩ [] ⟨d, bl, true, cur.skip lines.length⟩ := by
  induction h generalizing cur with
  | none => exact .here
  | @blank m rest hm _ ih =>
      have hpassed : cur.rest = (m ++ ['\n']) ++ (rest ++ post) := by simpa using hrest
      have hturn : Turn ⟨d, bl, true, cur⟩ [] ⟨d, bl, true, cur.skip (m.length + 1)⟩ :=
        .blank (by simpa using hrest) hm
      have hlength : (m ++ '\n' :: rest).length = m.length + 1 + rest.length := by
        rw [List.length_append, List.length_cons]
        omega
      rw [hlength, Cursor.skip_add]
      exact .turn hturn (ih (by simpa using Cursor.rest_skip_length hpassed))
  | @comment m text rest hm htext _ ih =>
      have hpassed : cur.rest = (m ++ '#' :: (text ++ ['\n'])) ++ (rest ++ post) := by
        simpa using hrest
      have hturn : Turn ⟨d, bl, true, cur⟩ [] ⟨d, bl, true, cur.skip (m.length + text.length + 2)⟩ :=
        .comment (by simpa using hrest) hm htext
      have hlength : (m ++ '#' :: (text ++ '\n' :: rest)).length =
          m.length + text.length + 2 + rest.length := by
        simp only [List.length_append, List.length_cons]
        omega
      have hskipped : (m ++ '#' :: (text ++ ['\n'])).length = m.length + text.length + 2 := by
        simp only [List.length_append, List.length_cons, List.length_nil]
        omega
      rw [hlength, Cursor.skip_add]
      refine .turn hturn (ih ?_)
      rw [← hskipped]
      exact Cursor.rest_skip_length hpassed

/-- A cursor that has come to a line by way of others is further down. -/
theorem Cursor.skip_silent {cur : Cursor} {lines : List Char} (hlines : Silent lines)
    (hcol : cur.pos.col = 1) :
    (cur.before (lines ++ cur.rest)).skip lines.length =
      cur.moved (bytes lines) (lines.count '\n') := by
  have hrest : (cur.before (lines ++ cur.rest)).rest = lines ++ cur.rest := rfl
  have hplace := rest_skip_length hrest
  have hoffset := offset_skip hrest
  have hpos := pos_skip hrest hlines.endsLine hcol
  generalize (cur.before (lines ++ cur.rest)).skip lines.length = cur' at hplace hoffset hpos
  obtain ⟨rest', offset', pos'⟩ := cur'
  subst hplace hoffset hpos
  rw [moved, Position.down, hcol]
  rfl

/-- Lines without tokens put in where a line starts: what is found before them stays, and what is found
behind them is moved. -/
theorem StartsLine.insert {pre post lines : List Char} (h : StartsLine pre post)
    (hlines : Silent lines) :
    ∃ found, (found = [] ∨ found.getLast?.map (·.token) = some .newline) ∧
      (∀ l ∈ found, l.Lies 0 pre) ∧
      ∃ r : Except SyntaxError (List Lexeme),
        (∀ ls, r = .ok ls → ∀ l ∈ ls, l.Lies (bytes pre) post) ∧
        tokenize (pre ++ post) = r.map (found ++ ·) ∧
        tokenize (pre ++ (lines ++ post)) =
          ((r.map (·.map (·.moved (bytes lines) (lines.count '\n')))).mapError
            (·.down (lines.count '\n'))).map (found ++ ·) := by
  obtain ⟨hline, found, s, hleads, hfresh, rfl⟩ := h
  obtain ⟨text, htext, hcur⟩ := hleads.passes
  obtain rfl : text = pre := (List.append_cancel_right htext).symm
  have hplace : (Stage.start (text ++ s.cur.rest)).cur.rest = text ++ s.cur.rest := rfl
  have hcol : s.cur.pos.col = 1 := by rw [hcur, Cursor.pos_skip hplace hline rfl]
  have hoffset : s.cur.offset = bytes text := by
    rw [hcur, Cursor.offset_skip hplace]
    exact Nat.zero_add _
  have hbehind := (Stage.Behind.start (text ++ s.cur.rest)).leads hleads
  have hlast := (hbehind.fresh hfresh).2
  rw [List.nil_append, List.map_eq_nil_iff, List.getLast?_map] at hlast
  -- The turns before the lines are the same, and the lines lead on without a token, to the column where
  -- they started.
  have hleads' : Leads (.start (text ++ (lines ++ s.cur.rest))) found
      (s.moved (bytes lines) (lines.count '\n')) := by
    obtain ⟨d, bl, fresh, cur⟩ := s
    subst hfresh
    have hbefore := hleads.before (lines ++ cur.rest) htext hline rfl
    have hover : Leads ⟨d, bl, true, cur.before (lines ++ cur.rest)⟩ []
        ⟨d, bl, true, (cur.before (lines ++ cur.rest)).skip lines.length⟩ := hlines.leads rfl
    rw [Cursor.skip_silent hlines hcol] at hover
    rw [← List.append_nil found]
    exact hbefore.trans hover
  refine ⟨found, hlast, hleads.lies hplace, s.scan.map fun p => p.1 ++
    p.2.lexemes ((found ++ p.1).getLast?.map (·.token)), ?_, ?_, ?_⟩
  · intro ls hls
    cases hscan : s.scan with
    | error e => rw [hscan] at hls; cases hls
    | ok p =>
        rw [hscan] at hls
        cases hls
        rw [← hoffset]
        exact Stage.scan_lies hscan _
  · rw [tokenize_eq, hleads.scan]
    cases s.scan <;> simp [Except.map]
  · rw [tokenize_eq, hleads'.scan, s.scan_moved]
    cases s.scan with
    | error e => rfl
    | ok p =>
        have hkinds : ((found ++ p.1.map (·.moved (bytes lines) (lines.count '\n'))).getLast?.map
            (·.token)) = (found ++ p.1).getLast?.map (·.token) := by
          rw [← List.getLast?_map, ← List.getLast?_map, List.map_append, List.map_map,
            List.map_append]
          rfl
        simp only [Except.map, Except.mapError, hkinds, Ending.lexemes_moved, List.map_append,
          List.append_assoc]

/-! ## Streams -/

theorem Lexeme.Lies.start_eq {l : Lexeme} {offset : Nat} {text : List Char} (h : l.Lies offset text) :
    ∃ u v, text = u ++ v ∧ l.start = offset + bytes u := by
  obtain ⟨u, v, w, rfl, hstart, -⟩ := h
  exact ⟨u, v ++ w, rfl, hstart⟩

theorem Lexeme.Lies.stop_eq {l : Lexeme} {offset : Nat} {text : List Char} (h : l.Lies offset text) :
    ∃ n, l.stop = offset + n ∧ n ≤ bytes text := by
  obtain ⟨u, v, w, rfl, hstart, hstop⟩ := h
  refine ⟨bytes u + bytes v, by rw [hstop, hstart, Nat.add_assoc], ?_⟩
  rw [bytes_append, bytes_append]
  omega

/-- The tokens of a text into which lines without tokens have been put, and those of the text, have the
same texts: a run of tokens on one line is not torn apart. -/
theorem Stream.Alike.insert {pre post lines : List Char} {found ls : List Lexeme} {n : Nat}
    (hlast : found = [] ∨ found.getLast?.map (·.token) = some .newline)
    (hfound : ∀ l ∈ found, l.Lies 0 pre) (hls : ∀ l ∈ ls, l.Lies (bytes pre) post) :
    (Stream.ofLexemes (pre ++ post) (found ++ ls)).Alike
      (.ofLexemes (pre ++ (lines ++ post)) (found ++ ls.map (·.moved (bytes lines) n))) where
  kinds := by
    simp only [Stream.kinds, Stream.ofLexemes, List.map_append, List.map_map]
    rfl
  text {i j l l' m m'} hij hline hl hl' hm hm' := by
    simp only [Stream.ofLexemes] at hl hl' hm hm' ⊢
    by_cases hj : j < found.length
    · -- Both tokens stand before the lines.
      have hi : i < found.length := Nat.lt_of_le_of_lt hij hj
      rw [List.getElem?_append_left hi] at hl hl'
      rw [List.getElem?_append_left hj] at hm hm'
      obtain rfl := Option.some.inj (hl.symm.trans hl')
      obtain rfl := Option.some.inj (hm.symm.trans hm')
      obtain ⟨u, v, rfl, hstart⟩ := (hfound l (List.mem_of_getElem? hl)).start_eq
      obtain ⟨k, hstop, hk⟩ := (hfound m (List.mem_of_getElem? hm)).stop_eq
      rw [Nat.zero_add] at hstart hstop
      rw [hstart, hstop, slice_append_of_le _ hk, slice_append_of_le _ hk]
    · by_cases hi : i < found.length
      · -- A line ends between the two tokens.
        exfalso
        have hne : found ≠ [] := by
          rintro rfl
          exact Nat.not_lt_zero _ hi
        refine hline (found.length - 1) (by omega) (by omega) ?_
        have hend := hlast.resolve_left hne
        rw [List.getLast?_eq_getElem?] at hend
        simp only [Stream.kinds, Stream.ofLexemes]
        rw [List.getElem?_map, List.getElem?_append_left (by omega), hend]
      · -- Both stand behind them and have been moved alike.
        rw [List.getElem?_append_right (by omega)] at hl hl' hm hm'
        rw [List.getElem?_map, hl] at hl'
        rw [List.getElem?_map, hm] at hm'
        cases hl'
        cases hm'
        obtain ⟨u, v, -, hstart⟩ := (hls l (List.mem_of_getElem? hl)).start_eq
        obtain ⟨k, hstop, -⟩ := (hls m (List.mem_of_getElem? hm)).stop_eq
        have hmoved : ∀ a, bytes pre + a + bytes lines = bytes (pre ++ lines) + a := fun a => by
          rw [bytes_append, Nat.add_right_comm]
        simp only [Lexeme.moved, hstart, hstop]
        rw [slice_add, ← List.append_assoc, hmoved, hmoved, slice_add]

end LiveUI.Source
