import LiveUI.Proofs.Source.Scanning

/-! # Lines and their indentation

The lines of a block are indented by four blanks for each level. What the marks of the layout are
before a line depends on the line before it only by its level. -/

namespace LiveUI.Source

/-- The marks that close a text. -/
def Ending.closing (e : Ending) : List Lexeme :=
  List.replicate e.blocks.length (e.cur.lexeme 0 .dedent) ++ [e.cur.lexeme 0 .eof]

/-- A scan finds the tokens up to the end of the text, where a line has ended. -/
def Scans (d : Nat) (bl : List Nat) (fresh : Bool) (cur : Cursor) (ls : List Lexeme) : Prop :=
  ∃ found e, scan d bl fresh cur = .ok (found, e) ∧ ls = found ++ e.closing ∧
    (∀ l ∈ found.getLast?, l.token = .newline) ∧ (fresh = false → found ≠ [])

variable {d d' k : Nat} {bl : List Nat} {cur cur' : Cursor} {ls ls' : List Lexeme}

theorem tokenize_of_scans {source : List Char} (h : Scans 0 [] true (Cursor.ofList source) ls) :
    tokenize source = .ok ls := by
  obtain ⟨found, e, hscan, rfl, hlast, -⟩ := h
  have hclosing : e.lexemes (found.getLast?.map (·.token)) = e.closing := by
    cases hl : found.getLast? with
    | none => rfl
    | some l =>
        rw [Option.map_some, hlast l hl]
        rfl
  rw [tokenize, hscan]
  simp only [bind, Except.bind, pure, Except.pure, hclosing]

/-- Tokens before others that end with a line. -/
theorem getLast?_append_newline {found : List Lexeme} (hne : found ≠ [])
    (h : ∀ l ∈ found.getLast?, l.token = .newline) :
    ∀ l ∈ (ls ++ found).getLast?, l.token = .newline := by
  obtain ⟨l', hl'⟩ : ∃ l', found.getLast? = some l' :=
    Option.isSome_iff_exists.1 (by simpa using hne)
  rw [List.getLast?_append, hl', Option.some_or, ← hl']
  exact h

theorem Scans.of_finds (h : Finds d cur ls d' cur') (h' : Scans d' bl false cur' ls') :
    Scans d bl false cur (ls ++ ls') := by
  obtain ⟨found, e, hscan, rfl, hlast, hne⟩ := h'
  refine ⟨ls ++ found, e, by rw [h bl, hscan]; rfl, (List.append_assoc _ _ _).symm,
    getLast?_append_newline (hne rfl) hlast, fun _ => ?_⟩
  simp [hne rfl]

/-- The end of a line. -/
theorem scan_newline {rest : List Char} (hrest : cur.rest = '\n' :: rest) :
    scan 0 bl false cur = (scan 0 bl true (cur.skip 1)).map fun p =>
      (cur.lexeme 1 .newline :: p.1, p.2) := by
  have hstart : cur.skip (gap cur.rest) = cur := by
    rw [hrest, gap_cons (.inr rfl)]
    rfl
  rw [scan_line (by rw [hstart, hrest]), if_pos rfl, hstart]
  cases scan 0 bl true (cur.skip 1) <;> rfl

theorem Scans.newline {rest : List Char} (hrest : cur.rest = '\n' :: rest)
    (h : Scans 0 bl true (cur.skip 1) ls) :
    ∃ l, l.token = .newline ∧ Scans 0 bl false cur (l :: ls) := by
  obtain ⟨found, e, hscan, rfl, hlast, -⟩ := h
  refine ⟨cur.lexeme 1 .newline, rfl, cur.lexeme 1 .newline :: found, e, ?_, rfl, ?_, by simp⟩
  · rw [scan_newline hrest, hscan]
    rfl
  · cases found with
    | nil =>
        rintro _ ⟨⟩
        rfl
    | cons l found =>
        rw [List.getLast?_cons_cons]
        exact hlast

/-- The end of the text. -/
theorem scan_last (hrest : cur.rest = []) : scan d bl true cur = .ok ([], ⟨cur, bl⟩) := by
  have hscan : scan d bl true cur = _ := scan_margin_end (by simp [hrest])
  rw [hscan, hrest]
  rfl

/-! ## Indentation -/

/-- The widths of the blocks around a line of level `k`, the innermost first. -/
def blocksAt : Nat → List Nat
  | 0 => []
  | k + 1 => 4 * (k + 1) :: blocksAt k

@[simp]
theorem length_blocksAt (k : Nat) : (blocksAt k).length = k := by
  induction k with
  | zero => rfl
  | succ k ih => rw [blocksAt, List.length_cons, ih]

theorem headD_blocksAt (k : Nat) : (blocksAt k).headD 0 = 4 * k := by
  cases k <;> rfl

theorem closeBlocks_blocksAt (k n : Nat) :
    closeBlocks (4 * k) (blocksAt (k + n)) = (n, blocksAt k) := by
  induction n with
  | zero =>
      cases k with
      | zero => rfl
      | succ k => rw [Nat.add_zero, blocksAt, closeBlocks, if_neg (Nat.lt_irrefl _)]
  | succ n ih => rw [← Nat.add_assoc, blocksAt, closeBlocks, if_pos (by omega), ih]

theorem align_indent (k : Nat) :
    align (blocksAt k) (4 * (k + 1)) cur = .ok ([cur.lexeme 0 .indent], blocksAt (k + 1)) := by
  rw [align, if_pos (by rw [headD_blocksAt]; omega)]
  rfl

theorem align_dedent (k n : Nat) :
    align (blocksAt (k + n)) (4 * k) cur =
      .ok (List.replicate n (cur.lexeme 0 .dedent), blocksAt k) := by
  rw [align, if_neg (by rw [headD_blocksAt]; omega), closeBlocks_blocksAt]
  simp only [headD_blocksAt, if_true]

def blanks (k : Nat) : List Char :=
  List.replicate (4 * k) ' '

theorem width_blanks (n : Nat) : width (List.replicate n ' ') = n := by
  have h : ∀ w, (List.replicate n ' ').foldl
      (fun w c => if c = ' ' then w + 1 else if c = '\t' then (w / 8 + 1) * 8 else w) w = w + n := by
    induction n with
    | zero => exact fun w => rfl
    | succ n ih =>
        intro w
        rw [List.replicate_succ, List.foldl_cons, ih]
        simp only [if_true]
        omega
  rw [width, h, Nat.zero_add]

/-- At the start of a line of level `k`, whatever marks come before it, the tokens `ls` come. -/
def Begins (k : Nat) (cur : Cursor) (ls : List Lexeme) : Prop :=
  (∃ c rest, cur.rest = blanks k ++ c :: rest ∧ isFiller c = false) ∧
    Scans 0 (blocksAt k) false (cur.skip (4 * k)) ls

/-- Behind a line of level `k` or of a deeper one, marks close the deeper blocks and then the tokens
`ls` come. -/
def Resumes (k : Nat) (cur : Cursor) (ls : List Lexeme) : Prop :=
  ∃ l : Lexeme, l.token = .dedent ∧
    ∀ n, Scans 0 (blocksAt (k + n)) true cur (List.replicate n l ++ ls)

/-- The marks before a line whose indentation is aligned with the blocks. -/
theorem scan_blanks {c : Char} {rest : List Char} {marks : List Lexeme} {bl' : List Nat}
    (hrest : cur.rest = blanks k ++ c :: rest) (hc : isFiller c = false)
    (halign : align bl (4 * k) (cur.skip (4 * k)) = .ok (marks, bl')) :
    scan d bl true cur =
      (scan d bl' false (cur.skip (4 * k))).map fun p => (marks ++ p.1, p.2) := by
  have hopens : isMargin c = false ∧ c ≠ '\n' ∧ c ≠ '#' := by
    refine ⟨Bool.eq_false_iff.2 fun h => ?_, ?_, ?_⟩
    · obtain (rfl | rfl) | rfl : (c = ' ' ∨ c = '\t') ∨ c = '\r' := by simpa [isMargin] using h
      all_goals cases hc
    all_goals
      rintro rfl
      cases hc
  have hblanks : ∀ c ∈ blanks k, isMargin c = true := by
    intro c hc
    rw [List.eq_of_mem_replicate hc]
    rfl
  rw [scan_margin hrest hblanks hopens.1, if_neg hopens.2.1, if_neg hopens.2.2, blanks, width_blanks,
    List.length_replicate, halign]
  simp only [bind, Except.bind]
  cases scan d bl' false (cur.skip (4 * k)) <;> rfl

/-- A line whose indentation is aligned with the blocks. -/
theorem scan_begins {c : Char} {rest : List Char} {marks : List Lexeme} {bl' : List Nat}
    (hrest : cur.rest = blanks k ++ c :: rest) (hc : isFiller c = false)
    (halign : align bl (4 * k) (cur.skip (4 * k)) = .ok (marks, bl'))
    (h : Scans 0 bl' false (cur.skip (4 * k)) ls) : Scans 0 bl true cur (marks ++ ls) := by
  obtain ⟨found, e, hscan, rfl, hlast, hne⟩ := h
  refine ⟨marks ++ found, e, ?_, (List.append_assoc _ _ _).symm,
    getLast?_append_newline (hne rfl) hlast, by simp⟩
  rw [scan_blanks hrest hc halign, hscan]
  rfl

theorem Begins.resumes (h : Begins k cur ls) : Resumes k cur ls := by
  obtain ⟨⟨c, rest, hrest, hc⟩, hscans⟩ := h
  exact ⟨_, rfl, fun n => scan_begins hrest hc (align_dedent k n) hscans⟩

theorem Begins.indents (h : Begins (k + 1) cur ls) :
    ∃ l, l.token = .indent ∧ Scans 0 (blocksAt k) true cur (l :: ls) := by
  obtain ⟨⟨c, rest, hrest, hc⟩, hscans⟩ := h
  exact ⟨_, rfl, scan_begins hrest hc (align_indent k) hscans⟩

theorem Resumes.scans (h : Resumes k cur ls) : Scans 0 (blocksAt k) true cur ls := by
  obtain ⟨l, -, hscans⟩ := h
  exact hscans 0

/-- The block of a line is closed before what follows on its level. -/
theorem Resumes.dedent (h : Resumes k cur ls) :
    ∃ l, l.token = .dedent ∧ Resumes (k + 1) cur (l :: ls) := by
  obtain ⟨l, hl, hscans⟩ := h
  refine ⟨l, hl, l, hl, fun n => ?_⟩
  have hnext := hscans (n + 1)
  have hblocks : k + (n + 1) = k + 1 + n := by omega
  rwa [hblocks, List.replicate_succ', List.append_assoc] at hnext

/-- A blank line is passed over. -/
theorem Resumes.blank {rest : List Char} (hrest : cur.rest = '\n' :: rest)
    (h : Resumes k (cur.skip 1) ls) : Resumes k cur ls := by
  obtain ⟨l, hl, hscans⟩ := h
  refine ⟨l, hl, fun n => ?_⟩
  obtain ⟨found, e, hscan, hls, hlast, -⟩ := hscans n
  refine ⟨found, e, ?_, hls, hlast, by simp⟩
  rw [scan_margin (m := []) hrest (by simp) rfl, if_pos rfl]
  exact hscan

theorem resumes_end (hrest : cur.rest = []) : Resumes 0 cur [cur.lexeme 0 .eof] := by
  refine ⟨cur.lexeme 0 .dedent, rfl, fun n => ⟨[], _, scan_last hrest, ?_, by simp, by simp⟩⟩
  rw [Ending.closing, length_blocksAt, List.nil_append, Nat.zero_add]

end LiveUI.Source
