import LiveUI.Proofs.Source.Scanning

/-! # The stages of a scan

A scan goes through a text in turns: over a line without tokens, from the margin of a line to its first
token, over one token, or over a line feed. It finds the tokens `ls` if turns that find them lead to the
end of the text, and it fails where turns lead to a stage that it cannot leave. -/

namespace LiveUI.Source

/-! ## Where a line opens -/

/-- Neither a blank line nor one with nothing but a comment starts with the character. -/
def opensLine (c : Char) : Bool :=
  !isMargin c && c != '\n' && c != '#'

theorem opensLine_iff {c : Char} :
    opensLine c = true ↔ isMargin c = false ∧ c ≠ '\n' ∧ c ≠ '#' := by
  simp [opensLine, and_assoc]

theorem gap_le (cs : List Char) : gap cs ≤ cs.length := by
  fun_induction gap cs with
  | case1 => exact Nat.le_refl _
  | case2 cs ih => simpa using ih
  | case3 cs => simpa using (List.takeWhile_sublist _).length_le
  | case4 c cs _ _ _ ih => simpa using ih
  | case5 => exact Nat.zero_le _

/-! ## Stages -/

/-- How far a scan has come: the bracket depth, the open blocks, whether a logical line starts, and the
place. -/
structure Stage where
  depth : Nat
  blocks : List Nat
  fresh : Bool
  cur : Cursor

namespace Stage

/-- Before the first character of a text. -/
def start (source : List Char) : Stage :=
  ⟨0, [], true, .ofList source⟩

/-- What is found from here on. -/
def scan (s : Stage) : Except SyntaxError (List Lexeme × Ending) :=
  Source.scan s.depth s.blocks s.fresh s.cur

/-- Nothing but blanks, comments and joined lines is left. -/
def AtEnd (s : Stage) : Prop :=
  if s.fresh then ∀ c ∈ s.cur.rest, isMargin c = true else gap s.cur.rest = s.cur.rest.length

def ending (s : Stage) : Ending :=
  ⟨s.cur.skip s.cur.rest.length, s.blocks⟩

end Stage

/-- One turn of a scan, and the tokens that it finds. -/
inductive Turn : Stage → List Lexeme → Stage → Prop where
  /-- Over a blank line. -/
  | blank {d : Nat} {bl : List Nat} {cur : Cursor} {m cs : List Char}
      (hrest : cur.rest = m ++ '\n' :: cs) (hm : ∀ c ∈ m, isMargin c = true) :
      Turn ⟨d, bl, true, cur⟩ [] ⟨d, bl, true, cur.skip (m.length + 1)⟩
  /-- Over a line with nothing but a comment. -/
  | comment {d : Nat} {bl : List Nat} {cur : Cursor} {m text cs : List Char}
      (hrest : cur.rest = m ++ '#' :: (text ++ '\n' :: cs)) (hm : ∀ c ∈ m, isMargin c = true)
      (htext : '\n' ∉ text) :
      Turn ⟨d, bl, true, cur⟩ [] ⟨d, bl, true, cur.skip (m.length + text.length + 2)⟩
  /-- Over a comment that ends the text. -/
  | lastComment {d : Nat} {bl : List Nat} {cur : Cursor} {m text : List Char}
      (hrest : cur.rest = m ++ '#' :: text) (hm : ∀ c ∈ m, isMargin c = true) (htext : '\n' ∉ text) :
      Turn ⟨d, bl, true, cur⟩ [] ⟨d, bl, true, cur.skip (m.length + text.length + 2)⟩
  /-- Over the margin of a logical line. -/
  | layout {d : Nat} {bl bl' : List Nat} {cur : Cursor} {m cs : List Char} {c : Char}
      {marks : List Lexeme} (hrest : cur.rest = m ++ c :: cs) (hm : ∀ c ∈ m, isMargin c = true)
      (hc : opensLine c = true) (halign : align bl (width m) (cur.skip m.length) = .ok (marks, bl')) :
      Turn ⟨d, bl, true, cur⟩ marks ⟨d, bl', false, cur.skip m.length⟩
  /-- Over the end of a logical line. -/
  | newline {bl : List Nat} {cur : Cursor} {g cs : List Char} (hrest : cur.rest = g ++ '\n' :: cs)
      (hg : gap cur.rest = g.length) :
      Turn ⟨0, bl, false, cur⟩ [(cur.skip g.length).lexeme 1 .newline]
        ⟨0, bl, true, cur.skip (g.length + 1)⟩
  /-- Over a line feed between brackets. -/
  | joined {d : Nat} {bl : List Nat} {cur : Cursor} {g cs : List Char}
      (hrest : cur.rest = g ++ '\n' :: cs) (hg : gap cur.rest = g.length) (hd : d ≠ 0) :
      Turn ⟨d, bl, false, cur⟩ [] ⟨d, bl, false, cur.skip (g.length + 1)⟩
  /-- Over a token that stands in the text. -/
  | token {d d' : Nat} {bl : List Nat} {cur : Cursor} {g text cs : List Char} {c : Char} {t : Token}
      (hrest : cur.rest = g ++ c :: (text ++ cs)) (hg : gap cur.rest = g.length)
      (ht : munch c (text ++ cs) = .token t text.length) (hd : depthAfter d t = some d') :
      Turn ⟨d, bl, false, cur⟩ [(cur.skip g.length).lexeme (text.length + 1) t]
        ⟨d', bl, false, cur.skip (g.length + (text.length + 1))⟩

/-- A scan cannot go on from the stage. -/
inductive Fails : Stage → SyntaxError → Prop where
  | unindent {d : Nat} {bl : List Nat} {cur : Cursor} {m cs : List Char} {c : Char} {e : SyntaxError}
      (hrest : cur.rest = m ++ c :: cs) (hm : ∀ c ∈ m, isMargin c = true) (hc : opensLine c = true)
      (halign : align bl (width m) (cur.skip m.length) = .error e) : Fails ⟨d, bl, true, cur⟩ e
  | fault {d : Nat} {bl : List Nat} {cur : Cursor} {g cs : List Char} {c : Char} {cause : Malformed}
      {n : Nat} (hrest : cur.rest = g ++ c :: cs) (hg : gap cur.rest = g.length) (hc : c ≠ '\n')
      (hfault : munch c cs = .fault cause n) :
      Fails ⟨d, bl, false, cur⟩ ⟨cause, ((cur.skip g.length).skip n).pos, none⟩
  | unmatched {d : Nat} {bl : List Nat} {cur : Cursor} {g cs : List Char} {c : Char} {t : Token}
      {n : Nat} (hrest : cur.rest = g ++ c :: cs) (hg : gap cur.rest = g.length)
      (ht : munch c cs = .token t n) (hd : depthAfter d t = none) :
      Fails ⟨d, bl, false, cur⟩ ⟨.unmatchedBracket c, (cur.skip g.length).pos, none⟩

/-- Turns, one after another, and the tokens that they find. -/
inductive Leads : Stage → List Lexeme → Stage → Prop where
  | here {s : Stage} : Leads s [] s
  | turn {s s₁ s' : Stage} {ms ls : List Lexeme} (h : Turn s ms s₁) (h' : Leads s₁ ls s') :
      Leads s (ms ++ ls) s'

/-! ## Scans by turns -/

section

variable {d : Nat} {bl : List Nat} {cur : Cursor} {s s' : Stage}

theorem skip_gap_of_rest {g rest : List Char} (hrest : cur.rest = g ++ rest)
    (hg : gap cur.rest = g.length) : (cur.skip (gap cur.rest)).rest = rest := by
  rw [hg]
  exact Cursor.rest_skip_length hrest

theorem takeWhile_line {text cs : List Char} (h : '\n' ∉ text) (hcs : ∀ c ∈ cs.head?, c = '\n') :
    (text ++ cs).takeWhile (· ≠ '\n') = text := by
  refine takeWhile_append_stop (fun c hc => ?_) fun c hc => ?_
  · rw [decide_eq_true_eq]
    rintro rfl
    exact h hc
  · rw [hcs c hc]
    rfl

/-- What a turn finds comes before what is found behind it. -/
theorem Turn.scan {ms : List Lexeme} (h : Turn s ms s') :
    s.scan = s'.scan.map fun p => (ms ++ p.1, p.2) := by
  have hnothing : ∀ r : Except SyntaxError (List Lexeme × Ending),
      r = r.map fun p => ([] ++ p.1, p.2) := by
    rintro (e | p) <;> rfl
  cases h with
  | blank hrest hm =>
      refine Eq.trans ?_ (hnothing _)
      simp only [Stage.scan]
      rw [scan_margin hrest hm rfl, if_pos rfl, Cursor.skip_add]
  | @comment _ _ _ m text cs hrest hm htext =>
      refine Eq.trans ?_ (hnothing _)
      have hline : (text ++ '\n' :: cs).takeWhile (· ≠ '\n') = text :=
        takeWhile_line htext (by rintro _ ⟨⟩; rfl)
      simp only [Stage.scan]
      rw [scan_margin hrest hm rfl, if_neg (by decide), if_pos rfl, hline, ← Cursor.skip_add,
        Nat.add_assoc]
  | @lastComment _ _ _ m text hrest hm htext =>
      refine Eq.trans ?_ (hnothing _)
      have hline : (text ++ []).takeWhile (· ≠ '\n') = text :=
        takeWhile_line htext (by rintro _ ⟨⟩)
      rw [List.append_nil] at hline
      simp only [Stage.scan]
      rw [scan_margin hrest hm rfl, if_neg (by decide), if_pos rfl, hline, ← Cursor.skip_add,
        Nat.add_assoc]
  | @layout _ _ bl' cur m _ _ marks hrest hm hc halign =>
      obtain ⟨hmargin, hline, hcomment⟩ := opensLine_iff.1 hc
      simp only [Stage.scan]
      rw [scan_margin hrest hm hmargin]
      simp only [hline, hcomment, if_false, halign, bind, Except.bind, pure, Except.pure]
      cases Source.scan _ bl' false (cur.skip m.length) <;> rfl
  | @newline bl cur g _ hrest hg =>
      simp only [Stage.scan]
      rw [scan_line (skip_gap_of_rest hrest hg), if_pos rfl, hg, Cursor.skip_add]
      cases Source.scan 0 bl true ((cur.skip g.length).skip 1) <;> rfl
  | joined hrest hg hd =>
      refine Eq.trans ?_ (hnothing _)
      simp only [Stage.scan]
      rw [scan_line (skip_gap_of_rest hrest hg), if_neg hd, hg, Cursor.skip_add]
  | token hrest hg ht hd =>
      simp only [Stage.scan]
      rw [scan_token (skip_gap_of_rest hrest hg) ht hd, hg, ← Cursor.skip_add]
      rfl

theorem Stage.AtEnd.scan (h : s.AtEnd) : s.scan = .ok ([], s.ending) := by
  obtain ⟨d, bl, fresh, cur⟩ := s
  cases fresh with
  | true => exact scan_margin_end h
  | false =>
      have hgap : gap cur.rest = cur.rest.length := h
      have hrest : (cur.skip (gap cur.rest)).rest = [] :=
        skip_gap_of_rest (List.append_nil _).symm hgap
      have hscan : Source.scan d bl false cur = _ := scan_end hrest
      rwa [hgap] at hscan

theorem Fails.scan {e : SyntaxError} (h : Fails s e) : s.scan = .error e := by
  cases h with
  | unindent hrest hm hc halign =>
      obtain ⟨hmargin, hline, hcomment⟩ := opensLine_iff.1 hc
      simp only [Stage.scan]
      rw [scan_margin hrest hm hmargin]
      simp only [hline, hcomment, if_false, halign]
      rfl
  | fault hrest hg hc hfault =>
      simp only [Stage.scan]
      rw [scan_munch (skip_gap_of_rest hrest hg) hc]
      simp only [hfault, hg]
  | unmatched hrest hg ht hd =>
      have hfiller := isFiller_of_munch ht
      simp only [Stage.scan]
      rw [scan_munch (skip_gap_of_rest hrest hg) (by rintro rfl; cases hfiller)]
      simp only [ht, hd, hg]

/-- From every stage a scan takes a turn, or it is at the end, or it fails. -/
theorem Stage.cases (s : Stage) :
    (∃ ms s', Turn s ms s') ∨ s.AtEnd ∨ ∃ e, Fails s e := by
  obtain ⟨d, bl, fresh, cur⟩ := s
  -- At the start of a line the margin decides, within a line what follows the gap.
  cases fresh with
  | true =>
      obtain ⟨m, rest, hrest, hm, hhead⟩ := exists_margin cur.rest
      cases rest with
      | nil =>
          refine .inr (.inl ?_)
          change ∀ c ∈ cur.rest, _
          rwa [hrest, List.append_nil]
      | cons c cs =>
          by_cases hline : c = '\n'
          · exact .inl ⟨_, _, .blank (hline ▸ hrest) hm⟩
          by_cases hcomment : c = '#'
          · subst hcomment
            obtain ⟨text, rest, rfl, htext, hrest'⟩ := run_split (· ≠ '\n') cs
            have htext' : '\n' ∉ text := fun h => by simpa using htext _ h
            cases rest with
            | nil =>
                rw [List.append_nil] at hrest
                exact .inl ⟨_, _, .lastComment hrest hm htext'⟩
            | cons e rest =>
                have he : e = '\n' := by simpa using hrest' e rfl
                exact .inl ⟨_, _, .comment (he ▸ hrest) hm htext'⟩
          have hc := opensLine_iff.2 ⟨hhead c rfl, hline, hcomment⟩
          cases halign : align bl (width m) (cur.skip m.length) with
          | ok p => exact .inl ⟨_, _, .layout hrest hm hc halign⟩
          | error e => exact .inr (.inr ⟨e, .unindent hrest hm hc halign⟩)
  | false =>
      cases hstart : (cur.skip (gap cur.rest)).rest with
      | nil =>
          refine .inr (.inl (Nat.le_antisymm (gap_le _) ?_))
          rw [Cursor.rest_skip] at hstart
          exact List.drop_eq_nil_iff.1 hstart
      | cons c cs =>
          obtain ⟨g, hrest, hg⟩ := skip_gap hstart
          by_cases hc : c = '\n'
          · subst hc
            by_cases hd : d = 0
            · subst hd
              exact .inl ⟨_, _, .newline hrest hg⟩
            · exact .inl ⟨_, _, .joined hrest hg hd⟩
          cases ht : munch c cs with
          | fault cause n => exact .inr (.inr ⟨_, .fault hrest hg hc ht⟩)
          | token t n =>
              cases hd : depthAfter d t with
              | none => exact .inr (.inr ⟨_, .unmatched hrest hg ht hd⟩)
              | some d' =>
                  have hlength := (munch_plain ht).1
                  have htake : (cs.take n).length = n := by
                    rw [List.length_take, Nat.min_eq_left hlength]
                  rw [← List.take_append_drop n cs] at hrest ht
                  nth_rewrite 3 [← htake] at ht
                  exact .inl ⟨_, _, .token hrest hg ht hd⟩

/-- What is still to be done. It gets less with every turn. -/
def Stage.weight (s : Stage) : Nat :=
  2 * s.cur.rest.length + s.fresh.toNat

theorem Turn.weight_lt {ms : List Lexeme} (h : Turn s ms s') : s'.weight < s.weight := by
  cases h <;>
    · simp only [Stage.weight, Cursor.rest_skip, List.length_drop, *, List.length_append,
        List.length_cons, Bool.toNat_true, Bool.toNat_false]
      omega

theorem Leads.scan {ls : List Lexeme} (h : Leads s ls s') :
    s.scan = s'.scan.map fun p => (ls ++ p.1, p.2) := by
  induction h with
  | @here s => cases s.scan <;> rfl
  | @turn s s₁ s' ms ls hturn _ ih =>
      rw [hturn.scan, ih]
      cases s'.scan <;> simp [Except.map]

theorem Leads.trans {s'' : Stage} {ls ls' : List Lexeme} (h : Leads s ls s') (h' : Leads s' ls' s'') :
    Leads s (ls ++ ls') s'' := by
  induction h with
  | here => exact h'
  | turn hturn _ ih =>
      rw [List.append_assoc]
      exact .turn hturn (ih h')

/-- A scan goes on in turns, to the end of the text or to a stage that it cannot leave. -/
theorem Stage.exists_leads (s : Stage) :
    ∃ ls s', Leads s ls s' ∧ (s'.AtEnd ∨ ∃ e, Fails s' e) := by
  -- A turn leaves less of the text, or as much of it in the midst of a line.
  induction hn : s.weight using Nat.strongRecOn generalizing s with
  | ind n ih =>
      rcases s.cases with ⟨ms, s₁, hturn⟩ | hend | hfails
      · obtain ⟨ls, s', hleads, hlast⟩ := ih _ (hn ▸ hturn.weight_lt) s₁ rfl
        exact ⟨ms ++ ls, s', .turn hturn hleads, hlast⟩
      · exact ⟨[], s, .here, .inl hend⟩
      · exact ⟨[], s, .here, .inr hfails⟩

theorem Stage.scan_eq_ok {ls : List Lexeme} {e : Ending} :
    s.scan = .ok (ls, e) ↔ ∃ s', Leads s ls s' ∧ s'.AtEnd ∧ s'.ending = e := by
  constructor
  · intro h
    obtain ⟨ls', s', hleads, hend | ⟨e', hfails⟩⟩ := s.exists_leads
    · rw [hleads.scan, hend.scan] at h
      obtain ⟨rfl, rfl⟩ : ls' = ls ∧ s'.ending = e := by simpa [Except.map] using h
      exact ⟨s', hleads, hend, rfl⟩
    · rw [hleads.scan, hfails.scan] at h
      cases h
  · rintro ⟨s', hleads, hend, rfl⟩
    rw [hleads.scan, hend.scan]
    simp [Except.map]

/-- What is found on the way to a stage is found on the way to the end. -/
theorem Leads.exists_append {s₁ : Stage} {found ls : List Lexeme} (h : Leads s found s')
    (hend : s'.AtEnd) (h₁ : Leads s ls s₁) : ∃ more, found = ls ++ more := by
  have hscan := h.scan
  rw [h₁.scan, hend.scan] at hscan
  cases hrest : s₁.scan with
  | error e =>
      rw [hrest] at hscan
      cases hscan
  | ok p =>
      rw [hrest] at hscan
      obtain ⟨heq, -⟩ : ls ++ p.1 = found ++ [] ∧ _ := by simpa [Except.map] using hscan
      exact ⟨p.1, by rw [heq, List.append_nil]⟩

theorem Stage.scan_eq_error {e : SyntaxError} :
    s.scan = .error e ↔ ∃ ls s', Leads s ls s' ∧ Fails s' e := by
  constructor
  · intro h
    obtain ⟨ls, s', hleads, hend | ⟨e', hfails⟩⟩ := s.exists_leads
    · rw [hleads.scan, hend.scan] at h
      cases h
    · rw [hleads.scan, hfails.scan] at h
      cases h
      exact ⟨ls, s', hleads, hfails⟩
  · rintro ⟨ls, s', hleads, hfails⟩
    rw [hleads.scan, hfails.scan]
    rfl

end

/-! ## Whole texts -/

/-- The tokens of a text are those that a scan finds, and those that close it. -/
theorem tokenize_eq (source : List Char) :
    tokenize source = (Stage.start source).scan.map fun p =>
      p.1 ++ p.2.lexemes (p.1.getLast?.map (·.token)) := by
  rw [tokenize]
  change (Stage.start source).scan >>= _ = _
  cases (Stage.start source).scan <;> rfl

/-- The tokens of a text are those that turns find up to its end, and those that close it. -/
theorem tokenize_eq_ok {source : List Char} {ls : List Lexeme} :
    tokenize source = .ok ls ↔ ∃ found s, Leads (.start source) found s ∧ s.AtEnd ∧
      ls = found ++ s.ending.lexemes (found.getLast?.map (·.token)) := by
  rw [tokenize_eq]
  constructor
  · intro h
    cases hfound : (Stage.start source).scan with
    | error e => rw [hfound] at h; cases h
    | ok p =>
        obtain ⟨s, hleads, hend, hending⟩ := Stage.scan_eq_ok.1 hfound
        rw [hfound] at h
        cases h
        exact ⟨p.1, s, hleads, hend, by rw [hending]⟩
  · rintro ⟨found, s, hleads, hend, rfl⟩
    rw [Stage.scan_eq_ok.2 ⟨s, hleads, hend, rfl⟩]
    rfl

theorem tokenize_eq_error {source : List Char} {e : SyntaxError} :
    tokenize source = .error e ↔ ∃ found s, Leads (.start source) found s ∧ Fails s e := by
  rw [← Stage.scan_eq_error, tokenize_eq]
  cases (Stage.start source).scan <;> simp [Except.map]

theorem exists_tokenize {source : List Char} {ks : List Token}
    (h : (tokenize source).toOption.map (·.map (·.token)) = some ks) :
    ∃ ls, tokenize source = .ok ls ∧ ls.map (·.token) = ks := by
  cases hls : tokenize source with
  | error e =>
      rw [hls] at h
      cases h
  | ok ls =>
      rw [hls] at h
      exact ⟨ls, rfl, Option.some.inj h⟩

end LiveUI.Source
