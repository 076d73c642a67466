import LiveUI.Proofs.Source.Munching
import LiveUI.Proofs.Source.Places

/-! # Scanning a piece of a text again

The tokens of a piece that starts with one and ends with one are found again wherever the piece
stands at the same bracket depth before something that ends every token. What lies between them,
blanks, comments, joined lines and the line feeds between brackets, is passed over in both places. -/

namespace LiveUI.Source

/-! ## Between two tokens -/

/-- The characters that start no token. -/
def isFiller (c : Char) : Bool :=
  c == ' ' || c == '\t' || c == '\r' || c == '#' || c == '\\' || c == '\n'

theorem cases_of_isFiller {c : Char} (h : isFiller c = true) :
    c = ' ' ∨ c = '\t' ∨ c = '\r' ∨ c = '#' ∨ c = '\\' ∨ c = '\n' := by
  simpa [isFiller, or_assoc] using h

theorem isFiller_of_munch {c : Char} {cs : List Char} {t : Token} {n : Nat}
    (h : munch c cs = .token t n) : isFiller c = false := by
  rw [Bool.eq_false_iff]
  intro hfiller
  rcases cases_of_isFiller hfiller with rfl | rfl | rfl | rfl | rfl | rfl <;>
    · rw [munch, symbol?.eq_def] at h
      cases cs <;> simp [singleSymbol, doubleSymbol, Text.doubleMark, Text.singleMark,
        Char.isDigit, isWordStart, Char.isAlpha, Char.isUpper, Char.isLower] at h

theorem gap_cons {c : Char} (h : isFiller c = false ∨ c = '\n') (cs : List Char) :
    gap (c :: cs) = 0 := by
  rw [gap.eq_def]
  split
  next => rfl
  next heq => simp_all [isFiller]
  next heq => simp_all [isFiller]
  next heq =>
    cases heq
    rcases h with h | rfl
    · simp_all [isFiller]
    · simp

theorem gap_blank {c : Char} (h : c = ' ' ∨ c = '\t' ∨ c = '\r') (cs : List Char) :
    gap (c :: cs) = gap cs + 1 := by
  rcases h with rfl | rfl | rfl <;> rfl

/-- Where a gap ends does not depend on what follows its end. -/
theorem gap_append {g cs cs' : List Char} {c : Char} (hc : isFiller c = false ∨ c = '\n')
    (h : gap (g ++ c :: cs) = g.length) : gap (g ++ c :: cs') = g.length := by
  generalize hall : g ++ c :: cs = all at h
  fun_induction gap all generalizing g with
  | case1 => simp at hall
  | case2 rest ih =>
      match g, h with
      | [a], h => simp at h
      | a :: b :: g, h =>
          simp only [List.cons_append, List.cons.injEq] at hall
          obtain ⟨rfl, rfl, hrest⟩ := hall
          simpa [gap] using ih hrest (by simpa using h)
  | case3 rest =>
      match g, h with
      | a :: g, h =>
          simp only [List.cons_append, List.cons.injEq] at hall
          obtain ⟨rfl, rfl⟩ := hall
          obtain ⟨hg, hline⟩ := run_of_length (by simpa using h)
          have hrun := takeWhile_append_stop hg (show ∀ d ∈ (c :: cs').head?, _ from hline)
          simpa [gap] using congrArg List.length hrun
  | case4 a rest _ _ hblank ih =>
      match g, h with
      | b :: g, h =>
          simp only [List.cons_append, List.cons.injEq] at hall
          obtain ⟨rfl, hrest⟩ := hall
          rw [List.cons_append, gap_blank hblank, ih hrest (by simpa using h), List.length_cons]
  | case5 =>
      obtain rfl := List.length_eq_zero_iff.1 h.symm
      exact gap_cons hc cs'

/-- No line ends in a text between two tokens: there are only blanks and joined lines. A comment ends with
its line. -/
inductive Unbroken : List Char → Prop where
  | nil : Unbroken []
  | blank {c : Char} {cs : List Char} (hc : c = ' ' ∨ c = '\t' ∨ c = '\r') (h : Unbroken cs) :
      Unbroken (c :: cs)
  | joined {cs : List Char} (h : Unbroken cs) : Unbroken ('\\' :: '\n' :: cs)

theorem Unbroken.gap {g : List Char} (h : Unbroken g) {c : Char} (hc : isFiller c = false)
    (cs : List Char) : gap (g ++ c :: cs) = g.length := by
  induction h with
  | nil => exact gap_cons (.inl hc) cs
  | blank hblank _ ih => rw [List.cons_append, gap_blank hblank, ih, List.length_cons]
  | joined _ ih => rw [List.cons_append, List.cons_append, Source.gap, ih, List.length_cons,
      List.length_cons]

/-! ## Margins -/

/-- The characters of a margin. -/
def isMargin (c : Char) : Bool :=
  c == ' ' || c == '\t' || c == '\r'

theorem margin_append {m rest : List Char} (hm : ∀ c ∈ m, isMargin c = true)
    (hrest : ∀ c ∈ rest.head?, isMargin c = false) : margin (m ++ rest) = m :=
  takeWhile_append_stop hm hrest

/-- A text is its margin and what follows it. -/
theorem exists_margin (cs : List Char) :
    ∃ m rest, cs = m ++ rest ∧ (∀ c ∈ m, isMargin c = true) ∧ ∀ c ∈ rest.head?, isMargin c = false :=
  run_split isMargin cs

/-! ## Single steps of a scan -/

variable {d : Nat} {bl : List Nat} {cur : Cursor}

theorem scan_end (h : (cur.skip (gap cur.rest)).rest = []) :
    scan d bl false cur = .ok ([], ⟨cur.skip (gap cur.rest), bl⟩) := by
  rw [scan]
  simp only [Bool.false_eq_true, if_false]
  split
  next => rfl
  next hs => rw [h] at hs; cases hs

theorem scan_nil (h : cur.rest = []) : scan d bl false cur = .ok ([], ⟨cur, bl⟩) := by
  have hgap : cur.skip (gap cur.rest) = cur := by
    rw [h]
    rfl
  have hscan : scan d bl false cur = _ := scan_end (by rw [hgap, h])
  rwa [hgap] at hscan

theorem scan_line {cs : List Char} (h : (cur.skip (gap cur.rest)).rest = '\n' :: cs) :
    scan d bl false cur =
      if d = 0 then do
        let (ls, ending) ← scan d bl true ((cur.skip (gap cur.rest)).skip 1)
        return ((cur.skip (gap cur.rest)).lexeme 1 .newline :: ls, ending)
      else scan d bl false ((cur.skip (gap cur.rest)).skip 1) := by
  rw [scan]
  simp only [Bool.false_eq_true, if_false]
  split
  next hs => rw [h] at hs; cases hs
  next hs =>
    rw [h] at hs
    cases hs
    rfl

/-- A scan from the start of a line passes its margin first. -/
theorem scan_margin {m cs : List Char} {c : Char} (hrest : cur.rest = m ++ c :: cs)
    (hm : ∀ c ∈ m, isMargin c = true) (hc : isMargin c = false) :
    scan d bl true cur =
      if c = '\n' then scan d bl true ((cur.skip m.length).skip 1)
      else if c = '#' then
        scan d bl true ((cur.skip m.length).skip ((cs.takeWhile (· ≠ '\n')).length + 2))
      else do
        let (marks, bl') ← align bl (width m) (cur.skip m.length)
        let (ls, ending) ← scan d bl' false (cur.skip m.length)
        return (marks ++ ls, ending) := by
  have hmargin : margin cur.rest = m := by
    rw [hrest]
    refine margin_append hm ?_
    rintro _ ⟨⟩
    exact hc
  have hstart : (cur.skip (margin cur.rest).length).rest = c :: cs := by
    rw [hmargin]
    exact Cursor.rest_skip_length hrest
  rw [scan]
  simp only [if_true]
  split
  next hs => rw [hstart] at hs; cases hs
  next hs =>
    rw [hstart] at hs
    cases hs
    rw [hmargin]

/-- A scan from the start of a line in which there is nothing but blanks. -/
theorem scan_margin_end (hm : ∀ c ∈ cur.rest, isMargin c = true) :
    scan d bl true cur = .ok ([], ⟨cur.skip cur.rest.length, bl⟩) := by
  have hmargin : margin cur.rest = cur.rest := List.takeWhile_eq_self_iff.2 hm
  have hstart : (cur.skip (margin cur.rest).length).rest = [] := by
    rw [hmargin, Cursor.rest_skip, List.drop_length]
  rw [scan]
  simp only [if_true]
  split
  next => rw [hmargin]
  next hs => rw [hstart] at hs; cases hs

/-- Where no line ends a token starts. -/
theorem scan_munch {c : Char} {cs : List Char} (h : (cur.skip (gap cur.rest)).rest = c :: cs)
    (hc : c ≠ '\n') :
    scan d bl false cur = match munch c cs with
      | .fault cause n => .error ⟨cause, ((cur.skip (gap cur.rest)).skip n).pos, none⟩
      | .token t n =>
          match depthAfter d t with
          | none => .error ⟨.unmatchedBracket c, (cur.skip (gap cur.rest)).pos, none⟩
          | some d' => do
              let (ls, ending) ← scan d' bl false ((cur.skip (gap cur.rest)).skip (n + 1))
              return ((cur.skip (gap cur.rest)).lexeme (n + 1) t :: ls, ending) := by
  rw [scan]
  simp only [Bool.false_eq_true, if_false]
  split
  next hs => rw [h] at hs; cases hs
  next hs =>
    rw [h] at hs
    cases hs
    exact if_neg hc

theorem scan_token {c : Char} {cs : List Char} {t : Token} {n d' : Nat}
    (h : (cur.skip (gap cur.rest)).rest = c :: cs) (ht : munch c cs = .token t n)
    (hd : depthAfter d t = some d') :
    scan d bl false cur = (scan d' bl false ((cur.skip (gap cur.rest)).skip (n + 1))).map fun p =>
      ((cur.skip (gap cur.rest)).lexeme (n + 1) t :: p.1, p.2) := by
  have hc : c ≠ '\n' := by
    rintro rfl
    cases isFiller_of_munch ht
  rw [scan_munch h hc]
  simp only [ht, hd]
  cases scan d' bl false ((cur.skip (gap cur.rest)).skip (n + 1)) <;> rfl

/-- What a scan finds at the start of a token. -/
theorem token_of_scan {c : Char} {cs : List Char} {ls : List Lexeme} {e : Ending}
    (h : (cur.skip (gap cur.rest)).rest = c :: cs) (hc : c ≠ '\n')
    (hscan : scan d bl false cur = .ok (ls, e)) :
    ∃ t n d' ls', munch c cs = .token t n ∧ depthAfter d t = some d' ∧
      scan d' bl false ((cur.skip (gap cur.rest)).skip (n + 1)) = .ok (ls', e) ∧
      ls = (cur.skip (gap cur.rest)).lexeme (n + 1) t :: ls' := by
  rw [scan_munch h hc] at hscan
  split at hscan
  next => cases hscan
  next t n ht =>
    split at hscan
    next => cases hscan
    next d' hd =>
      cases hrest : scan d' bl false ((cur.skip (gap cur.rest)).skip (n + 1)) with
      | error e => simp [hrest, bind, Except.bind] at hscan
      | ok p =>
          rw [hrest] at hscan
          cases hscan
          exact ⟨t, n, d', p.1, ht, hd, hrest, rfl⟩

theorem scan_start {cur' : Cursor} (h : cur.skip (gap cur.rest) = cur'.skip (gap cur'.rest)) :
    scan d bl false cur = scan d bl false cur' := by
  rw [scan, scan]
  simp only [Bool.false_eq_true, if_false]
  generalize cur.skip (gap cur.rest) = start at h ⊢
  subst h
  rfl

/-- A gap stops short of the text's end only where none starts. -/
theorem skip_gap {c : Char} {cs : List Char} (h : (cur.skip (gap cur.rest)).rest = c :: cs) :
    ∃ g, cur.rest = g ++ c :: cs ∧ gap cur.rest = g.length := by
  rw [Cursor.rest_skip] at h
  refine ⟨cur.rest.take (gap cur.rest), by rw [← h, List.take_append_drop], ?_⟩
  have hlt : gap cur.rest < cur.rest.length := by
    apply Nat.lt_of_not_le
    intro hle
    rw [List.drop_eq_nil_of_le hle] at h
    cases h
  rw [List.length_take]
  omega

/-! ## What stands between two tokens -/

/-- At bracket depth `d` the text `g` is passed over before a token that starts with `c`. -/
def Idle (d : Nat) (g : List Char) (c : Char) : Prop :=
  ∀ bl cur cs, cur.rest = g ++ c :: cs →
    scan d bl false cur = scan d bl false (cur.skip g.length)

theorem idle_of_gap {c : Char} {g cs : List Char} (hc : isFiller c = false)
    (h : gap (g ++ c :: cs) = g.length) : Idle d g c := by
  intro bl cur cs' hrest
  have hgap : gap cur.rest = g.length := by
    rw [hrest]
    exact gap_append (.inl hc) h
  have hstart : (cur.skip g.length).rest = c :: cs' := Cursor.rest_skip_length hrest
  apply scan_start
  rw [hgap, hstart, gap_cons (.inl hc)]
  rfl

/-- Between brackets a line feed is passed over with what is before it. -/
theorem Idle.line {c : Char} {g g' cs : List Char} (h : gap (g ++ '\n' :: cs) = g.length)
    (hd : d ≠ 0) (hidle : Idle d g' c) : Idle d (g ++ '\n' :: g') c := by
  intro bl cur cs' hrest
  have hrest' : cur.rest = g ++ '\n' :: (g' ++ c :: cs') := by
    rw [hrest, List.append_assoc, List.cons_append]
  have hgap : gap cur.rest = g.length := by
    rw [hrest']
    exact gap_append (.inr rfl) h
  have hline : (cur.skip (gap cur.rest)).rest = '\n' :: (g' ++ c :: cs') := by
    rw [hgap]
    exact Cursor.rest_skip_length hrest'
  have hnext : ((cur.skip g.length).skip 1).rest = g' ++ c :: cs' := by
    rw [Cursor.rest_skip, ← hgap, hline]
    rfl
  rw [scan_line hline, if_neg hd, hgap, hidle bl _ cs' hnext, ← Cursor.skip_add,
    ← Cursor.skip_add]
  congr 2
  simp only [List.length_append, List.length_cons]
  omega

/-- The first of the tokens that a scan finds ends a line, or it stands behind a text that is idle,
between any other number of brackets as well; outside of brackets only where it stood there. -/
theorem scan_cons {l : Lexeme} {ls : List Lexeme} {e : Ending}
    (h : scan d bl false cur = .ok (l :: ls, e)) :
    (l.token = .newline ∧ ∃ n, scan d bl true (cur.skip n) = .ok (ls, e)) ∨
      ∃ g c text rest d', cur.rest = g ++ c :: (text ++ rest) ∧
        (∀ k, (k = 0 → d = 0) → Idle k g c) ∧
        munch c (text ++ rest) = .token l.token text.length ∧ depthAfter d l.token = some d' ∧
        l = (cur.skip g.length).lexeme (text.length + 1) l.token ∧
        scan d' bl false ((cur.skip g.length).skip (text.length + 1)) = .ok (ls, e) := by
  -- Between brackets a line feed is passed over, and the scan goes on with a shorter text.
  induction hn : cur.rest.length using Nat.strongRecOn generalizing cur with
  | ind n ih =>
  cases hstart : (cur.skip (gap cur.rest)).rest with
  | nil =>
      rw [scan_end hstart] at h
      cases h
  | cons c cs =>
      obtain ⟨g, hrest, hgap⟩ := skip_gap hstart
      by_cases hc : c = '\n'
      · subst hc
        rw [scan_line hstart] at h
        by_cases hd : d = 0
        · rw [if_pos hd] at h
          cases hnext : scan d bl true ((cur.skip (gap cur.rest)).skip 1) with
          | error e => simp [hnext, bind, Except.bind] at h
          | ok p =>
              rw [hnext] at h
              cases h
              exact .inl ⟨rfl, gap cur.rest + 1, by rw [Cursor.skip_add, hnext]⟩
        · rw [if_neg hd, ← Cursor.skip_add] at h
          have hcs : (cur.skip (gap cur.rest + 1)).rest = cs := by
            rw [Cursor.skip_add, Cursor.rest_skip, hstart]
            rfl
          have hshorter : cs.length < n := by
            rw [← hn, hrest, List.length_append, List.length_cons]
            omega
          rcases ih _ hshorter h (by rw [hcs]) with ⟨hl, m, hnext⟩ |
            ⟨g', c, text, rest, d', hrest', hidle, ht, hd', hl, hnext⟩
          · exact .inl ⟨hl, _, by rw [Cursor.skip_add]; exact hnext⟩
          · rw [hcs] at hrest'
            have hskip : (cur.skip (gap cur.rest + 1)).skip g'.length =
                cur.skip (g ++ '\n' :: g').length := by
              rw [← Cursor.skip_add, hgap, List.length_append, List.length_cons]
              congr 1
              omega
            rw [hskip] at hl hnext
            refine .inr ⟨g ++ '\n' :: g', c, text, rest, d', ?_, ?_, ht, hd', hl, hnext⟩
            · rw [hrest, hrest', List.append_assoc, List.cons_append]
            · exact fun k hk => (hidle k hk).line (by rw [← hrest, hgap]) (mt hk hd)
      · obtain ⟨t, n, d', ls', ht, hd, hnext, hls⟩ := token_of_scan hstart hc h
        cases hls
        have hlength := (munch_plain ht).1
        refine .inr ⟨g, c, cs.take n, cs.drop n, d', ?_, ?_, ?_, hd, ?_, ?_⟩
        · rw [List.take_append_drop, hrest]
        · exact fun k _ => idle_of_gap (isFiller_of_munch ht) (by rw [← hrest, hgap])
        · rw [List.take_append_drop, List.length_take, Nat.min_eq_left hlength]
          exact ht
        · rw [List.length_take, Nat.min_eq_left hlength, ← hgap]
          rfl
        · rw [List.length_take, Nat.min_eq_left hlength, ← hgap, hnext]

/-! ## Pieces of a text -/

theorem depthAfter_add {t : Token} {d' : Nat} (h : depthAfter d t = some d') (k : Nat) :
    depthAfter (d + k) t = some (d' + k) := by
  cases t with
  | leftParen | leftBracket =>
      cases h
      exact congrArg some (Nat.add_right_comm d k 1)
  | rightParen | rightBracket =>
      rw [depthAfter] at h ⊢
      split at h
      next => cases h
      next hd =>
        cases h
        rw [if_neg (by omega), Nat.sub_add_comm (by omega)]
  | _ => cases h; rfl

/-- The bracket depth after some tokens. -/
def depthBehind (d : Nat) : List Token → Option Nat
  | [] => some d
  | k :: ks => (depthAfter d k).bind (depthBehind · ks)

theorem depthBehind_append (d : Nat) (ks ks' : List Token) :
    depthBehind d (ks ++ ks') = (depthBehind d ks).bind (depthBehind · ks') := by
  induction ks generalizing d with
  | nil => rfl
  | cons k ks ih =>
      rw [List.cons_append, depthBehind, depthBehind, Option.bind_assoc]
      simp only [ih]

/-- Between more brackets there are more brackets afterwards. -/
theorem depthBehind_add {d d' : Nat} {ks : List Token} (h : depthBehind d ks = some d') (k : Nat) :
    depthBehind (d + k) ks = some (d' + k) := by
  induction ks generalizing d with
  | nil =>
      cases h
      rfl
  | cons t ks ih =>
      rw [depthBehind, Option.bind_eq_some_iff] at h
      obtain ⟨d₁, hd, h⟩ := h
      rw [depthBehind, depthAfter_add hd, Option.bind_some]
      exact ih h

/-- From one place to another a scan finds the tokens `ls`, whatever becomes of it there. -/
def Finds (d : Nat) (cur : Cursor) (ls : List Lexeme) (d' : Nat) (cur' : Cursor) : Prop :=
  ∀ bl, scan d bl false cur = (scan d' bl false cur').map fun p => (ls ++ p.1, p.2)

theorem Finds.trans {d' d'' : Nat} {cur' cur'' : Cursor} {ls ls' : List Lexeme}
    (h : Finds d cur ls d' cur') (h' : Finds d' cur' ls' d'' cur'') :
    Finds d cur (ls ++ ls') d'' cur'' := by
  intro bl
  rw [h bl, h' bl]
  cases scan d'' bl false cur'' <;> simp [Except.map]

theorem finds_token {c : Char} {text rest : List Char} {t : Token} {d' : Nat}
    (hrest : cur.rest = c :: (text ++ rest)) (ht : munch c (text ++ rest) = .token t text.length)
    (hd : depthAfter d t = some d') :
    Finds d cur [cur.lexeme (text.length + 1) t] d' (cur.skip (text.length + 1)) := by
  intro bl
  have hgap : gap cur.rest = 0 := by
    rw [hrest, gap_cons (.inl (isFiller_of_munch ht))]
  have hstart : cur.skip (gap cur.rest) = cur := by
    rw [hgap]
    rfl
  have hscan : scan d bl false cur = _ := scan_token (by rw [hstart, hrest]) ht hd
  rwa [hstart] at hscan

theorem Finds.of_eq {cur' : Cursor} (h : ∀ bl, scan d bl false cur = scan d bl false cur') :
    Finds d cur [] d cur' := by
  intro bl
  rw [h bl]
  cases scan d bl false cur' <;> rfl

theorem Idle.finds {c : Char} {g cs : List Char} (h : Idle d g c) (hrest : cur.rest = g ++ c :: cs) :
    Finds d cur [] d (cur.skip g.length) :=
  .of_eq fun bl => h bl cur cs hrest

/-- At bracket depth `d` the text has the tokens `ks`, wherever it stands before characters with the
property `ok`. -/
def Spells (ok : List Char → Prop) (d : Nat) (text : List Char) (ks : List Token) (d' : Nat) :
    Prop :=
  ∀ cur rest, cur.rest = text ++ rest → ok rest →
    ∃ ls, ls.map (·.token) = ks ∧ Covers cur.offset (cur.offset + bytes text) ls ∧
      Finds d cur ls d' (cur.skip text.length)

theorem Spells.weaken {ok ok' : List Char → Prop} {d' : Nat} {text : List Char} {ks : List Token}
    (h : Spells ok d text ks d') (hok : ∀ rest, ok' rest → ok rest) : Spells ok' d text ks d' :=
  fun cur rest hrest hrest' => h cur rest hrest (hok rest hrest')

theorem Finds.unique {d₁ d₂ : Nat} {cur' : Cursor} {ls₁ ls₂ : List Lexeme}
    (h₁ : Finds d cur ls₁ d₁ cur') (h₂ : Finds d cur ls₂ d₂ cur') (hend : cur'.rest = []) :
    ls₁ = ls₂ := by
  have h := (h₁ []).symm.trans (h₂ [])
  rw [scan_nil hend, scan_nil hend] at h
  simpa [Except.map] using h

/-- A text has one sequence of tokens. -/
theorem Spells.unique {ok : List Char → Prop} {text : List Char} {ks₁ ks₂ : List Token}
    {d₁ d₂ : Nat} (h₁ : Spells Stops d text ks₁ d₁) (h₂ : Spells ok d text ks₂ d₂) (hok : ok []) :
    ks₁ = ks₂ := by
  have hrest : (Cursor.ofList text).rest = text ++ [] := (List.append_nil text).symm
  obtain ⟨ls₁, rfl, -, hfinds₁⟩ := h₁ _ [] hrest (by simp [Stops])
  obtain ⟨ls₂, rfl, -, hfinds₂⟩ := h₂ _ [] hrest hok
  rw [hfinds₁.unique hfinds₂ (Cursor.rest_skip_length hrest)]

/-- A text that has tokens is scanned, and they are found. -/
theorem Spells.scan_ofList {text : List Char} {ks : List Token} {d' : Nat}
    (h : Spells Stops d text ks d') :
    ∃ ls e, ls.map (·.token) = ks ∧ scan d [] false (Cursor.ofList text) = .ok (ls, e) := by
  have hrest : (Cursor.ofList text).rest = text ++ [] := (List.append_nil text).symm
  obtain ⟨ls, hks, -, hfinds⟩ := h _ [] hrest (by simp [Stops])
  have hscan := hfinds []
  rw [scan_nil (Cursor.rest_skip_length hrest)] at hscan
  exact ⟨ls, _, hks, by simpa [Except.map] using hscan⟩

theorem spells_token {c : Char} {text rest : List Char} {t : Token} {d' : Nat}
    (ht : munch c (text ++ rest) = .token t text.length) (hd : depthAfter d t = some d') :
    Spells Halts d (c :: text) [t] d' := by
  intro cur rest' hrest hhalts
  have ht' := munch_append (.halts hhalts) ht
  have hcovers : Covers cur.offset _ [cur.lexeme (c :: text).length t] := covers_lexeme hrest t
  exact ⟨[cur.lexeme (text.length + 1) t], rfl, hcovers, finds_token hrest ht' hd⟩

/-- A token before a piece of the text that it stood before. -/
theorem Spells.cons {c c' : Char} {text g text' rest : List Char} {t : Token} {ks : List Token}
    {d' d'' : Nat} (ht : munch c (text ++ (g ++ c' :: text' ++ rest)) = .token t text.length)
    (hd : depthAfter d t = some d') (hidle : Idle d' g c') (h : Spells Halts d' (c' :: text') ks d'') :
    Spells Halts d (c :: text ++ (g ++ c' :: text')) (t :: ks) d'' := by
  intro cur rest' hrest hhalts
  have hrest₁ : cur.rest = (c :: text) ++ (g ++ c' :: text' ++ rest') := by
    rw [hrest, List.append_assoc]
  have hrest₂ : (cur.skip (text.length + 1)).rest = g ++ (c' :: text' ++ rest') := by
    rw [← List.append_assoc]
    exact Cursor.rest_skip_length hrest₁
  have hrest₃ := Cursor.rest_skip_length hrest₂
  obtain ⟨ls, hks, hcovers, hfinds⟩ := h _ rest' hrest₃ hhalts
  refine ⟨cur.lexeme (text.length + 1) t :: ls, by rw [List.map_cons, hks]; rfl, ?_, ?_⟩
  · have hstop : cur.offset + bytes (c :: text ++ (g ++ c' :: text')) =
        ((cur.skip (text.length + 1)).skip g.length).offset + bytes (c' :: text') := by
      have hskip : (cur.skip (text.length + 1)).offset = _ := Cursor.offset_skip hrest₁
      rw [Cursor.offset_skip hrest₂, hskip, bytes_append, bytes_append]
      omega
    rw [hstop]
    exact hcovers.cons
  · have hfound := (finds_token hrest₁ (munch_append (.append hhalts) ht) hd).trans
      ((hidle.finds hrest₂).trans hfinds)
    rw [← Cursor.skip_add, ← Cursor.skip_add] at hfound
    have hlength : (c :: text ++ (g ++ c' :: text')).length =
        text.length + 1 + (g.length + (c' :: text').length) := by
      simp only [List.length_append, List.length_cons]
    rw [hlength]
    exact hfound

/-- Wherever no bracket is open between two of the tokens at depth `k`, none was open at depth `d`, or no
line ends there. -/
def Portable (source : List Char) (d k : Nat) (ls : List Lexeme) : Prop :=
  ∀ before l l' after, ls = before ++ l :: l' :: after →
    depthBehind k ((before ++ [l]).map (·.token)) = some 0 →
      depthBehind d ((before ++ [l]).map (·.token)) = some 0 ∨ Unbroken (slice source l.stop l'.start)

theorem Portable.tail {source : List Char} {k d' k' : Nat} {l : Lexeme} {ls : List Lexeme}
    (h : Portable source d k (l :: ls)) (hd : depthAfter d l.token = some d')
    (hk : depthAfter k l.token = some k') : Portable source d' k' ls := by
  intro before l₁ l₂ after hls hdepth
  have hbefore := h (l :: before) l₁ l₂ after (by rw [hls, List.cons_append])
  rw [List.cons_append, List.map_cons, depthBehind, depthBehind, hd, hk] at hbefore
  exact hbefore hdepth

/-- Tokens that were found at some depth may stand at a deeper place. -/
theorem portable_add {source : List Char} {d' : Nat} {ls : List Lexeme}
    (h : depthBehind d (ls.map (·.token)) = some d') (k : Nat) : Portable source d (d + k) ls := by
  intro before l l' after hls hdepth
  have hsplit : ls = (before ++ [l]) ++ l' :: after := by simpa using hls
  rw [hsplit, List.map_append, depthBehind_append, Option.bind_eq_some_iff] at h
  obtain ⟨i, hi, -⟩ := h
  rw [depthBehind_add hi, Option.some_inj] at hdepth
  exact .inl (by rw [hi, Nat.eq_zero_of_add_eq_zero_right hdepth])

/-- Tokens that a scan has found without a layout token among them are spelt by the text that they
cover, at every depth to which they may be carried. -/
theorem spells_of_scan {source : List Char} {used ls : List Lexeme} {e : Ending}
    (hin : cur.In source) (hne : used ≠ []) (hplain : ∀ l ∈ used, l.token.isLayout = false)
    (h : scan d bl false cur = .ok (used ++ ls, e)) :
    ∃ g c text rest d', cur.rest = g ++ (c :: text ++ rest) ∧ isFiller c = false ∧
      (∀ k, (k = 0 → d = 0) → Idle k g c) ∧
      Covers (cur.skip g.length).offset ((cur.skip g.length).offset + bytes (c :: text)) used ∧
      (∀ k k', Portable source d k used → depthBehind k (used.map (·.token)) = some k' →
        Spells Halts k (c :: text) (used.map (·.token)) k') ∧
      depthBehind d (used.map (·.token)) = some d' ∧
      scan d' bl false ((cur.skip g.length).skip (c :: text).length) = .ok (ls, e) := by
  induction used generalizing d cur with
  | nil => exact absurd rfl hne
  | cons l used ih =>
      rcases scan_cons h with ⟨hl, -⟩ | ⟨g, c, text, rest, d', hrest, hidle, ht, hd, hl, hnext⟩
      · have := hplain l List.mem_cons_self
        rw [hl] at this
        cases this
      · have hc := isFiller_of_munch ht
        have hl_start : l.start = (cur.skip g.length).offset := by rw [hl]; rfl
        have hl_stop : l.stop = ((cur.skip g.length).skip (text.length + 1)).offset := by rw [hl]; rfl
        have hstart : (cur.skip g.length).rest = c :: text ++ rest :=
          Cursor.rest_skip_length hrest
        cases used with
        | nil =>
            refine ⟨g, c, text, rest, d', hrest, hc, hidle, ?_, fun k k' _ hk => ?_, ?_, hnext⟩
            · rw [hl]
              exact covers_lexeme hstart l.token
            · refine spells_token ht ?_
              simpa [depthBehind] using hk
            · simp [depthBehind, hd]
        | cons l' used =>
            have hin' : ((cur.skip g.length).skip (text.length + 1)).In source :=
              (hin.skip_any _).skip_any _
            obtain ⟨g', c', text', rest', d'', hrest', hc', hidle', hcovers, hspells, hdepth, hnext'⟩ :=
              ih hin' (by simp) (fun l hl => hplain l (List.mem_cons_of_mem _ hl)) hnext
            have hafter : rest = g' ++ c' :: text' ++ rest' := by
              rw [List.append_assoc, ← hrest']
              exact (Cursor.rest_skip_length hstart).symm
            subst hafter
            have hskip : (((cur.skip g.length).skip (text.length + 1)).skip g'.length).skip
                (c' :: text').length =
                  (cur.skip g.length).skip (c :: (text ++ (g' ++ c' :: text'))).length := by
              simp only [← Cursor.skip_add, List.length_append, List.length_cons]
              congr 1
              omega
            have hoffset : (((cur.skip g.length).skip (text.length + 1)).skip g'.length).offset =
                (cur.skip g.length).offset + bytes (c :: text) + bytes g' := by
              have hoffset₁ : ((cur.skip g.length).skip (text.length + 1)).offset = _ :=
                Cursor.offset_skip hstart
              rw [Cursor.offset_skip hrest', hoffset₁]
            have hgap : slice source l.stop l'.start = g' := by
              have hl'_start : l'.start =
                  (((cur.skip g.length).skip (text.length + 1)).skip g'.length).offset := by
                simpa using hcovers.1
              rw [hl_stop, hl'_start]
              exact hin'.slice hrest'
            refine ⟨g, c, text ++ (g' ++ c' :: text'), rest', d'', ?_, hc, hidle, ?_,
              fun k k' hportable hk => ?_, ?_, ?_⟩
            · rw [hrest]
              simp
            · have hcons := hcovers.cons (l := l)
              have hbytes : bytes (c :: (text ++ (g' ++ c' :: text'))) =
                  bytes (c :: text) + bytes g' + bytes (c' :: text') := by
                simp only [bytes_cons, bytes_append]
                omega
              rw [hl_start, hoffset] at hcons
              rwa [hbytes, ← Nat.add_assoc, ← Nat.add_assoc]
            · rw [List.map_cons, depthBehind, Option.bind_eq_some_iff] at hk
              obtain ⟨k₁, hk₁, hk⟩ := hk
              -- Outside of all brackets the gap must not hold a line feed: `Portable` says so.
              have hbetween : Idle k₁ g' c' := by
                rcases Nat.eq_zero_or_pos k₁ with rfl | hpos
                · have hsplit := hportable [] l l' used rfl (by simp [depthBehind, hk₁])
                  rw [hgap, List.nil_append, List.map_singleton, depthBehind, hd] at hsplit
                  rcases hsplit with hflat | hunbroken
                  · cases hflat
                    exact hidle' 0 fun _ => rfl
                  · exact idle_of_gap hc' (hunbroken.gap hc' [])
                · exact hidle' k₁ fun hzero => absurd hzero (Nat.pos_iff_ne_zero.1 hpos)
              exact (hspells k₁ k' (hportable.tail hd hk₁) hk).cons ht hk₁ hbetween
            · rw [List.map_cons, depthBehind, hd]
              exact hdepth
            · rw [← hskip]
              exact hnext'

/-- Up to the end of a line a scan finds nothing but tokens that stand in the text. -/
theorem scan_munched {used ls : List Lexeme} {e : Ending}
    (h : scan d bl false cur = .ok (used ++ ls, e)) (hused : ∀ l ∈ used, l.token ≠ .newline) :
    ∀ l ∈ used, ∃ c cs n, munch c cs = .token l.token n := by
  induction used generalizing d cur with
  | nil => simp
  | cons l used ih =>
      obtain ⟨hl, hused⟩ := List.forall_mem_cons.1 hused
      rcases scan_cons h with ⟨hline, -⟩ | ⟨_, _, _, _, _, -, -, ht, -, -, hnext⟩
      · exact absurd hline hl
      · exact List.forall_mem_cons.2 ⟨⟨_, _, _, ht⟩, ih hnext hused⟩

/-- A scan finds no layout before the end of a line. -/
theorem scan_plain {used ls : List Lexeme} {e : Ending}
    (h : scan d bl false cur = .ok (used ++ ls, e)) (hused : ∀ l ∈ used, l.token ≠ .newline) :
    ∀ l ∈ used, l.token.isLayout = false := by
  intro l hl
  obtain ⟨c, cs, n, ht⟩ := scan_munched h hused l hl
  exact (munch_plain ht).2.1

/-! ## What is left of the tokens of a text -/

/-- The tokens `ls` are left of the tokens of a text, from a place at bracket depth `d` on: marks of
the layout, what a scan finds, and the marks that close the text. -/
def Remains (source : List Char) (d : Nat) (ls : List Lexeme) : Prop :=
  ∃ marks found tail, ls = marks ++ (found ++ tail) ∧ (∀ l ∈ marks, l.token.isLayout = true) ∧
    (∀ l ∈ tail, l.token.isLayout = true) ∧
    ∃ bl cur e, cur.In source ∧ scan d bl false cur = .ok (found, e)

/-- The marks before a line start a block or end some. They take no text. -/
theorem align_marks {bl bl' : List Nat} {w : Nat} {cur : Cursor} {marks : List Lexeme}
    (h : align bl w cur = .ok (marks, bl')) :
    ∀ l ∈ marks, l = cur.lexeme 0 .indent ∨ l = cur.lexeme 0 .dedent := by
  intro l hl
  simp only [align] at h
  split at h
  · cases h
    exact .inl (List.mem_singleton.1 hl)
  · split at h
    · cases h
      exact .inr (List.eq_of_mem_replicate hl)
    · cases h

/-- A scan from the start of a line ends the text, passes over the line, or goes on behind the marks
of its layout. -/
theorem scan_fresh {ls : List Lexeme} {e : Ending} (h : scan d bl true cur = .ok (ls, e)) :
    (ls = [] ∧ (cur.skip (margin cur.rest).length).rest = []) ∨
      (∃ n, (cur.skip n).rest.length < cur.rest.length ∧
        scan d bl true (cur.skip n) = .ok (ls, e)) ∨
      ∃ n marks bl' found, ls = marks ++ found ∧ (∀ l ∈ marks, l.token.isLayout = true) ∧
        scan d bl' false (cur.skip n) = .ok (found, e) := by
  have hshorter : ∀ n, (cur.skip (margin cur.rest).length).rest ≠ [] →
      (cur.skip ((margin cur.rest).length + (n + 1))).rest.length < cur.rest.length := by
    intro n hne
    rw [Cursor.rest_skip] at hne ⊢
    rw [List.length_drop]
    have := mt List.drop_eq_nil_of_le hne
    omega
  rw [scan] at h
  simp only [if_true] at h
  split at h
  next hs =>
    cases h
    exact .inl ⟨rfl, hs⟩
  next c cs hs =>
    have hne : (cur.skip (margin cur.rest).length).rest ≠ [] := by
      rw [hs]
      exact List.cons_ne_nil _ _
    split at h
    next =>
      rw [← Cursor.skip_add] at h
      exact .inr (.inl ⟨_, hshorter 0 hne, h⟩)
    next =>
      split at h
      next =>
        rw [← Cursor.skip_add] at h
        exact .inr (.inl ⟨_, hshorter _ hne, h⟩)
      next =>
        cases halign : align bl (width (margin cur.rest)) (cur.skip (margin cur.rest).length) with
        | error e => simp [halign, bind, Except.bind] at h
        | ok p =>
            obtain ⟨marks, bl'⟩ := p
            cases hscan : scan d bl' false (cur.skip (margin cur.rest).length) with
            | error e => simp [halign, hscan, bind, Except.bind] at h
            | ok q =>
                obtain ⟨found, e'⟩ := q
                simp [halign, hscan, bind, Except.bind, pure, Except.pure] at h
                obtain ⟨rfl, rfl⟩ := h
                refine .inr (.inr ⟨_, marks, bl', found, rfl, fun l hl => ?_, hscan⟩)
                rcases align_marks halign l hl with rfl | rfl <;> rfl

theorem remains_of_scan {source : List Char} {found tail : List Lexeme} {e : Ending}
    (hin : cur.In source) (h : scan d bl true cur = .ok (found, e))
    (htail : ∀ l ∈ tail, l.token.isLayout = true) : Remains source d (found ++ tail) := by
  induction hn : cur.rest.length using Nat.strongRecOn generalizing cur with
  | ind n ih =>
      rcases scan_fresh h with ⟨rfl, hend⟩ | ⟨m, hshorter, h⟩ | ⟨m, marks, bl', ls, rfl, hmarks, h⟩
      · exact ⟨[], [], tail, rfl, by simp, htail, [], _, _, hin.skip_any _, scan_nil hend⟩
      · exact ih _ (hn ▸ hshorter) (hin.skip_any m) h rfl
      · exact ⟨marks, ls, tail, List.append_assoc _ _ _, hmarks, htail, bl', _, e,
          hin.skip_any m, h⟩

/-- The tokens that close a text are marks of the layout and take none of it. -/
theorem Ending.lexemes_marks (e : Ending) (last : Option Token) :
    ∀ l ∈ e.lexemes last, ∃ t : Token, t.isLayout = true ∧ l = e.cur.lexeme 0 t := by
  intro l hl
  simp only [Ending.lexemes, List.append_assoc, List.mem_append, List.mem_singleton] at hl
  rcases hl with hl | hl | rfl
  · split at hl
    next => cases hl
    next => cases hl
    next => exact ⟨.newline, rfl, List.mem_singleton.1 hl⟩
  · exact ⟨.dedent, rfl, List.eq_of_mem_replicate hl⟩
  · exact ⟨.eof, rfl, rfl⟩

theorem Ending.lexemes_layout (e : Ending) (last : Option Token) :
    ∀ l ∈ e.lexemes last, l.token.isLayout = true := by
  intro l hl
  obtain ⟨mark, hlayout, rfl⟩ := e.lexemes_marks last l hl
  exact hlayout

theorem remains_of_tokenize {source : List Char} {ls : List Lexeme}
    (h : tokenize source = .ok ls) : Remains source 0 ls := by
  rw [tokenize] at h
  cases hscan : scan 0 [] true (Cursor.ofList source) with
  | error e => simp [hscan, bind, Except.bind] at h
  | ok p =>
      obtain ⟨found, e⟩ := p
      simp only [hscan, bind, Except.bind, pure, Except.pure, Except.ok.injEq] at h
      subst h
      exact remains_of_scan (Cursor.in_ofList source) hscan (e.lexemes_layout _)

namespace Remains

variable {source : List Char} {l : Lexeme} {ls : List Lexeme}

/-- A layout token changes nothing. -/
theorem layout (h : Remains source d (l :: ls)) (hl : l.token.isLayout = true) :
    Remains source d ls := by
  obtain ⟨marks, found, tail, hls, hmarks, htail, bl, cur, e, hin, hscan⟩ := h
  cases marks with
  | cons m marks =>
      cases hls
      exact ⟨marks, found, tail, rfl, fun l hl => hmarks l (List.mem_cons_of_mem _ hl), htail, bl,
        cur, e, hin, hscan⟩
  | nil =>
      cases found with
      | nil =>
          rw [List.nil_append, List.nil_append] at hls
          subst hls
          exact ⟨[], [], ls, rfl, by simp, fun l hl => htail l (List.mem_cons_of_mem _ hl), bl, cur,
            e, hin, hscan⟩
      | cons l' found =>
          cases hls
          rcases scan_cons hscan with ⟨-, n, hnext⟩ | ⟨_, _, _, _, _, -, -, ht, -⟩
          · exact remains_of_scan (hin.skip_any n) hnext htail
          · rw [(munch_plain ht).2.1] at hl
            cases hl

/-- What is left from a token of the text on is what a scan finds, and the marks that close. -/
theorem found (h : Remains source d (l :: ls)) (hl : l.token.isLayout = false) :
    ∃ found tail, l :: ls = found ++ tail ∧ (∀ l ∈ tail, l.token.isLayout = true) ∧
      ∃ bl cur e, cur.In source ∧ scan d bl false cur = .ok (found, e) := by
  obtain ⟨marks, found, tail, hls, hmarks, htail, hscan⟩ := h
  cases marks with
  | nil => exact ⟨found, tail, hls, htail, hscan⟩
  | cons m marks =>
      cases hls
      rw [hmarks l List.mem_cons_self] at hl
      cases hl

/-- There is no layout between tokens of one line. -/
theorem plain {used : List Lexeme} {b : Lexeme} (h : Remains source d (l :: used ++ b :: ls))
    (hl : l.token.isLayout = false) (hb : b.token.isLayout = false)
    (hused : ∀ m ∈ used, m.token ≠ .newline) : ∀ m ∈ l :: used, m.token.isLayout = false := by
  obtain ⟨found, tail, hls, htail, bl, cur, e, -, hscan⟩ := h.found hl
  have happend : (l :: used) ++ b :: ls = found ++ tail := hls
  rcases List.append_eq_append_iff.1 happend with ⟨found', rfl, -⟩ | ⟨more, -, rfl⟩
  · refine scan_plain hscan fun m hm => ?_
    rcases List.mem_cons.1 hm with rfl | hm
    · rintro heq
      rw [heq] at hl
      cases hl
    · exact hused m hm
  · rw [htail b (by simp)] at hb
    cases hb

/-- Tokens of the text are found one after the other. -/
theorem scanned {used : List Lexeme} (h : Remains source d (used ++ ls)) (hne : used ≠ [])
    (hplain : ∀ l ∈ used, l.token.isLayout = false) :
    ∃ found tail bl cur e, ls = found ++ tail ∧ (∀ l ∈ tail, l.token.isLayout = true) ∧
      cur.In source ∧ scan d bl false cur = .ok (used ++ found, e) := by
  obtain ⟨l, used', rfl⟩ := List.exists_cons_of_ne_nil hne
  obtain ⟨found, tail, hls, htail, bl, cur, e, hin, hscan⟩ := h.found (hplain l List.mem_cons_self)
  have happend : l :: used' ++ ls = found ++ tail := hls
  rcases List.append_eq_append_iff.1 happend with ⟨found', rfl, hls'⟩ | ⟨more, hused, htail'⟩
  · exact ⟨found', tail, bl, cur, e, hls', htail, hin, hscan⟩
  · cases more with
    | nil =>
        obtain rfl : l :: used' = found := by simpa using hused
        exact ⟨[], tail, bl, cur, e, by simpa using htail'.symm, htail, hin, by simpa using hscan⟩
    | cons m more =>
        have hlayout := htail m (by rw [htail']; simp)
        rw [hplain m (by rw [hused]; simp)] at hlayout
        cases hlayout

/-- Tokens of the text are spelt by a piece of it, at every depth to which they may be carried. -/
theorem spelt {used : List Lexeme} (h : Remains source d (used ++ ls)) (hne : used ≠ [])
    (hplain : ∀ l ∈ used, l.token.isLayout = false) :
    ∃ c text d', Spans source used (c :: text) ∧ isFiller c = false ∧
      (∀ k k', Portable source d k used → depthBehind k (used.map (·.token)) = some k' →
        Spells Halts k (c :: text) (used.map (·.token)) k') ∧
      depthBehind d (used.map (·.token)) = some d' ∧ Remains source d' ls := by
  obtain ⟨found, tail, bl, cur, e, rfl, htail, hin, hscan⟩ := h.scanned hne hplain
  obtain ⟨g, c, text, rest, d', hrest, hc, -, hcovers, hspells, hdepth, hnext⟩ :=
    spells_of_scan hin hne hplain hscan
  refine ⟨c, text, d', hcovers.spans (hin.skip hrest) (Cursor.rest_skip_length hrest), hc, hspells,
    hdepth, [], found, tail, rfl, by simp, htail, bl, _, e, ?_, hnext⟩
  exact (hin.skip_any _).skip_any _

/-- Tokens of the text are spelt by a piece of it, between more brackets as well. -/
theorem spells {used : List Lexeme} (h : Remains source d (used ++ ls)) (hne : used ≠ [])
    (hplain : ∀ l ∈ used, l.token.isLayout = false) :
    ∃ text d', Spans source used text ∧
      (∀ k, Spells Stops (d + k) text (used.map (·.token)) (d' + k)) ∧
      depthBehind d (used.map (·.token)) = some d' ∧ Remains source d' ls := by
  obtain ⟨c, text, d', hspans, -, hspells, hdepth, hremains⟩ := h.spelt hne hplain
  refine ⟨c :: text, d', hspans, fun k => ?_, hdepth, hremains⟩
  exact (hspells _ _ (portable_add hdepth k) (depthBehind_add hdepth k)).weaken fun _ => Stops.halts

/-- Each token leaves what comes behind it at the bracket depth behind it. -/
theorem tail (h : Remains source d (l :: ls)) :
    ∃ d', depthAfter d l.token = some d' ∧ Remains source d' ls := by
  by_cases hl : l.token.isLayout = true
  · refine ⟨d, ?_, h.layout hl⟩
    cases hk : l.token <;> rw [hk] at hl <;> first | rfl | cases hl
  · have hplain : ∀ m ∈ [l], m.token.isLayout = false := by simpa using hl
    have hsplit : Remains source d ([l] ++ ls) := h
    obtain ⟨text, d', -, -, hdepth, hremains⟩ := hsplit.spells (by simp) hplain
    exact ⟨d', by simpa [depthBehind] using hdepth, hremains⟩

/-- What is left behind some of the tokens. -/
theorem drop {before : List Lexeme} (h : Remains source d (before ++ ls)) :
    ∃ d', depthBehind d (before.map (·.token)) = some d' ∧ Remains source d' ls := by
  induction before generalizing d with
  | nil => exact ⟨d, rfl, h⟩
  | cons l before ih =>
      obtain ⟨d₁, hd₁, hremains⟩ := h.tail
      obtain ⟨d₂, hd₂, hremains'⟩ := ih hremains
      exact ⟨d₂, by rw [List.map_cons, depthBehind, hd₁, Option.bind_some, hd₂], hremains'⟩

/-- An identifier of a text is a name. -/
theorem isName {name : String} (h : Remains source d (l :: ls)) (hl : l.token = .ident name) :
    isName name = true := by
  have hplain : l.token.isLayout = false := by
    rw [hl]
    rfl
  obtain ⟨found, tail, hls, htail, bl, cur, e, -, hscan⟩ := h.found hplain
  cases found with
  | nil =>
      have := htail l (by rw [← hls.trans (List.nil_append tail)]; exact List.mem_cons_self)
      rw [hplain] at this
      cases this
  | cons l' found =>
      cases hls
      rcases scan_cons hscan with ⟨hline, -⟩ | ⟨_, _, _, _, _, -, -, ht, -⟩
      · rw [hl] at hline
        cases hline
      · exact (munch_plain ht).2.2 name hl

end Remains

end LiveUI.Source
