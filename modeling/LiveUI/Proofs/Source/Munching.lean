import Mathlib
import LiveUI.Source.Lexing

/-! # How far a token looks ahead

To find the end of a token at most two characters behind it are looked at, and a blank, a comma, a
closing bracket or the end of a line ends every token. So a token is found again wherever it stands
before one of these, or before the characters that it stood before. -/

namespace LiveUI.Source

/-- A character that no token goes on with. -/
def isStop (c : Char) : Bool :=
  c == ' ' || c == ',' || c == ')' || c == '\n'

/-- What follows ends every token. -/
def Stops (cs : List Char) : Prop :=
  ∀ c ∈ cs.head?, isStop c = true

/-- No token goes on with a closing square bracket or a carriage return either. -/
def isEnd (c : Char) : Bool :=
  isStop c || c == ']' || c == '\r'

def Halts (cs : List Char) : Prop :=
  ∀ c ∈ cs.head?, isEnd c = true

theorem isEnd_of_isStop {c : Char} (h : isStop c = true) : isEnd c = true := by
  rw [isEnd, h, Bool.true_or, Bool.true_or]

theorem Stops.halts {cs : List Char} (h : Stops cs) : Halts cs :=
  fun c hc => isEnd_of_isStop (h c hc)

/-- What follows ends a token as `cs` does. -/
inductive Ends (cs : List Char) : List Char → Prop where
  | halts {cs' : List Char} (h : Halts cs') : Ends cs cs'
  | same {c : Char} {rest rest' : List Char} (h : cs = c :: rest)
      (hrest : rest.head? = rest'.head? ∨ Halts rest') : Ends cs (c :: rest')

/-- A common beginning looks ahead no further than its end. -/
theorem Ends.append {text rest rest' : List Char} (h : Halts rest') :
    Ends (text ++ rest) (text ++ rest') := by
  cases text with
  | nil => exact .halts h
  | cons c text =>
      refine .same rfl ?_
      cases text with
      | nil => exact .inr h
      | cons d text => exact .inl rfl

theorem cases_of_isEnd {c : Char} (h : isEnd c = true) :
    c = ' ' ∨ c = ',' ∨ c = ')' ∨ c = '\n' ∨ c = ']' ∨ c = '\r' := by
  simpa [isEnd, isStop, or_assoc] using h

theorem doubleSymbol_of_isEnd (c : Char) {d : Char} (h : isEnd d = true) :
    doubleSymbol c d = none := by
  rcases cases_of_isEnd h with rfl | rfl | rfl | rfl | rfl | rfl <;> simp [doubleSymbol]

theorem doubleSymbol_of_isStop (c : Char) {d : Char} (h : isStop d = true) :
    doubleSymbol c d = none :=
  doubleSymbol_of_isEnd c (isEnd_of_isStop h)

theorem isWordPart_of_isEnd (c : Char) (h : isEnd c = true) : isWordPart c = false := by
  rcases cases_of_isEnd h with rfl | rfl | rfl | rfl | rfl | rfl <;> rfl

theorem isNumeralPart_of_isEnd (c : Char) (h : isEnd c = true) : isNumeralPart c = false := by
  rcases cases_of_isEnd h with rfl | rfl | rfl | rfl | rfl | rfl <;> rfl

/-- No word, numeral or fraction goes on behind what ends a token. -/
theorem Ends.head {p : Char → Bool} (hp : ∀ c, isEnd c = true → p c = false) {cs cs' : List Char}
    (h : Ends cs cs') (hcs : ∀ c ∈ cs.head?, p c = false) : ∀ c ∈ cs'.head?, p c = false := by
  cases h with
  | halts h => exact fun c hc => hp c (h c hc)
  | same h hrest =>
      subst h
      exact hcs

theorem takeWhile_append_stop {p : Char → Bool} {text rest : List Char} (h : ∀ c ∈ text, p c = true)
    (hrest : ∀ c ∈ rest.head?, p c = false) : (text ++ rest).takeWhile p = text := by
  rw [List.takeWhile_append_of_pos h]
  cases rest with
  | nil => simp
  | cons c rest => simp [hrest c rfl]

theorem dropWhile_append_stop {p : Char → Bool} {text rest : List Char} (h : ∀ c ∈ text, p c = true)
    (hrest : ∀ c ∈ rest.head?, p c = false) : (text ++ rest).dropWhile p = rest := by
  rw [List.dropWhile_append_of_pos h]
  cases rest with
  | nil => rfl
  | cons c rest => simp [hrest c rfl]

/-- A run that is as long as `text` is `text`. -/
theorem run_of_length {p : Char → Bool} {text rest : List Char}
    (h : ((text ++ rest).takeWhile p).length = text.length) :
    (∀ c ∈ text, p c = true) ∧ ∀ c ∈ rest.head?, p c = false := by
  have hsplit : (text ++ rest).takeWhile p ++ (text ++ rest).dropWhile p = text ++ rest :=
    List.takeWhile_append_dropWhile
  obtain ⟨htext, hrest⟩ := List.append_inj hsplit h
  constructor
  · intro c hc
    rw [← htext] at hc
    exact List.all_eq_true.1 List.all_takeWhile c hc
  · intro c hc
    rw [← hrest] at hc
    have hne : (text ++ rest).dropWhile p ≠ [] := by
      rintro hnil
      simp [hnil] at hc
    have hhead := List.head_dropWhile_not p hne
    rw [List.head?_eq_some_head hne, Option.mem_some_iff] at hc
    rwa [hc] at hhead

/-- A text is a run of such characters and what follows it. -/
theorem run_split (p : Char → Bool) (cs : List Char) :
    ∃ text rest, cs = text ++ rest ∧ (∀ c ∈ text, p c = true) ∧ ∀ c ∈ rest.head?, p c = false :=
  ⟨cs.takeWhile p, cs.dropWhile p, List.takeWhile_append_dropWhile.symm,
    run_of_length (by rw [List.takeWhile_append_dropWhile])⟩

theorem symbol?_append {c : Char} {text rest rest' : List Char} {t : Token} (h : Ends rest rest')
    (hsymbol : symbol? c (text ++ rest) = some (t, text.length)) :
    symbol? c (text ++ rest') = some (t, text.length) := by
  cases text with
  | nil =>
      have hsingle : (singleSymbol c).map (·, 0) = some (t, 0) := by
        cases rest with
        | nil => exact hsymbol
        | cons d rest =>
            simp only [List.nil_append, symbol?] at hsymbol
            cases hdouble : doubleSymbol c d with
            | none => simpa [hdouble] using hsymbol
            | some t' => simp [hdouble] at hsymbol
      cases rest' with
      | nil => exact hsingle
      | cons d' rest' =>
          have hdouble : doubleSymbol c d' = none := by
            cases h with
            | halts h => exact doubleSymbol_of_isEnd c (h d' rfl)
            | same h _ =>
                subst h
                simp only [List.nil_append, symbol?] at hsymbol
                cases hdouble : doubleSymbol c d' with
                | none => rfl
                | some t' => simp [hdouble] at hsymbol
          simpa [symbol?, hdouble] using hsingle
  | cons d text =>
      simp only [List.cons_append, symbol?] at hsymbol ⊢
      cases hdouble : doubleSymbol c d with
      | none => simp [hdouble] at hsymbol
      | some t' => simpa [hdouble] using hsymbol

/-! ## Tokens by their first character -/

/-- No symbol starts with a quotation mark, a digit or a letter. -/
theorem symbol?_eq_none {c : Char}
    (h : (c = Text.doubleMark ∨ c = Text.singleMark) ∨ c.isDigit = true ∨ isWordStart c = true)
    (cs : List Char) : symbol? c cs = none := by
  have hsingle : singleSymbol c = none := by
    unfold singleSymbol
    split <;> first
      | rfl
      | simp [Text.doubleMark, Text.singleMark, isWordStart, Char.isAlpha, Char.isUpper,
          Char.isLower, Char.isDigit] at h
  have hdouble : ∀ d, doubleSymbol c d = none := by
    intro d
    unfold doubleSymbol
    split <;> first
      | rfl
      | simp [Text.doubleMark, Text.singleMark, isWordStart, Char.isAlpha, Char.isUpper,
          Char.isLower, Char.isDigit] at h
  cases cs with
  | nil => simp [symbol?, hsingle]
  | cons d cs => simp [symbol?, hsingle, hdouble]

theorem munch_eq_string {c : Char} (h : c = Text.doubleMark ∨ c = Text.singleMark)
    (cs : List Char) : munch c cs = munchString c cs := by
  rw [munch, symbol?_eq_none (.inl h)]
  simp [h]

theorem munch_eq_numeral {c : Char} (h : c.isDigit = true) (cs : List Char) :
    munch c cs = munchNumeral c cs := by
  have hmark : ¬(c = Text.doubleMark ∨ c = Text.singleMark) := by
    rintro (rfl | rfl) <;> simp [Text.doubleMark, Text.singleMark, Char.isDigit] at h
  rw [munch, symbol?_eq_none (.inr (.inl h))]
  simp [hmark, h]

theorem munch_eq_word {c : Char} (h : isWordStart c = true) (cs : List Char) :
    munch c cs = munchWord c cs := by
  have hmark : ¬(c = Text.doubleMark ∨ c = Text.singleMark) := by
    rintro (rfl | rfl) <;> simp [Text.doubleMark, Text.singleMark, isWordStart, Char.isAlpha,
      Char.isUpper, Char.isLower] at h
  have hdigit : c.isDigit = false := by
    rw [Bool.eq_false_iff]
    intro hdigit
    simp [isWordStart, Char.isAlpha, Char.isUpper, Char.isLower, Char.isDigit, UInt32.le_iff_toNat_le] at h hdigit
    rcases h with h | rfl
    · omega
    · simp at hdigit
  rw [munch, symbol?_eq_none (.inr (.inr h))]
  simp [hmark, h, hdigit]

/-- A token is a symbol, a string, a numeral or a word. -/
theorem munch_cases {c : Char} {cs : List Char} {t : Token} {n : Nat}
    (h : munch c cs = .token t n) :
    symbol? c cs = some (t, n) ∨
      (c = Text.doubleMark ∨ c = Text.singleMark) ∧ munchString c cs = .token t n ∨
      c.isDigit = true ∧ munchNumeral c cs = .token t n ∨
      isWordStart c = true ∧ munchWord c cs = .token t n := by
  rw [munch] at h
  cases hsymbol : symbol? c cs with
  | some p =>
      rw [hsymbol] at h
      obtain ⟨t', n'⟩ := p
      simp only [Munch.token.injEq] at h
      exact .inl (by rw [h.1, h.2])
  | none =>
      rw [hsymbol] at h
      simp only at h
      split at h
      next hmark => exact .inr (.inl ⟨hmark, h⟩)
      next =>
        split at h
        next hdigit => exact .inr (.inr (.inl ⟨hdigit, h⟩))
        next =>
          split at h
          next hstart => exact .inr (.inr (.inr ⟨hstart, h⟩))
          next => cases h

/-! ## Strings -/

/-- The body of a string reaches up to its closing mark and no further. -/
theorem stringBody_take {mark : Char} {cs content : List Char} {n : Nat}
    (h : stringBody mark cs = .ok (content, n)) :
    n ≤ cs.length ∧ ∀ rest, stringBody mark (cs.take n ++ rest) = .ok (content, n) := by
  fun_induction stringBody mark cs generalizing content n with
  | case1 => cases h
  | case2 => cases h
  | case3 cs hline =>
      cases h
      refine ⟨by simp, fun rest => ?_⟩
      rw [List.take_succ_cons, List.cons_append, stringBody.eq_def]
      simp [hline]
  | case4 => cases h
  | case5 e cs body n hbody hline hmark ih =>
      cases h
      obtain ⟨hlength, htake⟩ := ih hbody
      refine ⟨by simpa using hlength, fun rest => ?_⟩
      simp [stringBody, hmark, htake rest]
  | case6 => cases h
  | case7 c cs hline hmark hescape body n hbody ih =>
      cases h
      obtain ⟨hlength, htake⟩ := ih hbody
      refine ⟨by simpa using hlength, fun rest => ?_⟩
      rw [List.take_succ_cons, List.cons_append, stringBody.eq_def]
      simp [hline, hmark, hescape, htake rest]
  | case8 => cases h

theorem munchString_eq_token {mark : Char} {cs : List Char} {t : Token} {n : Nat}
    (h : munchString mark cs = .token t n) :
    ∃ content, t = .str (String.ofList content) ∧ stringBody mark cs = .ok (content, n) := by
  rw [munchString] at h
  cases hbody : stringBody mark cs with
  | error e => simp [hbody] at h
  | ok p =>
      obtain ⟨content, n'⟩ := p
      simp only [hbody, Munch.token.injEq] at h
      exact ⟨content, h.1.symm, by rw [h.2]⟩

theorem munchString_append {mark : Char} {text rest rest' : List Char} {t : Token}
    (h : munchString mark (text ++ rest) = .token t text.length) :
    munchString mark (text ++ rest') = .token t text.length := by
  obtain ⟨content, rfl, hbody⟩ := munchString_eq_token h
  have htake := (stringBody_take hbody).2 rest'
  rw [List.take_left] at htake
  rw [munchString, htake]

/-! ## Numerals -/

/-- A point and a digit, which go on with a numeral. -/
def Pointed (cs : List Char) : Prop :=
  ∃ d rest, cs = '.' :: d :: rest ∧ d.isDigit = true

theorem Ends.not_pointed {cs cs' : List Char} (h : Ends cs cs') (hcs : ¬Pointed cs) :
    ¬Pointed cs' := by
  rintro ⟨d, rest, rfl, hd⟩
  cases h with
  | halts h => simpa [isEnd, isStop] using h '.' rfl
  | same h hrest =>
      subst h
      rcases hrest with hhead | hhalts
      · obtain ⟨rest', rfl⟩ := List.head?_eq_some_iff.1 hhead
        exact hcs ⟨d, rest', rfl, hd⟩
      · rcases cases_of_isEnd (hhalts d rfl) with rfl | rfl | rfl | rfl | rfl | rfl <;>
          simp [Char.isDigit] at hd

/-- The token of a numeral without a point. -/
theorem munchNumeral_whole {c : Char} {text rest : List Char}
    (htext : ∀ d ∈ text, isNumeralPart d = true) (hrest : ∀ d ∈ rest.head?, isNumeralPart d = false)
    (hpoint : ¬Pointed rest) :
    munchNumeral c (text ++ rest) =
      (Number.int64? (Number.digitsValue ((c :: text).filter (· ≠ '_')))).elim
        (.fault (.integerRange (String.ofList ((c :: text).filter (· ≠ '_')))) (text.length + 1))
        (fun n => .token (.int n) text.length) := by
  rw [munchNumeral, takeWhile_append_stop htext hrest, dropWhile_append_stop htext hrest]
  split
  next d rest' =>
    split
    next hd => exact absurd ⟨d, rest', rfl, hd⟩ hpoint
    next => cases Number.int64? (Number.digitsValue ((c :: text).filter (· ≠ '_'))) <;> rfl
  next => cases Number.int64? (Number.digitsValue ((c :: text).filter (· ≠ '_'))) <;> rfl

/-- The token of a numeral with a point, and the characters that it takes. -/
theorem munchNumeral_pointed {c d : Char} {text fraction rest : List Char}
    (htext : ∀ d ∈ text, isNumeralPart d = true) (hd : d.isDigit = true)
    (hfraction : ∀ d ∈ fraction, isNumeralPart d = true)
    (hrest : ∀ d ∈ rest.head?, isNumeralPart d = false) :
    munchNumeral c (text ++ '.' :: d :: (fraction ++ rest)) =
      .token (.float (Number.decimalFloat false
        (Number.digitsValue ((c :: text).filter (· ≠ '_') ++ (d :: fraction).filter (· ≠ '_')))
        (-(((d :: fraction).filter (· ≠ '_')).length : Int))))
        (text.length + (fraction.length + 2)) := by
  have hpoint : ∀ d ∈ ('.' :: d :: (fraction ++ rest)).head?, isNumeralPart d = false := by
    simp [isNumeralPart, Char.isDigit]
  rw [munchNumeral, takeWhile_append_stop htext hpoint, dropWhile_append_stop htext hpoint]
  simp only [hd, if_true, takeWhile_append_stop hfraction hrest, List.length_cons]
  congr 1
  omega

/-- The token `t` is the number that starts with `c`, and takes `n` more characters. -/
inductive Numeral (c : Char) (cs : List Char) (t : Token) (n : Nat) : Prop where
  | whole {text rest : List Char} {v : Int64} (hcs : cs = text ++ rest) (hn : n = text.length)
      (ht : t = .int v) (htext : ∀ d ∈ text, isNumeralPart d = true)
      (hrest : ∀ d ∈ rest.head?, isNumeralPart d = false) (hpoint : ¬Pointed rest)
      (hv : Number.int64? (Number.digitsValue ((c :: text).filter (· ≠ '_'))) = some v)
  | pointed {text fraction rest : List Char} {d : Char}
      (hcs : cs = (text ++ '.' :: d :: fraction) ++ rest) (hn : n = (text ++ '.' :: d :: fraction).length)
      (ht : t = .float (Number.decimalFloat false
        (Number.digitsValue ((c :: text).filter (· ≠ '_') ++ (d :: fraction).filter (· ≠ '_')))
        (-(((d :: fraction).filter (· ≠ '_')).length : Int))))
      (htext : ∀ d ∈ text, isNumeralPart d = true) (hd : d.isDigit = true)
      (hfraction : ∀ d ∈ fraction, isNumeralPart d = true)
      (hrest : ∀ d ∈ rest.head?, isNumeralPart d = false)

theorem numeral_of_munchNumeral {c : Char} {cs : List Char} {t : Token} {n : Nat}
    (h : munchNumeral c cs = .token t n) : Numeral c cs t n := by
  obtain ⟨text, rest, rfl, htext, hrest⟩ := run_split isNumeralPart cs
  by_cases hpoint : Pointed rest
  · obtain ⟨d, rest, rfl, hd⟩ := hpoint
    obtain ⟨fraction, rest, rfl, hfraction, hrest'⟩ := run_split isNumeralPart rest
    rw [munchNumeral_pointed htext hd hfraction hrest', Munch.token.injEq] at h
    exact .pointed (by simp) (by simp [← h.2]) h.1.symm htext hd hfraction hrest'
  · rw [munchNumeral_whole htext hrest hpoint] at h
    cases hv : Number.int64? (Number.digitsValue ((c :: text).filter (· ≠ '_'))) with
    | none => rw [hv] at h; cases h
    | some v =>
        rw [hv] at h
        cases h
        exact .whole rfl rfl rfl htext hrest hpoint hv

theorem munchNumeral_append {c : Char} {text rest rest' : List Char} {t : Token}
    (h : Ends rest rest') (hn : munchNumeral c (text ++ rest) = .token t text.length) :
    munchNumeral c (text ++ rest') = .token t text.length := by
  cases numeral_of_munchNumeral hn with
  | whole hcs hlength ht htext hrest hpoint hv =>
      obtain ⟨rfl, rfl⟩ := List.append_inj hcs hlength
      rw [munchNumeral_whole htext (h.head isNumeralPart_of_isEnd hrest) (h.not_pointed hpoint), hv, ht]
      rfl
  | pointed hcs hlength ht htext hd hfraction hrest =>
      obtain ⟨rfl, rfl⟩ := List.append_inj hcs hlength
      rw [List.append_assoc, List.cons_append, List.cons_append,
        munchNumeral_pointed htext hd hfraction (h.head isNumeralPart_of_isEnd hrest), ht]
      simp

/-! ## Words -/

theorem munchWord_run {c : Char} {text rest : List Char} (htext : ∀ d ∈ text, isWordPart d = true)
    (hrest : ∀ d ∈ rest.head?, isWordPart d = false) :
    munchWord c (text ++ rest) = .token (Token.ofWord (String.ofList (c :: text))) text.length := by
  rw [munchWord, takeWhile_append_stop htext hrest]

theorem munchWord_append {c : Char} {text rest rest' : List Char} {t : Token}
    (h : Ends rest rest') (hn : munchWord c (text ++ rest) = .token t text.length) :
    munchWord c (text ++ rest') = .token t text.length := by
  have hlength : ((text ++ rest).takeWhile isWordPart).length = text.length := by
    simp only [munchWord, Munch.token.injEq] at hn
    exact hn.2
  obtain ⟨htext, hrest⟩ := run_of_length hlength
  rw [munchWord, takeWhile_append_stop htext hrest] at hn
  rwa [munchWord, takeWhile_append_stop htext (h.head isWordPart_of_isEnd hrest)]

/-- A token is found again before whatever ends it as well. -/
theorem munch_append {c : Char} {text rest rest' : List Char} {t : Token} (h : Ends rest rest')
    (hmunch : munch c (text ++ rest) = .token t text.length) :
    munch c (text ++ rest') = .token t text.length := by
  rcases munch_cases hmunch with hsymbol | ⟨hmark, hstring⟩ | ⟨hdigit, hnumeral⟩ | ⟨hstart, hword⟩
  · rw [munch, symbol?_append h hsymbol]
  · rw [munch_eq_string hmark]
    exact munchString_append hstring
  · rw [munch_eq_numeral hdigit]
    exact munchNumeral_append h hnumeral
  · rw [munch_eq_word hstart]
    exact munchWord_append h hword

/-! ## What a token can be -/

/-- The tokens that stand for the layout of a text. -/
def Token.isLayout : Token → Bool
  | .newline | .indent | .dedent | .eof => true
  | _ => false

theorem singleSymbol_plain {c : Char} {t : Token} (h : singleSymbol c = some t) :
    t.isLayout = false ∧ ∀ name, t ≠ .ident name := by
  unfold singleSymbol at h
  split at h <;> first | (cases h; simp [Token.isLayout]) | cases h

theorem doubleSymbol_plain {c d : Char} {t : Token} (h : doubleSymbol c d = some t) :
    t.isLayout = false ∧ ∀ name, t ≠ .ident name := by
  unfold doubleSymbol at h
  split at h <;> first | (cases h; simp [Token.isLayout]) | cases h

/-- A symbol takes two characters at most, and is no layout and no name. -/
theorem symbol?_plain {c : Char} {cs : List Char} {t : Token} {n : Nat}
    (h : symbol? c cs = some (t, n)) :
    n ≤ cs.length ∧ t.isLayout = false ∧ ∀ name, t ≠ .ident name := by
  have hsingle : ∀ {p : Token × Nat}, (singleSymbol c).map (·, 0) = some p →
      p.2 = 0 ∧ p.1.isLayout = false ∧ ∀ name, p.1 ≠ .ident name := by
    intro p hp
    obtain ⟨t', ht', rfl⟩ := Option.map_eq_some_iff.1 hp
    exact ⟨rfl, singleSymbol_plain ht'⟩
  cases cs with
  | nil =>
      obtain ⟨hn, hplain⟩ := hsingle h
      exact ⟨Nat.le_of_eq hn, hplain⟩
  | cons d cs =>
      rw [symbol?] at h
      cases hdouble : doubleSymbol c d with
      | none =>
          rw [hdouble] at h
          obtain ⟨hn, hplain⟩ := hsingle h
          exact ⟨Nat.le_trans (Nat.le_of_eq hn) (Nat.zero_le _), hplain⟩
      | some t' =>
          rw [hdouble] at h
          cases h
          exact ⟨by simp, doubleSymbol_plain hdouble⟩

/-- A numeral is a number, and it lies in its text. -/
theorem munchNumeral_plain {c : Char} {cs : List Char} {t : Token} {n : Nat}
    (h : munchNumeral c cs = .token t n) :
    n ≤ cs.length ∧ t.isLayout = false ∧ ∀ name, t ≠ .ident name := by
  cases numeral_of_munchNumeral h with
  | whole hcs hn ht => simp [hcs, hn, ht, Token.isLayout]
  | pointed hcs hn ht => simp [hcs, hn, ht, Token.isLayout]

theorem Token.ofWord_isLayout (word : String) : (Token.ofWord word).isLayout = false := by
  unfold Token.ofWord
  split <;> rfl

theorem Token.ofWord_eq_ident {word name : String} (h : Token.ofWord word = .ident name) :
    name = word := by
  unfold Token.ofWord at h
  split at h <;> simp_all

theorem isName_of_ofWord {word name : String} (hword : isWord word.toList = true)
    (h : Token.ofWord word = .ident name) : isName name = true := by
  cases Token.ofWord_eq_ident h
  rw [isName, hword, h]
  exact beq_self_eq_true word

/-- A token lies in its text, is no layout, and is an identifier only as a name. -/
theorem munch_plain {c : Char} {cs : List Char} {t : Token} {n : Nat}
    (h : munch c cs = .token t n) :
    n ≤ cs.length ∧ t.isLayout = false ∧ ∀ name, t = .ident name → isName name = true := by
  rcases munch_cases h with hsymbol | ⟨-, hstring⟩ | ⟨-, hnumeral⟩ | ⟨hstart, hword⟩
  · obtain ⟨hlength, hlayout, hname⟩ := symbol?_plain hsymbol
    exact ⟨hlength, hlayout, fun name ht => absurd ht (hname name)⟩
  · obtain ⟨_, rfl, hbody⟩ := munchString_eq_token hstring
    exact ⟨(stringBody_take hbody).1, rfl, by simp⟩
  · obtain ⟨hlength, hlayout, hname⟩ := munchNumeral_plain hnumeral
    exact ⟨hlength, hlayout, fun name ht => absurd ht (hname name)⟩
  · rw [munchWord, Munch.token.injEq] at hword
    obtain ⟨rfl, rfl⟩ := hword
    refine ⟨(List.takeWhile_sublist _).length_le, Token.ofWord_isLayout _, fun name ht => ?_⟩
    refine isName_of_ofWord ?_ ht
    simp [isWord, hstart]

end LiveUI.Source
