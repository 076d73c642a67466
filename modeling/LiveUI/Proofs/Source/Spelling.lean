import LiveUI.Proofs.Source.Scanning

/-! # How tokens are spelt

Words, numerals and symbols spell their tokens before every character that does not go on with them.
-/

namespace LiveUI.Source

variable {ok ok' : List Char → Prop} {d d' d'' : Nat} {text text' : List Char}
  {ks ks' : List Token}

theorem Spells.append (h : Spells ok d text ks d') (h' : Spells ok' d' text' ks' d'')
    (hok : ∀ rest, ok' rest → ok (text' ++ rest)) :
    Spells ok' d (text ++ text') (ks ++ ks') d'' := by
  intro cur rest hrest hrest'
  rw [List.append_assoc] at hrest
  obtain ⟨ls, hks, hcovers, hfinds⟩ := h cur _ hrest (hok rest hrest')
  obtain ⟨ls', hks', hcovers', hfinds'⟩ :=
    h' _ rest (Cursor.rest_skip_length hrest) hrest'
  rw [Cursor.offset_skip hrest] at hcovers'
  refine ⟨ls ++ ls', by rw [List.map_append, hks, hks'], ?_, ?_⟩
  · rw [bytes_append, ← Nat.add_assoc]
    exact hcovers.append hcovers'
  · rw [List.length_append, Cursor.skip_add]
    exact hfinds.trans hfinds'

/-- A token by itself. -/
theorem spells_munch {c : Char} {t : Token}
    (ht : ∀ rest, ok rest → munch c (text ++ rest) = .token t text.length)
    (hd : depthAfter d t = some d') : Spells ok d (c :: text) [t] d' := by
  intro cur rest hrest hok
  have hcovers : Covers cur.offset _ [cur.lexeme (c :: text).length t] := covers_lexeme hrest t
  exact ⟨[cur.lexeme (text.length + 1) t], rfl, hcovers, finds_token hrest (ht rest hok) hd⟩

/-- What follows goes on with no word. -/
def Breaks (cs : List Char) : Prop :=
  ∀ c ∈ cs.head?, isWordPart c = false

theorem Stops.breaks {cs : List Char} (h : Stops cs) : Breaks cs :=
  fun c hc => isWordPart_of_isEnd c (isEnd_of_isStop (h c hc))

theorem Breaks.append {cs cs' : List Char} (h : Breaks cs) (h' : Breaks cs') :
    Breaks (cs ++ cs') := by
  cases cs with
  | nil => exact h'
  | cons c cs => exact h

theorem depthAfter_ofWord (d : Nat) (word : String) :
    depthAfter d (Token.ofWord word) = some d := by
  unfold Token.ofWord
  split <;> rfl

theorem spells_word (h : isWord text = true) :
    Spells Breaks d text [Token.ofWord (String.ofList text)] d := by
  cases text with
  | nil => cases h
  | cons c text =>
      rw [isWord, Bool.and_eq_true, List.all_eq_true] at h
      refine spells_munch (fun rest hrest => ?_) (depthAfter_ofWord d _)
      rw [munch_eq_word h.1, munchWord_run h.2 hrest]

/-- A symbol of one character that begins no longer one. -/
theorem spells_single {c : Char} {t : Token} (ht : singleSymbol c = some t)
    (hok : ∀ e rest, ok (e :: rest) → doubleSymbol c e = none) (hd : depthAfter d t = some d') :
    Spells ok d [c] [t] d' := by
  refine spells_munch (fun rest hrest => ?_) hd
  cases rest with
  | nil => simp [munch, symbol?, ht]
  | cons e rest => simp [munch, symbol?, ht, hok e rest hrest]

theorem spells_double {c e : Char} {t : Token} (ht : doubleSymbol c e = some t)
    (hd : depthAfter d t = some d') : Spells ok d [c, e] [t] d' :=
  spells_munch (fun rest _ => by simp [munch, symbol?, ht]) hd

/-- Digits before what is no part of a numeral. -/
theorem munch_digits {c : Char} {rest : List Char} (hc : c.isDigit = true)
    (htext : ∀ e ∈ text, e.isDigit = true) (hrest : ∀ e ∈ rest.head?, isNumeralPart e = false)
    (hpoint : ¬Pointed rest) :
    munch c (text ++ rest) = (Number.int64? (Number.digitsValue (c :: text))).elim
      (.fault (.integerRange (String.ofList (c :: text))) (text.length + 1))
      (fun n => .token (.int n) text.length) := by
  have hparts : ∀ e ∈ text, isNumeralPart e = true := fun e he => by
    simp [isNumeralPart, htext e he]
  have hfilter : (c :: text).filter (· ≠ '_') = c :: text := by
    rw [List.filter_eq_self]
    intro e he
    have hdigit : e.isDigit = true := by
      rcases List.mem_cons.1 he with rfl | he
      · exact hc
      · exact htext e he
    rw [decide_eq_true_eq]
    rintro rfl
    cases hdigit
  rw [munch_eq_numeral hc, munchNumeral_whole hparts hrest hpoint, hfilter]

/-- An integer that fits 64 bits. -/
theorem spells_int {n : Int64} (hdigits : ∀ c ∈ text, c.isDigit = true) (hne : text ≠ [])
    (hn : Number.int64? (Number.digitsValue text) = some n)
    (hok : ∀ rest, ok rest → (∀ c ∈ rest.head?, isNumeralPart c = false) ∧ ¬Pointed rest) :
    Spells ok d text [.int n] d := by
  obtain ⟨c, text, rfl⟩ := List.exists_cons_of_ne_nil hne
  obtain ⟨hc, htext⟩ := List.forall_mem_cons.1 hdigits
  refine spells_munch (fun rest hrest => ?_) rfl
  obtain ⟨hhead, hpoint⟩ := hok rest hrest
  rw [munch_digits hc htext hhead hpoint, hn]
  rfl

end LiveUI.Source
