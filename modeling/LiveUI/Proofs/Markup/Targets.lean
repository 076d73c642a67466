import LiveUI.Markup.Target
import LiveUI.Proofs.Number.Integers
import LiveUI.Proofs.Source.Spelling

/-! # Targets and their texts

A target that was read from a text is written in its canonical text, which is read as the same
target: an index comes without superfluous characters, and the index of minus zero is zero. -/

namespace LiveUI.Markup

open LiveUI.Source

namespace Target

/-- The tokens of the text of a target. -/
def tokens : Target → List Token
  | own attr => [Token.ofWord attr]
  | member name attr => [Token.ofWord name, .dot, Token.ofWord attr]
  | element name i attr =>
      Token.ofWord name :: .leftBracket :: ((if i.toInt < 0 then [.minus] else []) ++
        [.int (Int64.ofInt i.toInt.natAbs), .rightBracket, .dot, Token.ofWord attr])

/-- A target that can be written in a text. The magnitude of its index is that of a literal. -/
def Written : Target → Prop
  | own attr => isName attr = true
  | member name attr => isName name = true ∧ isWord attr.toList = true
  | element name i attr =>
      isName name = true ∧ isWord attr.toList = true ∧ Int64.minValue.toInt < i.toInt

/-! ## Indices -/

def indexText (i : Int64) : List Char :=
  (if i.toInt < 0 then ['-'] else []) ++ Nat.toDigits 10 i.toInt.natAbs

theorem toList_index (i : Int64) : (toString i.toInt).toList = indexText i :=
  Number.toList_toString i.toInt

theorem isCanonical_toDigits (n : Nat) : isCanonical (Nat.toDigits 10 n) = true := by
  by_cases hn : n = 0
  · subst hn
    rfl
  · have hhead := Number.head_toDigits hn
    have hdigits : ∀ c ∈ Nat.toDigits 10 n, c.isDigit = true := fun c =>
      Number.isDigit_of_mem_toDigits
    cases hcs : Nat.toDigits 10 n with
    | nil => exact absurd hcs Nat.toDigits_ne_nil
    | cons c cs =>
        rw [hcs] at hhead hdigits
        have hc : c ≠ '0' := by simpa using hhead
        rw [isCanonical.eq_def]
        split
        next heq => cases heq
        next => rfl
        next heq =>
          cases heq
          rw [Bool.and_eq_true, List.all_eq_true]
          exact ⟨by simpa using hc, hdigits⟩

theorem digits_of_isCanonical {ds : List Char} (h : isCanonical ds = true) :
    ds ≠ [] ∧ ∀ c ∈ ds, c.isDigit = true := by
  rw [isCanonical.eq_def] at h
  split at h
  next => cases h
  next => exact ⟨by simp, List.forall_mem_singleton.2 rfl⟩
  next =>
    rw [Bool.and_eq_true, List.all_eq_true] at h
    exact ⟨by simp, h.2⟩

/-- A canonical numeral is the text of its value. -/
theorem toDigits_of_isCanonical {ds : List Char} (h : isCanonical ds = true) :
    Nat.toDigits 10 (Number.digitsValue ds) = ds := by
  have hdigits := (digits_of_isCanonical h).2
  rw [isCanonical.eq_def] at h
  split at h
  next => cases h
  next => rfl
  next =>
    rw [Bool.and_eq_true, bne_iff_ne] at h
    exact Number.toDigits_digitsValue h.1 hdigits

/-- An index is an optional minus before digits. -/
theorem isIndex_iff {cs : List Char} :
    isIndex cs = true ↔
      ∃ (negative : Bool) (ds : List Char),
        cs = (if negative then ['-'] else []) ++ ds ∧ isCanonical ds = true := by
  constructor
  · intro h
    rw [isIndex.eq_def] at h
    split at h
    next ds => exact ⟨true, ds, rfl, h⟩
    next => exact ⟨false, cs, rfl, h⟩
  · rintro ⟨negative, ds, rfl, hcanonical⟩
    cases negative with
    | true => exact hcanonical
    | false =>
        rw [isIndex.eq_def]
        split
        next ds' hminus =>
          replace hminus : ds = '-' :: ds' := hminus
          cases (digits_of_isCanonical hcanonical).2 '-' (hminus ▸ List.mem_cons_self)
        next => exact hcanonical

theorem takeSign_index (negative : Bool) {ds : List Char} (h : ∀ c ∈ ds, c.isDigit = true) :
    Number.takeSign ((if negative then ['-'] else []) ++ ds) = (negative, ds) := by
  cases negative with
  | true => rfl
  | false =>
      change Number.takeSign ds = (false, ds)
      unfold Number.takeSign
      split
      next => cases h '-' List.mem_cons_self
      next => cases h '+' List.mem_cons_self
      next => rfl

/-- The value of an index. -/
theorem readInt?_index (negative : Bool) {ds : List Char} (h : isCanonical ds = true) :
    Number.readInt? (String.ofList ((if negative then ['-'] else []) ++ ds)) =
      Number.int64?
        (if negative then -(Number.digitsValue ds : Int) else Number.digitsValue ds) := by
  obtain ⟨hne, hdigits⟩ := digits_of_isCanonical h
  have hempty : ds.isEmpty = false := by simpa using hne
  rw [Number.readInt?, String.toList_ofList, takeSign_index negative hdigits]
  simp [hempty, List.all_eq_true.2 hdigits]

/-- The magnitude of an index that a text can hold is that of a literal. -/
theorem int64?_natAbs {i : Int64} (h : Int64.minValue.toInt < i.toInt) :
    Number.int64? i.toInt.natAbs = some (Int64.ofInt i.toInt.natAbs) := by
  have hmin := Int64.toInt_minValue
  have hi := i.toInt_lt
  exact Number.int64?_of_fits ⟨by omega, by omega⟩

theorem readInt?_toString (i : Int64) : Number.readInt? (toString i.toInt) = some i := by
  have hvalue : (if (decide (i.toInt < 0)) = true then -(i.toInt.natAbs : Int)
      else (i.toInt.natAbs : Int)) = i.toInt := by
    simp only [decide_eq_true_eq]
    split <;> omega
  have htext : indexText i =
      (if (decide (i.toInt < 0)) = true then ['-'] else []) ++ Nat.toDigits 10 i.toInt.natAbs := by
    simp only [indexText, decide_eq_true_eq]
  rw [← String.ofList_toList (s := toString i.toInt), toList_index, htext,
    readInt?_index _ (isCanonical_toDigits _), Number.digitsValue_toDigits, hvalue]
  exact Number.int64?_eq_some_iff.2 rfl

/-- An index is the text of its value, or minus zero. -/
theorem toString_of_readInt? {index : String} {i : Int64} (hindex : isIndex index.toList = true)
    (hi : Number.readInt? index = some i) :
    toString i.toInt = index ∨ index = "-0" ∧ i = 0 := by
  obtain ⟨negative, ds, hcs, hcanonical⟩ := isIndex_iff.1 hindex
  have htext := toDigits_of_isCanonical hcanonical
  rw [← String.ofList_toList (s := index), hcs, readInt?_index negative hcanonical,
    Number.int64?_eq_some_iff] at hi
  by_cases hzero : negative = true ∧ Number.digitsValue ds = 0
  · obtain ⟨rfl, hvalue⟩ := hzero
    rw [hvalue] at htext hi
    refine .inr ⟨String.toList_inj.1 (by rw [hcs, ← htext]; rfl), ?_⟩
    exact Int64.toInt_inj.1 hi
  · have hsign : i.toInt < 0 ↔ negative = true := by
      split at hi
      next hnegative =>
        have hne := not_and.1 hzero hnegative
        exact ⟨fun _ => hnegative, fun _ => by omega⟩
      next hnegative => exact ⟨fun hneg => by omega, fun heq => absurd heq hnegative⟩
    have hmagnitude : i.toInt.natAbs = Number.digitsValue ds := by
      split at hi <;> omega
    refine .inl (String.toList_inj.1 ?_)
    simp only [toList_index, indexText, hsign, hmagnitude, htext, hcs]

/-! ## Reading a target -/

theorem splitWord_eq_some {cs word rest : List Char} :
    splitWord cs = some (word, rest) ↔
      cs = word ++ rest ∧ isWord word = true ∧ Breaks rest := by
  constructor
  · intro h
    cases cs with
    | nil => cases h
    | cons c cs =>
        rw [splitWord] at h
        split at h
        next hc =>
          cases h
          obtain ⟨hword, hrest⟩ := run_of_length (p := isWordPart)
            (congrArg List.length (congrArg (List.takeWhile isWordPart)
              (List.takeWhile_append_dropWhile (p := isWordPart) (l := cs))))
          refine ⟨by rw [List.cons_append, List.takeWhile_append_dropWhile], ?_, hrest⟩
          rw [isWord, hc, Bool.true_and, List.all_eq_true]
          exact hword
        next => cases h
  · rintro ⟨rfl, hword, hrest⟩
    cases word with
    | nil => cases hword
    | cons c word =>
        rw [isWord, Bool.and_eq_true, List.all_eq_true] at hword
        rw [List.cons_append, splitWord, if_pos hword.1, takeWhile_append_stop hword.2 hrest,
          dropWhile_append_stop hword.2 hrest]

/-- The text that pieces come from. -/
def Pieces.text (p : Pieces) : String :=
  match p.attr, p.index with
  | none, _ => p.name
  | some attr, none => p.name ++ "." ++ attr
  | some attr, some index => p.name ++ "[" ++ index ++ "]." ++ attr

/-- The pieces of the three forms. -/
inductive Pieces.Fits : Pieces → Prop
  | own {name : String} (hname : isWord name.toList = true) : Fits { name }
  | member {name attr : String} (hname : isWord name.toList = true)
      (hattr : isWord attr.toList = true) : Fits { name, attr := some attr }
  | element {name index attr : String} (hname : isWord name.toList = true)
      (hindex : isIndex index.toList = true) (hattr : isWord attr.toList = true) :
      Fits ⟨name, some index, some attr⟩

theorem Pieces.Fits.of_pieces? {lhs : String} {p : Pieces} (h : pieces? lhs = some p) :
    p.Fits ∧ lhs = p.text := by
  rw [pieces?] at h
  cases hsplit : splitWord lhs.toList with
  | none => simp [hsplit] at h
  | some split =>
      obtain ⟨name, rest⟩ := split
      obtain ⟨hlhs, hname, -⟩ := splitWord_eq_some.1 hsplit
      replace hname : isWord (String.ofList name).toList = true := by simpa using hname
      simp only [hsplit] at h
      split at h
      next heq => cases heq
      next heq =>
        cases heq
        cases h
        exact ⟨.own hname, String.toList_inj.1 (by simpa [Pieces.text] using hlhs)⟩
      next heq =>
        cases heq
        split at h
        next hattr =>
          cases h
          exact ⟨.member hname (by simpa using hattr),
            String.toList_inj.1 (by simpa [Pieces.text] using hlhs)⟩
        next => cases h
      next rest' heq =>
        cases heq
        split at h
        next attr hrest =>
          split at h
          next hpieces =>
            cases h
            rw [Bool.and_eq_true] at hpieces
            -- The index and what stands behind it make up the text behind the opening bracket.
            have hinner := List.takeWhile_append_dropWhile (p := (· ≠ ']')) (l := rest')
            rw [hrest] at hinner
            rw [← hinner] at hlhs
            exact ⟨.element hname (by simpa using hpieces.1) (by simpa using hpieces.2),
              String.toList_inj.1 (by simpa [Pieces.text] using hlhs)⟩
          next => cases h
        next => cases h
      next => cases h

/-- A bracket ends an index. -/
theorem ne_bracket_of_isIndex {cs : List Char} (h : isIndex cs = true) :
    ∀ c ∈ cs, decide (c ≠ ']') = true := by
  obtain ⟨negative, ds, rfl, hcanonical⟩ := isIndex_iff.1 h
  intro c hc
  rw [decide_eq_true_eq]
  rintro rfl
  rcases List.mem_append.1 hc with hc | hc
  · split at hc <;> simp at hc
  · cases (digits_of_isCanonical hcanonical).2 _ hc

theorem Pieces.Fits.pieces?_text {p : Pieces} (h : p.Fits) : pieces? p.text = some p := by
  have hdot : ∀ rest, Breaks ('.' :: rest) := by
    rintro rest _ ⟨⟩
    rfl
  have hopen : ∀ rest, Breaks ('[' :: rest) := by
    rintro rest _ ⟨⟩
    rfl
  cases h with
  | @own name hname =>
      have hsplit : splitWord name.toList = some (name.toList, []) :=
        splitWord_eq_some.2 ⟨by simp, hname, by simp [Breaks]⟩
      simp [Pieces.text, pieces?, hsplit]
  | @member name attr hname hattr =>
      have hsplit : splitWord (name ++ "." ++ attr).toList =
          some (name.toList, '.' :: attr.toList) :=
        splitWord_eq_some.2 ⟨by simp, hname, hdot _⟩
      simp only [Pieces.text, pieces?, hsplit, hattr, if_true, String.ofList_toList]
  | @element name index attr hname hindex hattr =>
      have hsplit : splitWord (name ++ "[" ++ index ++ "]." ++ attr).toList =
          some (name.toList, '[' :: (index.toList ++ ']' :: '.' :: attr.toList)) :=
        splitWord_eq_some.2 ⟨by simp, hname, hopen _⟩
      have hstop : ∀ c ∈ (']' :: '.' :: attr.toList).head?, decide (c ≠ ']') = false := by
        rintro _ ⟨⟩
        rfl
      have hinner := ne_bracket_of_isIndex hindex
      simp only [Pieces.text, pieces?, hsplit, takeWhile_append_stop hinner hstop,
        dropWhile_append_stop hinner hstop, hindex, hattr, Bool.and_self, if_true,
        String.ofList_toList]

/-- A text has pieces exactly when it has one of the three forms. -/
theorem pieces?_eq_some_iff {lhs : String} {p : Pieces} :
    pieces? lhs = some p ↔ p.Fits ∧ lhs = p.text :=
  ⟨Pieces.Fits.of_pieces?, fun ⟨hfits, htext⟩ => htext ▸ hfits.pieces?_text⟩

theorem parse_eq_ok_iff {lhs : String} {t : Target} :
    parse lhs = .ok t ↔ ∃ p : Pieces, p.Fits ∧ lhs = p.text ∧ ofPieces lhs p = .ok t := by
  rw [parse, parseBy]
  constructor
  · intro h
    cases hpieces : pieces? lhs with
    | none => rw [hpieces] at h; cases h
    | some p =>
        rw [hpieces] at h
        obtain ⟨hfits, htext⟩ := pieces?_eq_some_iff.1 hpieces
        exact ⟨p, hfits, htext, h⟩
  · rintro ⟨p, hfits, htext, hp⟩
    rw [pieces?_eq_some_iff.2 ⟨hfits, htext⟩]
    exact hp

theorem ofPieces_element {lhs name index attr : String} {t : Target} :
    ofPieces lhs ⟨name, some index, some attr⟩ = .ok t ↔
      ∃ i, Number.readInt? index = some i ∧ t = element name i attr := by
  simp only [ofPieces]
  cases Number.readInt? index with
  | none => simp
  | some i => simp [eq_comm]

/-- The three forms of a left-hand side. -/
theorem parse_eq_ok {lhs : String} {t : Target} (h : parse lhs = .ok t) :
    (t = own lhs ∧ isWord lhs.toList = true) ∨
      (∃ name attr, t = member name attr ∧ lhs.toList = name.toList ++ '.' :: attr.toList ∧
        isWord name.toList = true ∧ isWord attr.toList = true) ∨
      ∃ (name : String) (negative : Bool) (ds : List Char) (i : Int64) (attr : String),
        t = element name i attr ∧
        lhs.toList = name.toList ++ '[' :: ((if negative then ['-'] else []) ++ ds ++
          ']' :: '.' :: attr.toList) ∧
        isWord name.toList = true ∧ isCanonical ds = true ∧ isWord attr.toList = true ∧
        i.toInt = if negative then -(Number.digitsValue ds : Int) else Number.digitsValue ds := by
  obtain ⟨p, hfits, rfl, hp⟩ := parse_eq_ok_iff.1 h
  cases hfits with
  | own hname =>
      cases hp
      exact .inl ⟨rfl, hname⟩
  | member hname hattr =>
      cases hp
      exact .inr (.inl ⟨_, _, rfl, by simp [Pieces.text], hname, hattr⟩)
  | @element name index attr hname hindex hattr =>
      obtain ⟨negative, ds, hcs, hcanonical⟩ := isIndex_iff.1 hindex
      obtain ⟨i, hi, rfl⟩ := ofPieces_element.1 hp
      rw [← String.ofList_toList (s := index), hcs, readInt?_index negative hcanonical] at hi
      refine .inr (.inr ⟨name, negative, ds, i, attr, rfl, ?_, hname, hcanonical, hattr,
        Number.int64?_eq_some_iff.1 hi⟩)
      simp [Pieces.text, hcs]

/-! ## The text of a target -/

theorem spells_member {d : Nat} {attr : List Char} (hattr : isWord attr = true) :
    Spells Breaks d ('.' :: attr) [.dot, Token.ofWord (String.ofList attr)] d := by
  have hdot : Spells (fun _ => True) d ['.'] [.dot] d :=
    spells_single rfl (fun e _ _ => by simp [doubleSymbol]) rfl
  exact hdot.append (spells_word hattr) fun _ _ => trivial

/-- A target with an index up to its digits. -/
theorem spells_opening {d : Nat} {name : List Char} (negative : Bool) (hname : isWord name = true) :
    Spells (fun rest => ∃ c ∈ rest.head?, c.isDigit = true) d
      (name ++ '[' :: (if negative then ['-'] else []))
      (Token.ofWord (String.ofList name) :: .leftBracket :: (if negative then [.minus] else []))
      (d + 1) := by
  have hopen : Spells (fun _ => True) d ['['] [.leftBracket] (d + 1) :=
    spells_single rfl (fun e _ _ => by simp [doubleSymbol]) rfl
  have hbreaks : ∀ rest, Breaks ('[' :: rest) := by
    rintro rest _ ⟨⟩
    rfl
  have hname' := (spells_word hname).append hopen fun rest _ => hbreaks rest
  cases negative with
  | false => exact hname'.weaken fun _ _ => trivial
  | true =>
      have hminus : Spells (fun rest => ∃ c ∈ rest.head?, c.isDigit = true) (d + 1) ['-'] [.minus]
          (d + 1) := by
        refine spells_single rfl (fun e rest he => ?_) rfl
        obtain ⟨_, ⟨⟩, he⟩ := he
        unfold doubleSymbol
        split <;> first | rfl | exact absurd he Bool.false_ne_true
      have hopening := hname'.append hminus fun _ _ => trivial
      rwa [List.append_assoc] at hopening

theorem spells_element {d : Nat} {name : List Char} (negative : Bool) {ds : List Char} {n : Int64}
    {attr : List Char} (hname : isWord name = true) (hds : isCanonical ds = true)
    (hn : Number.int64? (Number.digitsValue ds) = some n) (hattr : isWord attr = true) :
    Spells Breaks d (name ++ '[' :: ((if negative then ['-'] else []) ++ ds ++ ']' :: '.' :: attr))
      (Token.ofWord (String.ofList name) :: .leftBracket :: ((if negative then [.minus] else []) ++
        [.int n, .rightBracket, .dot, Token.ofWord (String.ofList attr)])) d := by
  obtain ⟨hne, hdigits⟩ := digits_of_isCanonical hds
  have hint : Spells (fun rest => rest.head? = some ']') (d + 1) ds [.int n] (d + 1) := by
    refine spells_int hdigits hne hn fun rest hrest => ⟨?_, ?_⟩
    · rw [hrest]
      rintro _ ⟨⟩
      rfl
    · rintro ⟨e, rest, rfl, -⟩
      cases hrest
  have hclose : Spells (fun _ => True) (d + 1) [']'] [.rightBracket] d :=
    spells_single rfl (fun e _ _ => by simp [doubleSymbol]) rfl
  have hafter := hclose.append (spells_member hattr) fun _ _ => trivial
  have hindex := hint.append hafter fun _ _ => rfl
  have helement := (spells_opening negative hname).append hindex fun rest _ => by
    obtain ⟨c, ds, rfl⟩ := List.exists_cons_of_ne_nil hne
    exact ⟨c, rfl, hdigits c List.mem_cons_self⟩
  simpa using helement

/-- The digits of an index that a scan has passed over are those of a literal. -/
theorem int64?_of_spells {name : List Char} {negative : Bool} {ds rest : List Char}
    {ks : List Token} {d d' : Nat} (hname : isWord name = true) (hds : isCanonical ds = true)
    (h : Spells Stops d (name ++ '[' :: ((if negative then ['-'] else []) ++ ds ++ ']' :: rest))
      ks d') : ∃ n, Number.int64? (Number.digitsValue ds) = some n := by
  obtain ⟨hne, hdigits⟩ := digits_of_isCanonical hds
  obtain ⟨c, ds, rfl⟩ := List.exists_cons_of_ne_nil hne
  obtain ⟨hc, hdigits⟩ := List.forall_mem_cons.1 hdigits
  generalize htext : name ++ '[' :: ((if negative then ['-'] else []) ++ c :: ds ++ ']' :: rest) =
    text at h
  have hrest : (Cursor.ofList text).rest =
      (name ++ '[' :: (if negative then ['-'] else [])) ++ c :: (ds ++ ']' :: rest) := by
    rw [Cursor.ofList, ← htext]
    simp
  -- The whole text is scanned, so the scan does not fail at the digits either.
  obtain ⟨ls, e, -, hwhole⟩ := h.scan_ofList
  obtain ⟨ls', -, -, hfinds'⟩ := spells_opening negative hname _ _ hrest ⟨c, rfl, hc⟩
  generalize hcur : (Cursor.ofList text).skip _ = cur at hfinds'
  have hdigit : cur.rest = c :: (ds ++ ']' :: rest) := by
    rw [← hcur]
    exact Cursor.rest_skip_length hrest
  have hfiller : isFiller c = false := by
    rw [Bool.eq_false_iff]
    intro hfiller
    rcases cases_of_isFiller hfiller with rfl | rfl | rfl | rfl | rfl | rfl <;> cases hc
  have hstart : (cur.skip (gap cur.rest)).rest = c :: (ds ++ ']' :: rest) := by
    rw [hdigit, gap_cons (.inl hfiller)]
    exact hdigit
  rw [hfinds' []] at hwhole
  cases hscan : scan (d + 1) [] false cur with
  | error e => rw [hscan] at hwhole; cases hwhole
  | ok p =>
      obtain ⟨t, n, -, ls'', ht, -⟩ := token_of_scan hstart (by rintro rfl; cases hc) hscan
      have hpoint : ¬Pointed (']' :: rest) := by
        rintro ⟨_, _, heq, -⟩
        cases heq
      rw [munch_digits hc hdigits (by rintro _ ⟨⟩; rfl) hpoint] at ht
      cases hvalue : Number.int64? (Number.digitsValue (c :: ds)) with
      | none => rw [hvalue] at ht; cases ht
      | some n => exact ⟨n, rfl⟩

theorem text_member (name attr : String) :
    (member name attr).text.toList = name.toList ++ '.' :: attr.toList := by
  simp [text]

theorem text_element (name : String) (i : Int64) (attr : String) :
    (element name i attr).text.toList =
      name.toList ++ '[' :: (indexText i ++ ']' :: '.' :: attr.toList) := by
  simp [text, ← toList_index]

theorem isWord_of_isName {s : String} (h : isName s = true) : isWord s.toList = true := by
  rw [isName, Bool.and_eq_true] at h
  exact h.1

theorem spells_text {t : Target} (h : t.Written) : Spells Breaks 0 t.text.toList t.tokens 0 := by
  cases t with
  | own attr =>
      have hword := spells_word (d := 0) (isWord_of_isName h)
      rwa [String.ofList_toList] at hword
  | member name attr =>
      have hword := (spells_word (d := 0) (isWord_of_isName h.1)).append (spells_member h.2)
        fun rest _ => by
          rintro _ ⟨⟩
          rfl
      rw [text_member]
      simpa [tokens] using hword
  | element name i attr =>
      obtain ⟨hname, hattr, hi⟩ := h
      have hvalue : Number.int64? (Number.digitsValue (Nat.toDigits 10 i.toInt.natAbs)) =
          some (Int64.ofInt i.toInt.natAbs) := by
        rw [Number.digitsValue_toDigits, int64?_natAbs hi]
      have helement := spells_element (d := 0) (i.toInt < 0) (isWord_of_isName hname)
        (isCanonical_toDigits _) hvalue hattr
      rw [text_element]
      simpa [tokens, indexText] using helement

/-- The pieces of the text of a target. -/
def pieces : Target → Pieces
  | own attr => { name := attr }
  | member name attr => { name, attr := some attr }
  | element name i attr => ⟨name, some (toString i.toInt), some attr⟩

/-- The names in a target. -/
def names : Target → List String
  | own attr => [attr]
  | member name attr | element name _ attr => [name, attr]

@[simp] theorem text_pieces (t : Target) : t.pieces.text = t.text := by
  cases t <;> rfl

theorem isIndex_toString (i : Int64) : isIndex (toString i.toInt).toList = true := by
  rw [toList_index]
  exact isIndex_iff.2 ⟨i.toInt < 0, Nat.toDigits 10 i.toInt.natAbs, by simp [indexText],
    isCanonical_toDigits _⟩

theorem fits_pieces {t : Target} (h : ∀ s ∈ t.names, isWord s.toList = true) : t.pieces.Fits := by
  cases t with
  | own attr => exact .own (h _ (by simp [names]))
  | member name attr => exact .member (h _ (by simp [names])) (h _ (by simp [names]))
  | element name i attr =>
      exact .element (h _ (by simp [names])) (isIndex_toString i) (h _ (by simp [names]))

theorem ofPieces_pieces (lhs : String) (t : Target) : ofPieces lhs t.pieces = .ok t := by
  cases t with
  | own attr => rfl
  | member name attr => rfl
  | element name i attr => exact ofPieces_element.2 ⟨i, readInt?_toString i, rfl⟩

theorem parse_text_of_names {t : Target} (h : ∀ s ∈ t.names, isWord s.toList = true) :
    parse t.text = .ok t :=
  parse_eq_ok_iff.2 ⟨t.pieces, fits_pieces h, (text_pieces t).symm, ofPieces_pieces _ t⟩

theorem parse_text {t : Target} (h : t.Written) : parse t.text = .ok t := by
  refine parse_text_of_names fun s hs => ?_
  cases t with
  | own attr =>
      obtain rfl := List.mem_singleton.1 hs
      exact isWord_of_isName h
  | member name attr =>
      obtain ⟨hname, hattr⟩ := h
      rcases List.mem_pair.1 hs with rfl | rfl
      exacts [isWord_of_isName hname, hattr]
  | element name i attr =>
      obtain ⟨hname, hattr, -⟩ := h
      rcases List.mem_pair.1 hs with rfl | rfl
      exacts [isWord_of_isName hname, hattr]

/-- The value of an index whose digits are those of a literal. -/
theorem minValue_lt_of_digits {negative : Bool} {ds : List Char} {i n : Int64}
    (hi : i.toInt = if negative then -(Number.digitsValue ds : Int) else Number.digitsValue ds)
    (hn : Number.int64? (Number.digitsValue ds) = some n) : Int64.minValue.toInt < i.toInt := by
  have hmin := Int64.toInt_minValue
  have hdigits := Number.int64?_eq_some_iff.1 hn
  have hrange := n.toInt_lt
  rw [hi]
  split <;> omega

theorem depthBehind_element (name attr : String) (negative : Bool) (n : Int64) :
    depthBehind 0 (Token.ofWord name :: .leftBracket :: ((if negative then [.minus] else []) ++
      [.int n, .rightBracket, .dot, Token.ofWord attr])) = some 0 := by
  have hattr : depthBehind 0 [Token.ofWord attr] = some 0 := by
    rw [depthBehind, depthAfter_ofWord]
    rfl
  rw [depthBehind, depthAfter_ofWord]
  cases negative <;> exact hattr

/-- The tokens of the text that a target is read from. -/
theorem kinds_of_parse {lhs : String} {t : Target} {ks : List Token} {d d' : Nat}
    (h : parse lhs = .ok t) (hspells : Spells Stops d lhs.toList ks d') :
    (∃ attr, t = own attr ∧ isWord attr.toList = true ∧ ks = [Token.ofWord attr]) ∨
      (∃ name attr, t = member name attr ∧ isWord name.toList = true ∧ isWord attr.toList = true ∧
        ks = [Token.ofWord name, .dot, Token.ofWord attr]) ∨
      ∃ name i attr, ∃ (negative : Bool) (v : Int64), t = element name i attr ∧
        isWord name.toList = true ∧ isWord attr.toList = true ∧ Int64.minValue.toInt < i.toInt ∧
        ks = Token.ofWord name :: .leftBracket :: ((if negative then [.minus] else []) ++
          [.int v, .rightBracket, .dot, Token.ofWord attr]) := by
  have hbreaks : Breaks [] := by simp [Breaks]
  rcases parse_eq_ok h with ⟨rfl, hword⟩ | ⟨n, attr, rfl, hlhs, hn, hattr⟩ |
    ⟨n, negative, ds, i, attr, rfl, hlhs, hn, hds, hattr, hi⟩
  · obtain rfl := hspells.unique (spells_word hword) hbreaks
    exact .inl ⟨lhs, rfl, hword, by rw [String.ofList_toList]⟩
  · rw [hlhs] at hspells
    have hmember := (spells_word (d := d) hn).append (spells_member hattr) fun rest _ => by
      rintro _ ⟨⟩
      rfl
    obtain rfl := hspells.unique hmember hbreaks
    exact .inr (.inl ⟨n, attr, rfl, hn, hattr, by simp only [String.ofList_toList]; rfl⟩)
  · rw [hlhs] at hspells
    obtain ⟨v, hv⟩ := int64?_of_spells hn hds hspells
    obtain rfl := hspells.unique (spells_element negative hn hds hv hattr) hbreaks
    exact .inr (.inr ⟨n, i, attr, negative, v, rfl, hn, hattr, minValue_lt_of_digits hi hv,
      by simp only [String.ofList_toList]⟩)

/-- The brackets in the text of a target are balanced. -/
theorem depthBehind_of_parse {lhs : String} {t : Target} {ks : List Token} {d d' : Nat}
    (h : parse lhs = .ok t) (hspells : Spells Stops d lhs.toList ks d') :
    depthBehind 0 ks = some 0 := by
  rcases kinds_of_parse h hspells with ⟨attr, -, -, rfl⟩ | ⟨name, attr, -, -, -, rfl⟩ |
    ⟨name, i, attr, negative, v, -, -, -, -, rfl⟩
  · rw [depthBehind, depthAfter_ofWord]
    rfl
  · simp only [depthBehind, depthAfter_ofWord, Option.bind_some]
    rfl
  · exact depthBehind_element name attr negative v

/-- A target that is read from the tokens of a text. -/
theorem parse_written {lhs : String} {t : Target} {ks : List Token} {d : Nat} {name : String}
    (h : parse lhs = .ok t) (hspells : Spells Stops 0 lhs.toList ks d)
    (hname : ks.head? = some (.ident name)) (hd : depthBehind 0 ks = some d) :
    t.Written ∧ d = 0 := by
  refine ⟨?_, Option.some.inj (hd.symm.trans (depthBehind_of_parse h hspells))⟩
  have hisName : ∀ {word : String}, isWord word.toList = true →
      Token.ofWord word = .ident name → isName word = true := fun hword ht => by
    cases Token.ofWord_eq_ident ht
    exact isName_of_ofWord hword ht
  rcases kinds_of_parse h hspells with ⟨attr, rfl, hword, rfl⟩ | ⟨n, attr, rfl, hn, hattr, rfl⟩ |
    ⟨n, i, attr, negative, v, rfl, hn, hattr, hi, rfl⟩
  · exact hisName hword (Option.some.inj hname)
  · exact ⟨hisName hn (Option.some.inj hname), hattr⟩
  · exact ⟨hisName hn (Option.some.inj hname), hattr, hi⟩

end Target

end LiveUI.Markup
