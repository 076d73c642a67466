import LiveUI.Proofs.Markup.Pieces

/-! # The text of one line

What the printer writes on a line has the tokens that lay its pieces, wherever the line stands. -/

namespace LiveUI.Markup

open LiveUI.Source

/-- Before characters with the property `ok` the text has tokens that lay the pieces. -/
def Writes (ok : List Char → Prop) (d : Nat) (text : List Char) (ps : List Piece) (d' : Nat) :
    Prop :=
  ∀ source cur rest, cur.In source → cur.rest = text ++ rest → ok rest →
    ∃ ls, Lays source ls ps ∧ Finds d cur ls d' (cur.skip text.length)

variable {ok ok' : List Char → Prop} {d d' d'' : Nat} {text text' : List Char}
  {ps ps' : List Piece}

theorem Writes.append (h : Writes ok d text ps d') (h' : Writes ok' d' text' ps' d'')
    (hok : ∀ rest, ok' rest → ok (text' ++ rest)) :
    Writes ok' d (text ++ text') (ps ++ ps') d'' := by
  intro source cur rest hin hrest hok'
  rw [List.append_assoc] at hrest
  obtain ⟨ls, hlays, hfinds⟩ := h source cur _ hin hrest (hok rest hok')
  obtain ⟨ls', hlays', hfinds'⟩ :=
    h' source _ rest (hin.skip hrest) (Cursor.rest_skip_length hrest) hok'
  refine ⟨ls ++ ls', hlays.append hlays', ?_⟩
  rw [List.length_append, Cursor.skip_add]
  exact hfinds.trans hfinds'

theorem Writes.weaken (h : Writes ok d text ps d') (hok : ∀ rest, ok' rest → ok rest) :
    Writes ok' d text ps d' :=
  fun source cur rest hin hrest hok' => h source cur rest hin hrest (hok rest hok')

/-- Every text that follows will do. -/
def Anything (_ : List Char) : Prop :=
  True

/-! ## Single pieces -/

theorem writes_nothing : Writes Anything d [] [] d := by
  intro source cur rest _ _ _
  exact ⟨[], .nil, .of_eq fun _ => rfl⟩

theorem writes_blank : Writes Anything d [' '] [] d := by
  intro source cur rest _ hrest _
  refine ⟨[], .nil, .of_eq fun bl => scan_start ?_⟩
  have hnext : (cur.skip 1).rest = rest := Cursor.rest_skip_length hrest
  have hgap : gap cur.rest = 1 + gap rest := by
    rw [hrest, Nat.add_comm]
    rfl
  rw [List.length_singleton, hnext, hgap, Cursor.skip_add]

theorem writes_token {t : Token} (h : Spells ok d text [t] d') :
    Writes ok d text [.token t] d' := by
  intro source cur rest _ hrest hok
  obtain ⟨ls, hks, -, hfinds⟩ := h cur rest hrest hok
  obtain ⟨l, rfl, rfl⟩ := List.map_eq_singleton_iff.1 hks
  exact ⟨[l], .token .nil, hfinds⟩

theorem writes_single {c : Char} {t : Token} (ht : singleSymbol c = some t)
    (hc : ∀ e, doubleSymbol c e = none) (hd : depthAfter d t = some d') :
    Writes Anything d [c] [.token t] d' :=
  writes_token (spells_single ht (fun e _ _ => hc e) hd)

theorem ofWord_of_isName {name : String} (h : isName name = true) :
    Token.ofWord name = .ident name := by
  rw [isName, Bool.and_eq_true] at h
  cases hword : Token.ofWord name with
  | ident name' => rw [Token.ofWord_eq_ident hword]
  | _ =>
      rw [hword] at h
      exact absurd h.2 Bool.false_ne_true

theorem writes_name {name : String} (h : isName name = true) :
    Writes Breaks d name.toList (namePiece name) d := by
  have hword := spells_word (d := d) (Target.isWord_of_isName h)
  rw [String.ofList_toList, ofWord_of_isName h] at hword
  exact writes_token hword

theorem writes_expression {e : Expression} (h : e.Written d) :
    Writes Stops d e.source.toList [.expression e] d := by
  intro source cur rest hin hrest hok
  obtain ⟨ks, hspells, hderives⟩ := h
  obtain ⟨ls, rfl, hcovers, hfinds⟩ := hspells cur rest hrest hok
  have hlays : Lays source (ls ++ []) _ := .expression (hcovers.spans hin hrest) hderives .nil
  rw [List.append_nil] at hlays
  exact ⟨ls, hlays, hfinds⟩

theorem writes_target {t : Target} (h : t.Written) :
    Writes Breaks 0 t.text.toList [.target t] 0 := by
  intro source cur rest hin hrest hok
  obtain ⟨ls, hks, hcovers, hfinds⟩ := Target.spells_text h cur rest hrest hok
  have hlays : Lays source (ls ++ []) _ := .target (hcovers.spans hin hrest) hks h .nil
  rw [List.append_nil] at hlays
  exact ⟨ls, hlays, hfinds⟩

theorem breaks_cons {c : Char} (h : isWordPart c = false) (cs : List Char) : Breaks (c :: cs) := by
  rintro _ ⟨⟩
  exact h

theorem stops_cons {c : Char} (h : isStop c = true) (cs : List Char) : Stops (c :: cs) := by
  rintro _ ⟨⟩
  exact h

/-- A binding operator between blanks. -/
theorem writes_operator (op : Operator) :
    Writes Anything d (' ' :: (op.symbol.toList ++ [' '])) [.token op.token] d := by
  have hop : Writes Stops d op.symbol.toList [.token op.token] d := by
    cases op with
    | default =>
        exact writes_token (spells_single rfl (fun e rest h => doubleSymbol_of_isStop _ (h e rfl)) rfl)
    | delegate | bind | notify => exact writes_token (spells_double rfl rfl)
  have hblank := hop.append writes_blank fun rest _ => stops_cons rfl rest
  exact writes_blank.append hblank fun _ _ => trivial

/-! ## Lists -/

theorem writes_commas {α : Type} {text : α → List Char} {pieces : α → List Piece} {xs : List α}
    (hok : ∀ rest, ok (',' :: rest)) (hne : xs ≠ []) (h : ∀ x ∈ xs, Writes ok d (text x) (pieces x) d) :
    Writes ok d (List.intercalate [',', ' '] (xs.map text)) (commas (xs.map pieces)) d := by
  induction xs with
  | nil => exact absurd rfl hne
  | cons x xs ih =>
      obtain ⟨hx, hxs⟩ := List.forall_mem_cons.1 h
      cases xs with
      | nil => simpa [commas] using hx
      | cons y ys =>
          have hcomma : Writes Anything d [',', ' '] [.token .comma] d :=
            (writes_single rfl (fun e => by simp [doubleSymbol]) rfl).append writes_blank
              fun _ _ => trivial
          have hrest := (hx.append hcomma fun rest _ => hok _).append (ih (by simp) hxs)
            fun _ _ => trivial
          simpa [commas, List.intercalate_cons_cons] using hrest

theorem toList_commaSeparated (parts : List String) :
    (commaSeparated parts).toList = List.intercalate [',', ' '] (parts.map (·.toList)) := by
  rw [commaSeparated, String.toList_intercalate]
  rfl

/-! ## Headers -/

theorem Argument.writes {a : Argument} (h : a.Written) :
    Writes Stops 1 a.text.toList a.pieces 1 := by
  cases a with
  | positional value => exact writes_expression h
  | keyword name value =>
      have hequals := (writes_name h.1).append (writes_operator (d := 1) .default)
        fun rest _ => breaks_cons rfl _
      simpa [text, pieces, namePiece, Operator.symbol, Operator.token] using
        hequals.append (writes_expression h.2) fun _ _ => trivial

theorem Capture.writes {c : Capture} (h : c.Written) :
    Writes Breaks 1 c.text.toList c.pieces 1 := by
  have hequals := (writes_name h.1).append (writes_operator (d := 1) .default)
    fun rest _ => breaks_cons rfl _
  simpa [text, pieces, namePiece, Operator.symbol, Operator.token] using
    hequals.append (writes_name h.2) fun _ _ => trivial

theorem writes_open : Writes Anything d ['('] [.token .leftParen] (d + 1) :=
  writes_single rfl (fun e => by simp [doubleSymbol]) rfl

theorem writes_close : Writes Anything (d + 1) [')'] [.token .rightParen] d :=
  writes_single rfl (fun e => by simp [doubleSymbol]) rfl

namespace Construct

def argumentText (arguments : List Argument) : List Char :=
  if arguments.isEmpty then []
  else '(' :: (List.intercalate [',', ' '] (arguments.map (·.text.toList)) ++ [')'])

def unpackText (unpack : List String) : List Char :=
  if unpack.isEmpty then []
  else ' ' :: '-' :: '>' :: ' ' :: List.intercalate [',', ' '] (unpack.map (·.toList))

def captureText (captures : List Capture) : List Char :=
  if captures.isEmpty then []
  else ' ' :: '[' :: (List.intercalate [',', ' '] (captures.map (·.text.toList)) ++ [']'])

theorem toList_header (c : Construct) :
    c.header.toList = c.typeName.toList ++
      (argumentText c.arguments ++ (unpackText c.unpack ++ captureText c.captures)) := by
  rw [header, argumentText, unpackText, captureText]
  split <;> split <;> split <;> simp [toList_commaSeparated, Function.comp_def]

theorem writes_arguments {arguments : List Argument} (h : ∀ a ∈ arguments, a.Written) :
    Writes Anything 0 (argumentText arguments) (argumentPieces arguments) 0 := by
  rw [argumentText, argumentPieces]
  cases arguments with
  | nil => exact writes_nothing
  | cons a arguments =>
      have hlist := writes_commas (d := 1) (fun rest => stops_cons rfl rest) (List.cons_ne_nil a arguments)
        fun a ha => Argument.writes (h a ha)
      exact writes_open.append (hlist.append writes_close fun rest _ => stops_cons rfl rest)
        fun _ _ => trivial

theorem writes_unpack {unpack : List String} (h : ∀ name ∈ unpack, isName name = true) :
    Writes Breaks 0 (unpackText unpack) (unpackPieces unpack) 0 := by
  rw [unpackText, unpackPieces]
  cases unpack with
  | nil => exact writes_nothing.weaken fun _ _ => trivial
  | cons name unpack =>
      have hlist := writes_commas (d := 0) (fun rest => breaks_cons rfl rest)
        (List.cons_ne_nil name unpack) fun name hname => writes_name (h name hname)
      have harrow : Writes Anything 0 ['-', '>'] [.token .arrow] 0 :=
        writes_token (spells_double rfl rfl)
      have hopening := (writes_blank.append harrow fun _ _ => trivial).append writes_blank
        fun _ _ => trivial
      exact hopening.append hlist fun _ _ => trivial

theorem writes_captures {captures : List Capture} (h : ∀ p ∈ captures, p.Written) :
    Writes Anything 0 (captureText captures) (capturePieces captures) 0 := by
  rw [captureText, capturePieces]
  cases captures with
  | nil => exact writes_nothing
  | cons p captures =>
      have hlist := writes_commas (d := 1) (fun rest => breaks_cons rfl rest)
        (List.cons_ne_nil p captures) fun p hp => Capture.writes (h p hp)
      have hopen : Writes Anything 0 ['['] [.token .leftBracket] 1 :=
        writes_single rfl (fun e => by simp [doubleSymbol]) rfl
      have hclose : Writes Anything 1 [']'] [.token .rightBracket] 0 :=
        writes_single rfl (fun e => by simp [doubleSymbol]) rfl
      have hbrackets := hopen.append (hlist.append hclose fun rest _ => breaks_cons rfl rest)
        fun _ _ => trivial
      exact writes_blank.append hbrackets fun _ _ => trivial

theorem writes_header {c : Construct} (h : c.Written) :
    Writes Breaks 0 c.header.toList c.headerPieces 0 := by
  obtain ⟨hname, harguments, -, hunpack, hcaptures, -, -⟩ := h
  have hbreaks_arguments : Breaks (argumentText c.arguments) := by
    rw [argumentText]
    split
    next => rintro _ ⟨⟩
    next => exact breaks_cons rfl _
  have hbreaks_unpack : Breaks (unpackText c.unpack) := by
    rw [unpackText]
    split
    next => rintro _ ⟨⟩
    next => exact breaks_cons rfl _
  have hbreaks_captures : Breaks (captureText c.captures) := by
    rw [captureText]
    split
    next => rintro _ ⟨⟩
    next => exact breaks_cons rfl _
  rw [toList_header, headerPieces]
  have hcaptures' : Writes Breaks 0 (captureText c.captures) (capturePieces c.captures) 0 :=
    (writes_captures hcaptures).weaken fun _ _ => trivial
  have hlast := (writes_unpack hunpack).append hcaptures'
    fun rest hrest => hbreaks_captures.append hrest
  have hbehind := (writes_arguments harguments).append hlast fun _ _ => trivial
  refine (writes_name hname).append hbehind fun rest hrest => ?_
  exact (hbreaks_arguments.append (hbreaks_unpack.append hbreaks_captures)).append hrest

end Construct

theorem writes_colon : Writes Stops d [':'] [.token .colon] d :=
  writes_token (spells_single rfl (fun _ _ h => doubleSymbol_of_isStop _ (h _ rfl)) rfl)

/-- The line of an assignment. -/
theorem Assignment.writes {a : Assignment} (h : a.Written) :
    Writes Stops 0 a.text.toList [.target a.target, .token a.op.token, .expression a.value] 0 := by
  have hop := (writes_target h.1).append (writes_operator (d := 0) a.op)
    fun rest _ => breaks_cons rfl _
  simpa [text] using hop.append (writes_expression h.2) fun _ _ => trivial

/-! ## Parameters -/

def entryText (entry : String × Option Expression) : String :=
  match entry with
  | (name, none) => name
  | (name, some value) => name ++ " = " ++ value.source

theorem writes_entry {entry : String × Option Expression} (hname : isName entry.1 = true)
    (hdefault : ∀ value ∈ entry.2, value.Written 1) :
    Writes Stops 1 (entryText entry).toList (entryPieces entry) 1 := by
  obtain ⟨name, default?⟩ := entry
  cases default? with
  | none => exact (writes_name hname).weaken fun _ => Stops.breaks
  | some value => exact Argument.writes (a := .keyword name value) ⟨hname, hdefault value rfl⟩

namespace Parameters

variable {p : Parameters}

theorem text_eq (p : Parameters) : p.text = commaSeparated (p.entries.map entryText) := by
  rw [text]
  congr 1
  refine List.ext_getElem (by simp [entries]) fun i hi _ => ?_
  simp only [entries, List.getElem_map, List.getElem_mapIdx, entryText]
  cases p.default? i <;> rfl

theorem Written.entry (h : p.Written) {entry : String × Option Expression}
    (hentry : entry ∈ p.entries) :
    isName entry.1 = true ∧ ∀ value ∈ entry.2, value.Written 1 := by
  rw [entries, List.mem_mapIdx] at hentry
  obtain ⟨i, hi, rfl⟩ := hentry
  refine ⟨h.names _ (List.getElem_mem hi), fun value hvalue => h.defaults value ?_⟩
  simp only [default?, Option.mem_def] at hvalue
  split at hvalue
  next => exact List.mem_of_getElem? hvalue
  next => cases hvalue

theorem writes (h : p.Written) :
    Writes Anything 0 ('(' :: (p.text.toList ++ [')']))
      (.token .leftParen :: (commas (p.entries.map entryPieces) ++ [.token .rightParen])) 0 := by
  have hentries : Writes Stops 1 p.text.toList (commas (p.entries.map entryPieces)) 1 := by
    rw [text_eq, toList_commaSeparated, List.map_map]
    by_cases hne : p.entries = []
    · rw [hne]
      exact writes_nothing.weaken fun _ _ => trivial
    · exact writes_commas (fun rest => stops_cons rfl rest) hne fun entry hentry =>
        writes_entry (h.entry hentry).1 (h.entry hentry).2
  exact writes_open.append (hentries.append writes_close fun rest _ => stops_cons rfl rest)
    fun _ _ => trivial

end Parameters

/-- The first line of a define, with its colon. -/
theorem Define.writes {d : Define} (h : d.Written) :
    Writes Stops 0 ("defn " ++ d.name ++ "(" ++ d.parameters.text ++ "):").toList
      (.token .define :: .token (.ident d.name) :: .token .leftParen ::
        (commas (d.parameters.entries.map entryPieces) ++
          [.token .rightParen, .token .colon])) 0 := by
  have hword : Writes Breaks 0 ("defn" : String).toList [.token .define] 0 :=
    writes_token (spells_word (d := 0) rfl)
  have hname := ((hword.append writes_blank fun rest _ => breaks_cons rfl rest).append
    (writes_name h.name) fun _ _ => trivial)
  have hparameters := hname.append (Parameters.writes h.parameters) fun rest _ => breaks_cons rfl _
  have hline := hparameters.append writes_colon fun _ _ => trivial
  simpa [namePiece] using hline

end LiveUI.Markup
