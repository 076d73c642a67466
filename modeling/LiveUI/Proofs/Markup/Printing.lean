import LiveUI.Proofs.Markup.Phrases
import LiveUI.Proofs.Source.Lines

/-! # The text of a template has its pieces

The printed text of a template that can be written is scanned to tokens that lay its pieces, line by
line from the last one back. -/

namespace LiveUI.Markup

open LiveUI.Source

variable {k : Nat} {source : List Char} {cur : Cursor} {L : List Lexeme}

theorem toList_indentation (k : Nat) : (indentation k).toList = blanks k := by
  rw [indentation, String.toList_ofList]
  rfl

/-! ## One line -/

/-- The text starts with a token. -/
def Starts (text : List Char) : Prop :=
  ∃ c ∈ text.head?, isFiller c = false

theorem Starts.append {text : List Char} (h : Starts text) (text' : List Char) :
    Starts (text ++ text') := by
  obtain ⟨c, hc, hfiller⟩ := h
  obtain ⟨rest, rfl⟩ := List.head?_eq_some_iff.1 hc
  exact ⟨c, rfl, hfiller⟩

theorem starts_of_isName {name : String} (h : isName name = true) : Starts name.toList := by
  have hword := Target.isWord_of_isName h
  cases hname : name.toList with
  | nil => rw [hname] at hword; cases hword
  | cons c cs =>
      rw [hname, isWord, Bool.and_eq_true] at hword
      exact ⟨c, rfl, isFiller_of_munch (munch_eq_word hword.1 [])⟩

/-- A line without its indentation and its line feed. -/
structure Line (text : List Char) (ps : List Piece) : Prop where
  starts : Starts text
  writes : Writes Stops 0 text ps 0

theorem Line.begins {text rest : List Char} {ps : List Piece} (h : Line text ps)
    (hin : cur.In source) (hrest : cur.rest = blanks k ++ (text ++ '\n' :: rest))
    (hnext : Scans 0 (blocksAt k) true (cur.skip (blanks k ++ (text ++ ['\n'])).length) L) :
    ∃ ls, Lays source ls (ps ++ [.token .newline]) ∧ Begins k cur (ls ++ L) := by
  obtain ⟨⟨c, hc, hfiller⟩, hwrites⟩ := h
  have hrest₁ := Cursor.rest_skip_length hrest
  have hrest₂ := Cursor.rest_skip_length hrest₁
  obtain ⟨ls, hlays, hfinds⟩ :=
    hwrites source _ ('\n' :: rest) (hin.skip hrest) hrest₁ (stops_cons rfl rest)
  have hskip : cur.skip (blanks k ++ (text ++ ['\n'])).length =
      ((cur.skip (blanks k).length).skip text.length).skip 1 := by
    simp only [← Cursor.skip_add, List.length_append, List.length_singleton, Nat.add_assoc]
  rw [hskip] at hnext
  obtain ⟨l, hl, hscans⟩ := hnext.newline hrest₂
  refine ⟨ls ++ [l], hlays.append (hl ▸ .token .nil), ?_, ?_⟩
  · obtain ⟨text', rfl⟩ := List.head?_eq_some_iff.1 hc
    exact ⟨c, _, hrest, hfiller⟩
  · have hwhole := hscans.of_finds hfinds
    rw [List.append_assoc]
    rwa [blanks, List.length_replicate] at hwhole

/-- A line and the block behind it. -/
theorem Line.block {text body rest : List Char} {ps bodyPs : List Piece} (h : Line text ps)
    (hin : cur.In source) (hrest : cur.rest = blanks k ++ (text ++ '\n' :: (body ++ rest)))
    (hnext : Resumes k (cur.skip (blanks k ++ (text ++ '\n' :: body)).length) L)
    (hbody : ∀ cur' L', cur'.In source → cur'.rest = body ++ rest →
      Resumes (k + 1) (cur'.skip body.length) L' →
        ∃ ls, Lays source ls bodyPs ∧ Begins (k + 1) cur' (ls ++ L')) :
    ∃ ls, Lays source ls (ps ++ (.token .newline :: .token .indent ::
      (bodyPs ++ [.token .dedent]))) ∧ Begins k cur (ls ++ L) := by
  have hrest' : cur.rest = (blanks k ++ (text ++ ['\n'])) ++ (body ++ rest) := by
    simpa using hrest
  have hlength : (blanks k ++ (text ++ '\n' :: body)).length =
      (blanks k ++ (text ++ ['\n'])).length + body.length := by
    simp only [List.length_append, List.length_cons, List.length_nil]
    omega
  rw [hlength, Cursor.skip_add] at hnext
  obtain ⟨last, hlast, hnext⟩ := hnext.dedent
  obtain ⟨ls, hlays, hbegins⟩ :=
    hbody _ _ (hin.skip hrest') (Cursor.rest_skip_length hrest') hnext
  obtain ⟨first, hfirst, hscans⟩ := hbegins.indents
  obtain ⟨ls', hlays', hbegins'⟩ := h.begins hin hrest hscans
  have hblock : Lays source (first :: (ls ++ [last]))
      (.token .indent :: (bodyPs ++ [.token .dedent])) := by
    rw [← hfirst, ← hlast]
    exact .token (hlays.append (.token .nil))
  refine ⟨ls' ++ first :: (ls ++ [last]), ?_, ?_⟩
  · simpa using hlays'.append hblock
  · simpa using hbegins'

theorem Target.starts {t : Target} (h : t.Written) : Starts t.text.toList := by
  cases t with
  | own attr => exact starts_of_isName h
  | member name attr =>
      rw [text_member]
      exact (starts_of_isName h.1).append _
  | element name i attr =>
      rw [text_element]
      exact (starts_of_isName h.1).append _

theorem Assignment.line {a : Assignment} (h : a.Written) :
    Line a.text.toList [.target a.target, .token a.op.token, .expression a.value] := by
  refine ⟨?_, writes h⟩
  simpa [text] using (Target.starts h.1).append _

/-! ## Constructs -/

namespace Construct

theorem toList_lines (c : Construct) (k : Nat) :
    (c.lines k).toList = blanks k ++ (c.header.toList ++
      if c.body.isEmpty then ['\n'] else ':' :: '\n' :: (bodyLines (k + 1) c.body).toList) := by
  obtain ⟨typeName, arguments, unpack, captures, body, pos⟩ := c
  cases body with
  | nil => simp [lines, toList_indentation, header]
  | cons item items => simp [lines, toList_indentation, header]

/-- Its lines are scanned to its pieces before everything that may come behind them. -/
def Prints (c : Construct) : Prop :=
  ∀ (k : Nat) (source : List Char) (cur : Cursor) (rest : List Char) (L : List Lexeme),
    cur.In source → cur.rest = (c.lines k).toList ++ rest →
      Resumes k (cur.skip (c.lines k).toList.length) L →
        ∃ ls, Lays source ls c.pieces ∧ Begins k cur (ls ++ L)

theorem body_prints {items : List (BodyItem Construct)} {rest : List Char}
    (hassignments : ∀ a, .assignment a ∈ items → a.Written)
    (hchildren : ∀ c, .child c ∈ items → c.Prints) (hin : cur.In source)
    (hrest : cur.rest = (bodyLines k items).toList ++ rest)
    (hnext : Resumes k (cur.skip (bodyLines k items).toList.length) L) :
    ∃ ls, Lays source ls (bodyPieces items) ∧ Resumes k cur (ls ++ L) ∧
      (items ≠ [] → Begins k cur (ls ++ L)) := by
  induction items generalizing cur with
  | nil => exact ⟨[], .nil, hnext, fun h => absurd rfl h⟩
  | cons item items ih =>
      rw [bodyLines, String.toList_append, List.append_assoc] at hrest
      rw [bodyLines, String.toList_append, List.length_append, Cursor.skip_add] at hnext
      obtain ⟨ls, hlays, hresumes, -⟩ := ih (fun a ha => hassignments a (List.mem_cons_of_mem _ ha))
        (fun c hc => hchildren c (List.mem_cons_of_mem _ hc)) (hin.skip hrest)
        (Cursor.rest_skip_length hrest) hnext
      obtain ⟨ls', hlays', hbegins⟩ :
          ∃ ls', Lays source ls' (itemPieces item) ∧ Begins k cur (ls' ++ (ls ++ L)) := by
        cases item with
        | child c =>
            exact hchildren c List.mem_cons_self k source cur _ _ hin hrest hresumes
        | assignment a =>
            have hline := Assignment.line (hassignments a List.mem_cons_self)
            have hitem : (itemLines k (.assignment a)).toList =
                blanks k ++ (a.text.toList ++ ['\n']) := by
              simp [itemLines, toList_indentation]
            rw [hitem] at hrest hresumes
            exact hline.begins hin (by simpa using hrest) hresumes.scans
      refine ⟨ls' ++ ls, hlays'.append hlays, ?_, fun _ => ?_⟩
      · rw [List.append_assoc]
        exact hbegins.resumes
      · rw [List.append_assoc]
        exact hbegins

theorem Written.prints {c : Construct} (h : c.Written) : c.Prints := by
  induction h with
  | @intro c hname harguments horderly hunpack hcaptures hassignments hchildren ih =>
      have hwritten : c.Written :=
        .intro hname harguments horderly hunpack hcaptures hassignments hchildren
      intro k source cur rest L hin hrest hnext
      rw [toList_lines] at hrest hnext
      have hstarts : Starts c.header.toList := by
        rw [toList_header]
        exact (starts_of_isName hname).append _
      rw [pieces_eq, blockPieces]
      by_cases hbody : c.body = []
      · simp only [hbody, List.isEmpty_nil, if_true] at hrest hnext ⊢
        have hline : Line c.header.toList c.headerPieces :=
          ⟨hstarts, (writes_header hwritten).weaken fun _ => Stops.breaks⟩
        exact hline.begins hin (by simpa using hrest) hnext.scans
      · have hempty : c.body.isEmpty = false := by simpa using hbody
        simp only [hempty, Bool.false_eq_true, if_false] at hrest hnext ⊢
        have hline : Line (c.header.toList ++ [':']) (c.headerPieces ++ [.token .colon]) :=
          ⟨hstarts.append _, (writes_header hwritten).append writes_colon
            fun rest _ => breaks_cons rfl rest⟩
        simpa using hline.block hin (by simpa using hrest) (by simpa using hnext)
          fun cur' L' hin' hrest' hnext' => by
            obtain ⟨ls, hlays, -, hbegins⟩ :=
              body_prints hassignments ih hin' hrest' hnext'
            exact ⟨ls, hlays, hbegins hbody⟩

end Construct

/-! ## Defines and modules -/

theorem Construct.bodyLines_map_child (k : Nat) (cs : List Construct) :
    bodyLines k (cs.map .child) = String.join (cs.map (·.lines k)) := by
  induction cs with
  | nil => rfl
  | cons c cs ih =>
      rw [List.map_cons, bodyLines, ih, List.map_cons, String.join_cons]
      rfl

theorem Construct.bodyPieces_map_child (cs : List Construct) :
    bodyPieces (cs.map .child) = cs.flatMap (·.pieces) := by
  induction cs with
  | nil => rfl
  | cons c cs ih =>
      rw [List.map_cons, bodyPieces, ih]
      rfl

namespace Define

def bodyText (body : List Construct) : List Char :=
  if body.isEmpty then blanks 1 ++ (['p', 'a', 's', 's'] ++ ['\n'])
  else (Construct.bodyLines 1 (body.map .child)).toList

theorem toList_text (d : Define) :
    d.text.toList = ("defn " ++ d.name ++ "(" ++ d.parameters.text ++ "):").toList ++ ['\n'] ++
      bodyText d.body := by
  rw [text, bodyText, Construct.bodyLines_map_child]
  cases d.body <;> simp [toList_indentation]

theorem body_prints {body : List Construct} {rest : List Char} (h : ∀ c ∈ body, c.Written)
    (hin : cur.In source) (hrest : cur.rest = bodyText body ++ rest)
    (hnext : Resumes 1 (cur.skip (bodyText body).length) L) :
    ∃ ls, Lays source ls (bodyPieces body) ∧ Begins 1 cur (ls ++ L) := by
  rw [bodyText] at hrest hnext
  rw [bodyPieces]
  by_cases hbody : body = []
  · subst hbody
    have hline : Line ['p', 'a', 's', 's'] [.token .pass] :=
      ⟨⟨'p', rfl, rfl⟩, writes_token ((spells_word rfl).weaken fun _ => Stops.breaks)⟩
    exact hline.begins hin (by simpa using hrest) hnext.scans
  · have hempty : body.isEmpty = false := by simpa using hbody
    simp only [hempty, Bool.false_eq_true, if_false] at hrest hnext ⊢
    obtain ⟨ls, hlays, -, hbegins⟩ := Construct.body_prints (by simp)
      (fun c hc => (h c (by simpa using hc)).prints) hin hrest hnext
    rw [Construct.bodyPieces_map_child] at hlays
    exact ⟨ls, hlays, hbegins (by simpa using hbody)⟩

theorem prints {d : Define} (h : d.Written) {rest : List Char} (hin : cur.In source)
    (hrest : cur.rest = d.text.toList ++ rest)
    (hnext : Resumes 0 (cur.skip d.text.toList.length) L) :
    ∃ ls, Lays source ls d.pieces ∧ Begins 0 cur (ls ++ L) := by
  have hline : Line ("defn " ++ d.name ++ "(" ++ d.parameters.text ++ "):").toList _ :=
    ⟨⟨'d', by simp, rfl⟩, writes h⟩
  rw [toList_text] at hrest hnext
  rw [pieces]
  simpa using hline.block (k := 0) hin (by simpa [blanks] using hrest)
    (by simpa [blanks] using hnext) fun cur' L' => body_prints h.body

end Define

theorem Item.prints {item : Item} (h : item.Written) {rest : List Char} (hin : cur.In source)
    (hrest : cur.rest = item.text.toList ++ rest)
    (hnext : Resumes 0 (cur.skip item.text.toList.length) L) :
    ∃ ls, Lays source ls item.pieces ∧ Begins 0 cur (ls ++ L) := by
  cases item with
  | define d => exact Define.prints h hin hrest hnext
  | construct c => exact Construct.Written.prints h 0 source cur rest L hin hrest hnext

namespace Module

theorem items_print {items : List Item} (h : ∀ item ∈ items, item.Written) (hin : cur.In source)
    (hrest : cur.rest = (String.intercalate "\n" (items.map (·.text))).toList) :
    ∃ ls, Lays source ls (items.flatMap (·.pieces) ++ [.token .eof]) ∧ Resumes 0 cur ls := by
  induction items generalizing cur with
  | nil => exact ⟨[cur.lexeme 0 .eof], .token .nil, resumes_end hrest⟩
  | cons item items ih =>
      obtain ⟨hitem, hitems⟩ := List.forall_mem_cons.1 h
      cases items with
      | nil =>
          have hrest' : cur.rest = item.text.toList ++ [] := by
            simpa using hrest
          obtain ⟨ls, hlays, hbegins⟩ :=
            Item.prints hitem hin hrest' (resumes_end (Cursor.rest_skip_length hrest'))
          have hend : Lays source [(cur.skip item.text.toList.length).lexeme 0 .eof] [.token .eof] :=
            .token .nil
          refine ⟨_, ?_, hbegins.resumes⟩
          rw [List.flatMap_singleton]
          exact hlays.append hend
      | cons next items =>
          have hrest' : cur.rest = item.text.toList ++ '\n' ::
              (String.intercalate "\n" ((next :: items).map (·.text))).toList := by
            rw [hrest]
            simp [String.intercalate_cons_cons]
          have hblank := Cursor.rest_skip_length hrest'
          obtain ⟨ls, hlays, hresumes⟩ := ih hitems ((hin.skip hrest').skip_any 1)
            (by rw [Cursor.rest_skip, hblank]; rfl)
          obtain ⟨ls', hlays', hbegins⟩ :=
            Item.prints hitem hin hrest' (hresumes.blank hblank)
          refine ⟨ls' ++ ls, ?_, hbegins.resumes⟩
          rw [List.flatMap_cons, List.append_assoc]
          exact hlays'.append hlays

/-- The text of a module has the tokens of its pieces. -/
theorem tokenize_text {m : Module} (h : m.Written) :
    ∃ ls, tokenize m.text.toList = .ok ls ∧ Lays m.text.toList ls m.pieces := by
  obtain ⟨ls, hlays, hresumes⟩ := items_print h (Cursor.in_ofList m.text.toList) rfl
  exact ⟨ls, tokenize_of_scans hresumes.scans, hlays⟩

end Module

end LiveUI.Markup
