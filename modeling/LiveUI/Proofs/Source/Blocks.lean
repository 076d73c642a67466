import LiveUI.Proofs.Source.Stages
import LiveUI.Proofs.Source.Streams

/-! # Blocks

The marks of the layout stand at the starts of lines and nest, and there are none between brackets. The
indentations that are open at a logical line are told by the widths of the lines before it: zero, and
each width that all later lines exceed. A line that is narrower than the one before it has to have one
of these. -/

namespace LiveUI.Source

/-! ## Marks in a row of tokens -/

/-- The token may come behind the others. -/
structure Fits (before : List Token) (t : Token) : Prop where
  indent : t = .indent → before = [] ∨ before.getLast? = some .newline
  dedent : t = .dedent → before.getLast? = some .newline ∨ before.getLast? = some .dedent
  nested : t = .dedent → before.count .dedent < before.count .indent

/-- A token that is no mark of a block may come behind all others. -/
theorem Fits.of_ne {before : List Token} {t : Token} (hindent : t ≠ .indent)
    (hdedent : t ≠ .dedent) : Fits before t where
  indent h := absurd h hindent
  dedent h := absurd h hdedent
  nested h := absurd h hdedent

/-- Each of the tokens may come behind those before it. -/
def Fitting (ks : List Token) : Prop :=
  ∀ before t after, ks = before ++ t :: after → Fits before t

/-- A layout mark stands outside all brackets. -/
def Outside (before : List Token) (t : Token) : Prop :=
  t.isLayout = true → depthBehind 0 before = some 0

/-- A property of each token behind those before it holds of a longer row if it holds of the last token,
too. -/
theorem forall_split_concat {P : List Token → Token → Prop} {ks : List Token} {k : Token}
    (h : ∀ before t after, ks = before ++ t :: after → P before t) (hk : P ks k) :
    ∀ before t after, ks ++ [k] = before ++ t :: after → P before t := by
  intro before t after heq
  rcases List.eq_nil_or_concat' after with rfl | ⟨after, k', rfl⟩
  · obtain ⟨rfl, hlast⟩ := List.append_inj' heq rfl
    cases hlast
    exact hk
  · rw [← List.cons_append, ← List.append_assoc] at heq
    obtain ⟨hks, -⟩ := List.append_inj' heq rfl
    exact h before t after hks

namespace Fitting

variable {ks : List Token} {k : Token}

theorem nil : Fitting [] := by
  intro before t after h
  cases before <;> cases h

theorem concat (h : Fitting ks) (hk : Fits ks k) : Fitting (ks ++ [k]) :=
  forall_split_concat h hk

theorem newline (h : Fitting ks) : Fitting (ks ++ [.newline]) :=
  h.concat (.of_ne (by rintro ⟨⟩) (by rintro ⟨⟩))

theorem indent (h : Fitting ks) (hlast : ks = [] ∨ ks.getLast? = some .newline) :
    Fitting (ks ++ [.indent]) :=
  h.concat ⟨fun _ => hlast, by rintro ⟨⟩, by rintro ⟨⟩⟩

theorem dedent (h : Fitting ks)
    (hlast : ks.getLast? = some .newline ∨ ks.getLast? = some .dedent)
    (hcount : ks.count .dedent < ks.count .indent) : Fitting (ks ++ [.dedent]) :=
  h.concat ⟨by rintro ⟨⟩, fun _ => hlast, fun _ => hcount⟩

theorem eof (h : Fitting ks) : Fitting (ks ++ [.eof]) :=
  h.concat (.of_ne (by rintro ⟨⟩) (by rintro ⟨⟩))

/-- No beginning has more marks that close a block than marks that open one. -/
theorem count_le {before after : List Token} (h : Fitting (before ++ after)) :
    before.count .dedent ≤ before.count .indent := by
  induction before using List.reverseRecOn generalizing after with
  | nil => exact Nat.le_refl _
  | append_singleton before t ih =>
      rw [List.append_assoc] at h
      have hbefore := ih h
      rw [List.count_append, List.count_append, List.count_singleton, List.count_singleton]
      by_cases ht : t = .dedent
      · subst ht
        have hlt := (h before .dedent after rfl).nested rfl
        change _ + 1 ≤ _ + 0
        omega
      · rw [if_neg (mt (Token.beq_iff rfl).1 ht)]
        omega

/-- Marks that close blocks may come behind the end of a line and behind each other. -/
theorem dedents (n : Nat) (h : Fitting ks)
    (hlast : ks = [] ∨ ks.getLast? = some .newline ∨ ks.getLast? = some .dedent)
    (hcount : ks.count .dedent + n ≤ ks.count .indent) :
    Fitting (ks ++ List.replicate n .dedent) := by
  induction n generalizing ks with
  | zero => rwa [List.replicate_zero, List.append_nil]
  | succ n ih =>
      have hmark : ks.getLast? = some .newline ∨ ks.getLast? = some .dedent := by
        refine hlast.resolve_left ?_
        rintro rfl
        simp only [List.count_nil] at hcount
        omega
      rw [List.replicate_succ, List.append_cons]
      refine ih (h.dedent hmark (by omega)) (.inr (.inr List.getLast?_concat)) ?_
      rw [List.count_append, List.count_append]
      change _ + 1 + n ≤ _ + 0
      omega

end Fitting

/-! ## Open blocks -/

theorem closeBlocks_eq (w : Nat) (bl : List Nat) :
    closeBlocks w bl = ((bl.takeWhile (w < ·)).length, bl.dropWhile (w < ·)) := by
  induction bl with
  | nil => rfl
  | cons b bl ih =>
      rw [closeBlocks, ih]
      by_cases h : w < b <;> simp [h]

/-- The open indentations: those of the blocks, the innermost first, and that of the text. -/
def Stage.openings (s : Stage) : List Nat :=
  s.blocks ++ [0]

theorem headD_append_zero (bl : List Nat) : (bl ++ [0]).headD 0 = bl.headD 0 := by
  cases bl <;> rfl

/-- A line closes the wider blocks. Where its width is open it is the innermost one then. -/
theorem headD_dropWhile_iff {bl : List Nat} {w : Nat} (h : (bl ++ [0]).Pairwise (· > ·)) :
    (bl.dropWhile (w < ·)).headD 0 = w ↔ w ∈ bl ++ [0] := by
  induction bl with
  | nil => simp [eq_comm]
  | cons b bl ih =>
      rw [List.cons_append, List.pairwise_cons] at h
      by_cases hb : w < b
      · have hne : w ≠ b := Nat.ne_of_lt hb
        rw [List.dropWhile_cons_of_pos (by simpa using hb), ih h.2, List.cons_append, List.mem_cons]
        simp [hne]
      · rw [List.dropWhile_cons_of_neg (by simpa using hb), List.headD_cons, List.cons_append,
          List.mem_cons]
        refine ⟨fun h => .inl h.symm, ?_⟩
        rintro (rfl | hmem)
        · rfl
        · have := h.1 w hmem
          omega

/-- What is open behind a line of width `w`: what was open before and is narrower, and the line. -/
def openedBy (w : Nat) (openings : List Nat) : List Nat :=
  w :: openings.filter (· < w)

/-- The indentations that are open behind lines of these widths, the last line first. -/
def openings (widths : List Nat) : List Nat :=
  widths.foldr openedBy [0]

theorem openings_pairwise (widths : List Nat) : (openings widths).Pairwise (· > ·) := by
  induction widths with
  | nil => exact List.pairwise_singleton _ _
  | cons w widths ih =>
      rw [openings, List.foldr_cons, openedBy, List.pairwise_cons]
      refine ⟨fun b hb => ?_, ih.filter _⟩
      simpa using (List.mem_filter.1 hb).2

theorem filter_openings {bl : List Nat} {w : Nat} (h : (bl ++ [0]).Pairwise (· > ·))
    (hw : (bl.dropWhile (w < ·)).headD 0 = w) :
    openedBy w (bl ++ [0]) = bl.dropWhile (w < ·) ++ [0] := by
  induction bl with
  | nil =>
      obtain rfl : 0 = w := hw
      rfl
  | cons b bl ih =>
      rw [List.cons_append, List.pairwise_cons] at h
      by_cases hb : w < b
      · rw [List.dropWhile_cons_of_pos (by simpa using hb)] at hw ⊢
        rw [← ih h.2 hw, openedBy, openedBy, List.cons_append,
          List.filter_cons_of_neg (by simpa using Nat.le_of_lt hb)]
      · rw [List.dropWhile_cons_of_neg (by simpa using hb)] at hw ⊢
        obtain rfl : b = w := hw
        rw [openedBy, List.cons_append, List.filter_cons_of_neg (by simp)]
        congr 1
        exact List.filter_eq_self.2 fun a ha => by simpa using h.1 a ha

/-- How a line is aligned: it opens a block, or it closes those that are wider. -/
theorem align_cases {bl bl' : List Nat} {w : Nat} {cur : Cursor} {marks : List Lexeme}
    (hbl : (bl ++ [0]).Pairwise (· > ·)) (h : align bl w cur = .ok (marks, bl')) :
    bl' ++ [0] = openedBy w (bl ++ [0]) ∧
      (marks.map (·.token) = [.indent] ∧ bl'.length = bl.length + 1 ∨
        ∃ n, marks.map (·.token) = List.replicate n .dedent ∧ bl.length = bl'.length + n) := by
  rw [align] at h
  split at h
  next hlt =>
    cases h
    refine ⟨?_, .inl ⟨rfl, rfl⟩⟩
    rw [openedBy, List.cons_append]
    congr 1
    refine (List.filter_eq_self.2 fun a ha => ?_).symm
    rw [decide_eq_true_eq]
    -- The innermost block is the widest one.
    rw [← headD_append_zero] at hlt
    generalize bl ++ [0] = open' at hbl hlt ha
    cases open' with
    | nil => cases ha
    | cons b rest =>
        rcases List.mem_cons.1 ha with rfl | ha
        · exact hlt
        · exact Nat.lt_trans ((List.pairwise_cons.1 hbl).1 a ha) hlt
  next =>
    rw [closeBlocks_eq] at h
    simp only at h
    split at h
    next hw =>
      cases h
      refine ⟨(filter_openings hbl hw).symm, .inr ⟨_, List.map_replicate, ?_⟩⟩
      rw [Nat.add_comm, ← List.length_append, List.takeWhile_append_dropWhile]
    next => cases h

theorem align_eq_error {bl : List Nat} {w : Nat} {cur : Cursor} {e : SyntaxError}
    (hbl : (bl ++ [0]).Pairwise (· > ·)) :
    align bl w cur = .error e ↔
      (w < (bl ++ [0]).headD 0 ∧ w ∉ bl ++ [0]) ∧ e = ⟨.unindent, cur.pos, none⟩ := by
  have hhead : (bl ++ [0]).headD 0 ∈ bl ++ [0] := by
    cases bl <;> simp
  rw [align, ← headD_append_zero, closeBlocks_eq]
  simp only [headD_dropWhile_iff hbl]
  split
  next hlt =>
    constructor
    · rintro ⟨⟩
    · rintro ⟨⟨hlt', -⟩, -⟩
      omega
  next hle =>
    split
    next hmem =>
      constructor
      · rintro ⟨⟩
      · exact fun h => absurd hmem h.1.2
    next hmem =>
      have hne : w ≠ (bl ++ [0]).headD 0 := fun heq => hmem (heq ▸ hhead)
      rw [Except.error.injEq, eq_comm]
      exact (and_iff_right ⟨by omega, hmem⟩).symm

/-! ## Stages -/

/-- The scan has come to the stage past logical lines of these widths, the last one first. -/
inductive Past (source : List Char) : List Nat → Stage → Prop where
  | start : Past source [] (.start source)
  | turn {widths : List Nat} {s s' : Stage} {ms : List Lexeme} (h : Past source widths s)
      (hturn : Turn s ms s') :
      Past source ((if s.fresh && !s'.fresh then [width (margin s.cur.rest)] else []) ++ widths) s'

theorem Past.leads {source : List Char} {widths : List Nat} {s s' : Stage} {ls : List Lexeme}
    (h : Past source widths s) (hleads : Leads s ls s') : ∃ widths', Past source widths' s' := by
  induction hleads generalizing widths with
  | here => exact ⟨widths, h⟩
  | turn hturn _ ih => exact ih (h.turn hturn)

theorem Past.exists_leads {source : List Char} {widths : List Nat} {s : Stage}
    (h : Past source widths s) : ∃ ls, Leads (.start source) ls s := by
  induction h with
  | start => exact ⟨[], .here⟩
  | turn _ hturn ih =>
      obtain ⟨ls, hleads⟩ := ih
      exact ⟨_, hleads.trans (.turn hturn .here)⟩

/-- A logical line of width `w` starts at the stage, with its first character at `p`. -/
def Stage.OpensLine (s : Stage) (w : Nat) (p : Position) : Prop :=
  s.fresh = true ∧ ∃ m c cs, s.cur.rest = m ++ c :: cs ∧ (∀ c ∈ m, isMargin c = true) ∧
    opensLine c = true ∧ w = width m ∧ p = (s.cur.skip m.length).pos

/-- The tokens `ks` are found on the way to the stage. -/
structure Stage.Behind (ks : List Token) (s : Stage) : Prop where
  fitting : Fitting ks
  outside : ∀ before t after, ks = before ++ t :: after → Outside before t
  fresh : s.fresh = true → s.depth = 0 ∧ (ks = [] ∨ ks.getLast? = some .newline)
  depth : depthBehind 0 ks = some s.depth
  count : ks.count .indent = ks.count .dedent + s.blocks.length
  goesOn : .eof ∉ ks
  descending : s.openings.Pairwise (· > ·)

theorem depthAfter_of_isLayout {t : Token} (h : t.isLayout = true) (d : Nat) :
    depthAfter d t = some d := by
  cases t <;> first | rfl | cases h

theorem depthBehind_concat {d : Nat} {ks : List Token} (h : depthBehind 0 ks = some d) (t : Token) :
    depthBehind 0 (ks ++ [t]) = depthAfter d t := by
  rw [depthBehind_append, h, Option.bind_some, depthBehind]
  cases depthAfter d t <;> rfl

/-- Layout marks that stand outside all brackets leave those behind them there. -/
theorem outside_append {ks ms : List Token}
    (h : ∀ before t after, ks = before ++ t :: after → Outside before t)
    (hdepth : depthBehind 0 ks = some 0) (hms : ∀ t ∈ ms, t.isLayout = true) :
    (∀ before t after, ks ++ ms = before ++ t :: after → Outside before t) ∧
      depthBehind 0 (ks ++ ms) = some 0 := by
  induction ms generalizing ks with
  | nil => rw [List.append_nil]; exact ⟨h, hdepth⟩
  | cons m ms ih =>
      obtain ⟨hm, hms⟩ := List.forall_mem_cons.1 hms
      rw [List.append_cons]
      refine ih (forall_split_concat h fun _ => hdepth) ?_ hms
      rw [depthBehind_concat hdepth, depthAfter_of_isLayout hm]

namespace Stage.Behind

variable {ks : List Token} {s s' : Stage} {ms : List Lexeme}

theorem start (source : List Char) : Stage.Behind [] (.start source) where
  fitting := .nil
  outside before t after h := by cases before <;> cases h
  fresh _ := ⟨rfl, .inl rfl⟩
  depth := rfl
  count := rfl
  goesOn := List.not_mem_nil
  descending := List.pairwise_singleton _ _

/-- What is found on the way is in order, whatever turn comes next. -/
theorem turn (h : s.Behind ks) (hturn : Turn s ms s') : s'.Behind (ks ++ ms.map (·.token)) := by
  cases hturn with
  | blank | comment | lastComment | joined =>
      rw [List.map_nil, List.append_nil]
      exact ⟨h.fitting, h.outside, h.fresh, h.depth, h.count, h.goesOn, h.descending⟩
  | @layout _ bl bl' _ _ _ _ _ _ _ _ halign =>
      have hcount : ks.count .indent = ks.count .dedent + bl.length := h.count
      -- A line starts outside all brackets, behind the end of another one or at the start of the text.
      obtain ⟨hdepth, hline⟩ := h.fresh rfl
      have hflat : depthBehind 0 ks = some 0 := h.depth.trans (congrArg some hdepth)
      have hpairwise : (bl ++ [0]).Pairwise (· > ·) := h.descending
      obtain ⟨hopen, hmarks⟩ := align_cases hpairwise halign
      have hlayout : ∀ t ∈ ms.map (·.token), t.isLayout = true := by
        rcases hmarks with ⟨hmarks, -⟩ | ⟨n, hmarks, -⟩ <;> rw [hmarks]
        · simp [Token.isLayout]
        · exact fun t ht => by rw [List.eq_of_mem_replicate ht]; rfl
      obtain ⟨houtside, hdepth'⟩ := outside_append h.outside hflat hlayout
      refine ⟨?_, houtside, by rintro ⟨⟩, hdepth'.trans (congrArg some hdepth.symm), ?_, ?_, ?_⟩
      · rcases hmarks with ⟨hmarks, -⟩ | ⟨n, hmarks, hlength⟩ <;> rw [hmarks]
        · exact h.fitting.indent hline
        · refine h.fitting.dedents n (hline.imp_right .inl) ?_
          omega
      · change _ = _ + bl'.length
        rw [List.count_append, List.count_append]
        rcases hmarks with ⟨hmarks, hlength⟩ | ⟨n, hmarks, hlength⟩ <;> rw [hmarks]
        · change _ + 1 = _ + 0 + _
          omega
        · rw [show (List.replicate n Token.dedent).count .indent = 0 from List.countP_replicate,
            show (List.replicate n Token.dedent).count .dedent = n from List.countP_replicate]
          omega
      · rw [List.mem_append, not_or]
        refine ⟨h.goesOn, ?_⟩
        rcases hmarks with ⟨hmarks, -⟩ | ⟨n, hmarks, -⟩ <;> rw [hmarks] <;> simp
      · simp only [Stage.openings, hopen, openedBy, List.pairwise_cons]
        exact ⟨fun a ha => by simpa using (List.mem_filter.1 ha).2, hpairwise.filter _⟩
  | newline =>
      have hmark : ∀ t ∈ [Token.newline], t.isLayout = true := by simp [Token.isLayout]
      obtain ⟨houtside, hdepth⟩ := outside_append h.outside h.depth hmark
      refine ⟨h.fitting.newline, houtside, fun _ => ⟨rfl, .inr List.getLast?_concat⟩, hdepth, ?_, ?_,
        h.descending⟩
      · have hcount := h.count
        rw [List.map_singleton, List.count_append, List.count_append]
        change _ + 0 = _ + 0 + _
        omega
      · simpa [Cursor.lexeme] using h.goesOn
  | @token _ _ _ _ _ _ _ _ t _ _ ht hd =>
      have hplain := (munch_plain ht).2.1
      have hne : t ≠ .indent ∧ t ≠ .dedent ∧ t ≠ .eof := by
        refine ⟨?_, ?_, ?_⟩ <;>
          · rintro rfl
            cases hplain
      refine ⟨h.fitting.concat (.of_ne hne.1 hne.2.1), ?_, by rintro ⟨⟩, ?_, ?_, ?_, h.descending⟩
      · refine forall_split_concat h.outside fun hlayout => ?_
        change t.isLayout = true at hlayout
        rw [hplain] at hlayout
        cases hlayout
      · exact (depthBehind_concat h.depth t).trans hd
      · have hcount := h.count
        rw [List.map_singleton, List.count_append, List.count_append, List.count_singleton,
          List.count_singleton]
        change _ + (if t == .indent then 1 else 0) = _ + (if t == .dedent then 1 else 0) + _
        rw [if_neg (mt (Token.beq_iff rfl).1 hne.1), if_neg (mt (Token.beq_iff rfl).1 hne.2.1)]
        exact hcount
      · simpa [Cursor.lexeme] using ⟨h.goesOn, hne.2.2.symm⟩

theorem leads {ls : List Lexeme} (h : s.Behind ks) (hleads : Leads s ls s') :
    s'.Behind (ks ++ ls.map (·.token)) := by
  induction hleads generalizing ks with
  | here => rwa [List.map_nil, List.append_nil]
  | turn hturn _ ih =>
      rw [List.map_append, ← List.append_assoc]
      exact ih (h.turn hturn)

end Stage.Behind

/-- Behind lines of these widths just those indentations are open. -/
theorem Past.openings_eq {source : List Char} {widths : List Nat} {s : Stage}
    (h : Past source widths s) : s.openings = openings widths := by
  induction h with
  | start => rfl
  | @turn widths s s' ms _ hturn ih =>
      cases hturn with
      | @layout _ bl _ cur m cs _ _ hrest hm hc halign =>
          have hopenings : bl ++ [0] = openings widths := ih
          have hpairwise : (bl ++ [0]).Pairwise (· > ·) := by
            rw [hopenings]
            exact openings_pairwise widths
          have hmargin : margin cur.rest = m := by
            rw [hrest]
            refine margin_append hm ?_
            rintro _ ⟨⟩
            exact (opensLine_iff.1 hc).1
          have hopen := (align_cases hpairwise halign).1
          change _ = openedBy (width (margin cur.rest)) (openings widths)
          rw [hmargin, ← hopenings]
          exact hopen
      | _ => exact ih

/-! ## The tokens of a text -/

/-- The tokens of a text that is laid out in blocks. -/
structure InBlocks (ks : List Token) : Prop where
  /-- They end with one mark that ends the text. -/
  ended : ∃ init, ks = init ++ [.eof] ∧ .eof ∉ init
  /-- Each block that is opened is closed. -/
  balanced : ks.count .indent = ks.count .dedent
  /-- No block is closed that has not been opened. -/
  nested : ∀ before after, ks = before ++ after → before.count .dedent ≤ before.count .indent
  /-- Blocks are opened at the start of a line. -/
  opened : ∀ before after, ks = before ++ .indent :: after →
    before = [] ∨ before.getLast? = some .newline
  /-- Blocks are closed at the start of a line, one after another. -/
  closed : ∀ before after, ks = before ++ .dedent :: after →
    before.getLast? = some .newline ∨ before.getLast? = some .dedent
  /-- There is no layout between a bracket and the one that closes it. -/
  joined : ∀ before opening inner closing after,
    ks = before ++ opening :: (inner ++ closing :: after) →
      opening = .leftParen ∨ opening = .leftBracket → depthBehind 0 inner = some 0 →
      closing = .rightParen ∨ closing = .rightBracket → ∀ t ∈ inner, t.isLayout = false

/-- Between a bracket and the one that closes it no token stands outside all brackets. -/
theorem inside_of_balanced {ks : List Token} {d : Nat} (hks : depthBehind 0 ks = some d)
    (houtside : ∀ before t after, ks = before ++ t :: after → Outside before t)
    {before inner after : List Token} {opening : Token}
    (heq : ks = before ++ opening :: (inner ++ after))
    (hopening : opening = .leftParen ∨ opening = .leftBracket)
    (hinner : depthBehind 0 inner = some 0) : ∀ t ∈ inner, t.isLayout = false := by
  intro t ht
  obtain ⟨inner, inner', rfl⟩ := List.append_of_mem ht
  rw [Bool.eq_false_iff]
  intro hlayout
  obtain ⟨d₁, hinner, -⟩ :
      ∃ d₁, depthBehind 0 inner = some d₁ ∧ depthBehind d₁ (t :: inner') = some 0 := by
    rwa [depthBehind_append, Option.bind_eq_some_iff] at hinner
  obtain ⟨d₂, hbefore, -⟩ : ∃ d₂, depthBehind 0 before = some d₂ ∧ _ = some d := by
    rwa [heq, depthBehind_append, Option.bind_eq_some_iff] at hks
  have hopen : depthAfter d₂ opening = some (d₂ + 1) := by
    rcases hopening with rfl | rfl <;> rfl
  have hzero := houtside (before ++ opening :: inner) t (inner' ++ after) (by simp [heq]) hlayout
  rw [depthBehind_append, hbefore, Option.bind_some, depthBehind, hopen, Option.bind_some,
    ← Nat.zero_add (d₂ + 1), depthBehind_add hinner] at hzero
  cases hzero

/-- The tokens that close a text: the end of its last line, the ends of its blocks and its own. -/
theorem Ending.kinds_lexemes (e : Ending) (last : Option Token) :
    ∃ line, (e.lexemes last).map (·.token) =
      line ++ List.replicate e.blocks.length .dedent ++ [.eof] ∧
      (line = [] ∧ (last = none ∨ last = some .newline) ∨ line = [.newline]) := by
  rcases last with _ | t
  · exact ⟨[], by simp [Ending.lexemes, Cursor.lexeme], .inl ⟨rfl, .inl rfl⟩⟩
  · by_cases ht : t = .newline
    · subst ht
      exact ⟨[], by simp [Ending.lexemes, Cursor.lexeme], .inl ⟨rfl, .inr rfl⟩⟩
    · refine ⟨[.newline], ?_, .inr rfl⟩
      cases t <;> first | exact absurd rfl ht | simp [Ending.lexemes, Cursor.lexeme]

theorem mem_of_split {α : Type} {found tail before after : List α} {a : α}
    (h : found ++ tail = before ++ a :: after) (ha : a ∉ tail) :
    ∃ after', found = before ++ a :: after' := by
  rcases List.append_eq_append_iff.1 h with ⟨more, rfl, htail⟩ | ⟨more, hfound, htail⟩
  · exact absurd (htail ▸ List.mem_append_right more List.mem_cons_self) ha
  · cases more with
    | nil => exact absurd (by rw [← List.nil_append tail, ← htail]; exact List.mem_cons_self) ha
    | cons b more =>
        obtain ⟨rfl, -⟩ := List.cons.inj htail
        exact ⟨more, hfound⟩

/-- The tokens that a scan finds in a text, with those that close it. -/
theorem Stage.Behind.inBlocks {ks : List Token} {s : Stage} (h : s.Behind ks) :
    InBlocks (ks ++ (s.ending.lexemes ks.getLast?).map (·.token)) := by
  obtain ⟨line, hclosing, hline⟩ := s.ending.kinds_lexemes ks.getLast?
  have hlast : ks ++ line = [] ∨ (ks ++ line).getLast? = some .newline ∨
      (ks ++ line).getLast? = some .dedent := by
    rcases hline with ⟨rfl, hnone | hnewline⟩ | rfl
    · exact .inl (by simpa using hnone)
    · exact .inr (.inl (by simpa using hnewline))
    · exact .inr (.inl List.getLast?_concat)
  have hplain : Fitting (ks ++ line) ∧ (ks ++ line).count .indent = ks.count .indent ∧
      (ks ++ line).count .dedent = ks.count .dedent ∧ .eof ∉ ks ++ line := by
    rcases hline with ⟨rfl, -⟩ | rfl
    · rw [List.append_nil]
      exact ⟨h.fitting, rfl, rfl, h.goesOn⟩
    · refine ⟨h.fitting.newline, ?_, ?_, by simpa using h.goesOn⟩ <;>
        · rw [List.count_append]
          rfl
  obtain ⟨hfitting, hindents, hdedents, hgoesOn⟩ := hplain
  have hcount := h.count
  set n := s.blocks.length
  have hclosed : Fitting (ks ++ line ++ List.replicate n .dedent) :=
    hfitting.dedents n hlast (by omega)
  have hfits : Fitting (ks ++ line ++ List.replicate n .dedent ++ [.eof]) :=
    hclosed.eof
  have heq : ks ++ (s.ending.lexemes ks.getLast?).map (·.token) =
      ks ++ line ++ List.replicate n .dedent ++ [.eof] := by
    rw [hclosing]
    simp [n, Stage.ending]
  have hlayout : ∀ t ∈ (s.ending.lexemes ks.getLast?).map (·.token), t.isLayout = true := by
    simpa using Ending.lexemes_layout s.ending ks.getLast?
  refine ⟨⟨_, heq, by simpa using hgoesOn⟩, ?_, ?_, ?_, ?_, ?_⟩
  · rw [heq]
    simp only [List.count_append, hindents, hdedents]
    rw [show (List.replicate n Token.dedent).count .indent = 0 from List.countP_replicate,
      show (List.replicate n Token.dedent).count .dedent = n from List.countP_replicate]
    change _ + 0 + 0 = _ + n + 0
    omega
  · intro before after hsplit
    exact Fitting.count_le (hsplit ▸ heq ▸ hfits)
  · intro before after hsplit
    exact (hfits before .indent after (heq ▸ hsplit)).indent rfl
  · intro before after hsplit
    exact (hfits before .dedent after (heq ▸ hsplit)).dedent rfl
  · intro before opening inner closing after hsplit hopening hinner hclose
    -- The tokens that close a text are no brackets, so both brackets have been found in it.
    have hnot : closing ∉ (s.ending.lexemes ks.getLast?).map (·.token) := by
      intro hmem
      have := hlayout closing hmem
      rcases hclose with rfl | rfl <;> cases this
    rw [← List.cons_append, ← List.append_assoc] at hsplit
    obtain ⟨after', hfound⟩ := mem_of_split hsplit hnot
    rw [List.append_assoc, List.cons_append] at hfound
    exact inside_of_balanced h.depth h.outside hfound hopening hinner

/-! ## Lines that match no open indentation -/

theorem stringBody_fault {mark : Char} {cs : List Char} {n : Nat} :
    stringBody mark cs ≠ .error (.unindent, n) := by
  intro h
  fun_induction stringBody mark cs generalizing n with
  | case1 | case2 | case3 | case4 | case5 | case7 => cases h
  | case6 _ _ _ _ hrest _ _ ih | case8 _ _ _ _ _ _ _ hrest ih => cases h; exact ih hrest

theorem munchNumeral_fault {c : Char} {cs : List Char} {n : Nat} :
    munchNumeral c cs ≠ .fault .unindent n := by
  intro h
  obtain ⟨text, rest, rfl, htext, hrest⟩ := run_split isNumeralPart cs
  by_cases hpoint : Pointed rest
  · obtain ⟨d, rest, rfl, hd⟩ := hpoint
    obtain ⟨fraction, rest, rfl, hfraction, hend⟩ := run_split isNumeralPart rest
    rw [munchNumeral_pointed htext hd hfraction hend] at h
    cases h
  · rw [munchNumeral_whole htext hrest hpoint] at h
    cases hvalue : Number.int64? (Number.digitsValue ((c :: text).filter (· ≠ '_'))) <;>
      · rw [hvalue] at h
        cases h

theorem munch_fault {c : Char} {cs : List Char} {n : Nat} : munch c cs ≠ .fault .unindent n := by
  intro h
  rw [munch] at h
  split at h
  next => cases h
  next =>
    split at h
    · rw [munchString] at h
      split at h
      next => cases h
      next hbody => cases h; exact stringBody_fault hbody
    · split at h
      · exact munchNumeral_fault h
      · split at h <;> cases h

/-- A scan is refused for its layout where a line matches no open indentation. -/
theorem Past.fails_iff {source : List Char} {widths : List Nat} {s : Stage} {p : Position}
    (h : Past source widths s) :
    Fails s ⟨.unindent, p, none⟩ ↔
      ∃ w, s.OpensLine w p ∧ w < (openings widths).headD 0 ∧ w ∉ openings widths := by
  rw [← h.openings_eq]
  have hpairwise : s.openings.Pairwise (· > ·) := h.openings_eq ▸ openings_pairwise widths
  constructor
  · intro hfails
    cases hfails with
    | unindent hrest hm hc halign =>
        obtain ⟨hout, herror⟩ := (align_eq_error hpairwise).1 halign
        cases herror
        exact ⟨_, ⟨rfl, _, _, _, hrest, hm, hc, rfl, rfl⟩, hout⟩
    | fault _ _ _ hfault => exact absurd hfault munch_fault
  · obtain ⟨d, bl, fresh, cur⟩ := s
    rintro ⟨w, ⟨rfl, m, c, cs, hrest, hm, hc, rfl, rfl⟩, hout⟩
    exact .unindent hrest hm hc ((align_eq_error hpairwise).2 ⟨hout, rfl⟩)

/-- The tokens of a text form nested blocks, and brackets keep layout out. A text is refused for its
layout exactly where a line is narrower than the innermost open indentation and matches none of the
open ones. -/
theorem tokenize_inBlocks (source : List Char) :
    (∀ ls, tokenize source = .ok ls → InBlocks (ls.map (·.token))) ∧
      ∀ p, tokenize source = .error ⟨.unindent, p, none⟩ ↔
        ∃ widths s w, Past source widths s ∧ s.OpensLine w p ∧
          w < (openings widths).headD 0 ∧ w ∉ openings widths := by
  refine ⟨fun ls hls => ?_, fun p => tokenize_eq_error.trans ⟨?_, ?_⟩⟩
  · obtain ⟨found, s, hleads, -, rfl⟩ := tokenize_eq_ok.1 hls
    have hblocks := ((Stage.Behind.start source).leads hleads).inBlocks
    rwa [List.nil_append, List.getLast?_map, ← List.map_append] at hblocks
  · rintro ⟨found, s, hleads, hfails⟩
    obtain ⟨widths, hpast⟩ := Past.start.leads hleads
    obtain ⟨w, hline, hout⟩ := hpast.fails_iff.1 hfails
    exact ⟨widths, s, w, hpast, hline, hout⟩
  · rintro ⟨widths, s, w, hpast, hline, hout⟩
    obtain ⟨found, hleads⟩ := hpast.exists_leads
    exact ⟨found, s, hleads, hpast.fails_iff.2 ⟨w, hline, hout⟩⟩

/-- A block with a joined line in it, closed at the end of the text, and a line that matches neither the
block nor the text. -/
theorem tokenize_inBlocks_nested :
    (∃ ls, tokenize "a:\n  b(\nc)".toList = .ok ls ∧
      ls.map (·.token) = [.ident "a", .colon, .newline, .indent, .ident "b", .leftParen, .ident "c",
        .rightParen, .newline, .dedent, .eof] ∧ InBlocks (ls.map (·.token))) ∧
    tokenize "a:\n  b\n c".toList = .error ⟨.unindent, ⟨3, 2⟩, none⟩ ∧
      ∃ widths s w, Past "a:\n  b\n c".toList widths s ∧ s.OpensLine w ⟨3, 2⟩ ∧
        w < (openings widths).headD 0 ∧ w ∉ openings widths := by
  refine ⟨?_, ?_⟩
  · have hkinds : (tokenize "a:\n  b(\nc)".toList).toOption.map (·.map (·.token)) =
        some [.ident "a", .colon, .newline, .indent, .ident "b", .leftParen, .ident "c",
          .rightParen, .newline, .dedent, .eof] := by
      cbv
    obtain ⟨ls, hls, hfound⟩ := exists_tokenize hkinds
    exact ⟨ls, hls, hfound, (tokenize_inBlocks _).1 ls hls⟩
  · have hrefused : tokenize "a:\n  b\n c".toList = .error ⟨.unindent, ⟨3, 2⟩, none⟩ := by
      cbv
    exact ⟨hrefused, ((tokenize_inBlocks _).2 _).1 hrefused⟩

end LiveUI.Source
