import LiveUI.Proofs.Source.Blocks
import LiveUI.Proofs.Source.Moving

/-! # Spans that tile a text

A token stands over a piece of its text, and its line and column are told by what is before it. The
pieces follow each other in the order of the tokens, and what lies between them is filler: blanks, line
ends, comments, and backslashes that join two lines. -/

namespace LiveUI.Source

/-! ## Positions -/

/-- The position of what comes behind the text `u`. -/
def Position.after (u : List Char) : Position :=
  ⟨u.count '\n' + 1, (u.rtakeWhile (· ≠ '\n')).length + 1⟩

theorem Position.after_concat (u : List Char) (c : Char) :
    Position.after (u ++ [c]) = Cursor.advance (.after u) c := by
  rw [Cursor.advance, after, List.count_append]
  by_cases hc : c = '\n'
  · subst hc
    rw [if_pos rfl, List.rtakeWhile_concat_neg _ _ _ (by simp)]
    rfl
  · rw [if_neg hc, List.rtakeWhile_concat_pos _ _ _ (by simpa using hc), List.length_append,
      List.count_singleton, if_neg (by simpa using hc)]
    rfl

namespace Cursor

/-- The cursor has passed over the text `u`, which starts a source. -/
structure Passed (cur : Cursor) (u : List Char) : Prop where
  offset : cur.offset = bytes u
  pos : cur.pos = .after u

theorem passed_ofList (source : List Char) : (ofList source).Passed [] :=
  ⟨rfl, rfl⟩

theorem Passed.skip {cur : Cursor} {u text rest : List Char} (h : cur.Passed u)
    (hrest : cur.rest = text ++ rest) : (cur.skip text.length).Passed (u ++ text) := by
  induction text generalizing cur u with
  | nil => rwa [List.append_nil]
  | cons c text ih =>
      obtain ⟨_, offset, pos⟩ := cur
      subst hrest
      obtain ⟨hoffset, hpos⟩ := h
      dsimp only at hoffset hpos
      subst hoffset hpos
      have hnext : (⟨text ++ rest, bytes u + c.utf8Size, advance (.after u) c⟩ : Cursor).Passed
          (u ++ [c]) :=
        ⟨by simp, (Position.after_concat u c).symm⟩
      rw [List.append_cons]
      exact ih hnext rfl

end Cursor

/-! ## Filler -/

/-- A text without tokens. -/
inductive Filler : List Char → Prop where
  | none : Filler []
  /-- A space, a tab, a carriage return or a line feed. -/
  | blank {c : Char} {cs : List Char} (hc : c = ' ' ∨ c = '\t' ∨ c = '\r' ∨ c = '\n') (h : Filler cs) :
      Filler (c :: cs)
  /-- A comment, up to the end of its line. -/
  | comment {text cs : List Char} (htext : '\n' ∉ text) (hline : ∀ c ∈ cs.head?, c = '\n')
      (h : Filler cs) : Filler ('#' :: (text ++ cs))
  /-- A backslash that joins a line to the next one. -/
  | joined {cs : List Char} (h : Filler cs) : Filler ('\\' :: '\n' :: cs)

namespace Filler

variable {g g' : List Char}

/-- What is left of a filler from its first line end on. -/
theorem rest_of_line (h : Filler g) :
    ∃ text rest, g = text ++ rest ∧ '\n' ∉ text ∧ (∀ c ∈ rest.head?, c = '\n') ∧ Filler rest := by
  induction h with
  | none => exact ⟨[], [], rfl, by simp, nofun, .none⟩
  | @blank c cs hc h ih =>
      by_cases hline : c = '\n'
      · subst hline
        exact ⟨[], _, rfl, by simp, by rintro _ ⟨⟩; rfl, .blank hc h⟩
      · obtain ⟨text, rest, rfl, htext, hrest, hfiller⟩ := ih
        exact ⟨c :: text, rest, rfl, by simp [Ne.symm hline, htext], hrest, hfiller⟩
  | @comment text cs htext hline h _ => exact ⟨'#' :: text, cs, rfl, by simp [htext], hline, h⟩
  | @joined cs h _ =>
      exact ⟨['\\'], '\n' :: cs, rfl, by simp, by rintro _ ⟨⟩; rfl, .blank (by simp) h⟩

theorem append (h : Filler g) (h' : Filler g') : Filler (g ++ g') := by
  induction h with
  | none => exact h'
  | blank hc _ ih => exact .blank hc ih
  | @comment text cs htext hline _ ih =>
      rw [List.cons_append, List.append_assoc]
      cases cs with
      | cons c cs => exact .comment htext hline ih
      | nil =>
          -- The comment goes on to the first line end of what follows.
          obtain ⟨more, rest, rfl, hmore, hrest, hfiller⟩ := h'.rest_of_line
          rw [List.nil_append, ← List.append_assoc]
          exact .comment (by simp [htext, hmore]) hrest hfiller
  | joined _ ih => exact .joined ih

theorem newline : Filler ['\n'] :=
  .blank (by simp) .none

theorem of_margin {m : List Char} (h : ∀ c ∈ m, isMargin c = true) : Filler m := by
  induction m with
  | nil => exact .none
  | cons c m ih =>
      obtain ⟨hc, hm⟩ := List.forall_mem_cons.1 h
      refine .blank ?_ (ih hm)
      simp only [isMargin, Bool.or_eq_true, beq_iff_eq, or_assoc] at hc
      exact hc.imp_right (·.imp_right .inl)

theorem of_comment {text : List Char} (h : '\n' ∉ text) : Filler ('#' :: text) := by
  rw [← List.append_nil text]
  exact .comment h nofun .none

/-- What a gap passes over is filler. -/
theorem of_take_gap (cs : List Char) : Filler (cs.take (gap cs)) := by
  fun_induction gap cs with
  | case1 => exact .none
  | case2 cs ih => exact .joined ih
  | case3 cs =>
      rw [List.take_succ_cons, ← List.prefix_iff_eq_take.1 (List.takeWhile_prefix _)]
      exact of_comment fun h => by simpa using List.mem_takeWhile_imp h
  | case4 c cs _ _ hc ih => exact .blank (hc.imp_right (·.imp_right .inl)) ih
  | case5 => exact .none

theorem of_gap {rest : List Char} (h : gap (g ++ rest) = g.length) : Filler g := by
  have hfiller := of_take_gap (g ++ rest)
  rwa [h, List.take_left] at hfiller

end Filler

/-! ## Tokens over a text -/

/-- The token stands over the text `v`, behind the text `u`. A mark of the layout takes no text, unless
it is the end of a line. -/
structure Lexeme.Over (l : Lexeme) (u v : List Char) : Prop where
  start : l.start = bytes u
  stop : l.stop = bytes (u ++ v)
  pos : l.pos = .after u
  mark : l.token.isLayout = true → v = [] ∨ l.token = .newline ∧ v = ['\n']

namespace Lexeme.Over

variable {l : Lexeme} {u v : List Char}

theorem start_le (h : l.Over u v) : l.start ≤ l.stop := by
  rw [h.start, h.stop, bytes_append]
  exact Nat.le_add_right _ _

/-- A mark of the layout that ends no line takes no text. -/
theorem stop_of_mark (h : l.Over u v) (hlayout : l.token.isLayout = true) (hl : l.token ≠ .newline) :
    l.stop = l.start := by
  obtain rfl : v = [] := (h.mark hlayout).resolve_right fun hline => hl hline.1
  rw [h.start, h.stop, List.append_nil]

/-- The end of a line that takes any text takes a line feed. -/
theorem eq_newline (h : l.Over u v) (hl : l.token = .newline) (hne : l.stop ≠ l.start) :
    v = ['\n'] := by
  refine ((h.mark (by rw [hl]; rfl)).resolve_left ?_).2
  rintro rfl
  rw [h.start, h.stop, List.append_nil] at hne
  exact hne rfl

end Lexeme.Over

theorem Cursor.Passed.lexeme {cur : Cursor} {u v rest : List Char} {t : Token} (h : cur.Passed u)
    (hrest : cur.rest = v ++ rest)
    (ht : t.isLayout = true → v = [] ∨ t = .newline ∧ v = ['\n']) :
    (cur.lexeme v.length t).Over u v :=
  ⟨h.offset, (h.skip hrest).offset, h.pos, ht⟩

/-- Behind the text `u`, the tokens `ls` and fillers between them make up `text`. -/
inductive Tiles : List Char → List Lexeme → List Char → Prop where
  | filler {u g : List Char} (hg : Filler g) : Tiles u [] g
  | token {u g v text : List Char} {l : Lexeme} {ls : List Lexeme} (hg : Filler g)
      (hl : l.Over (u ++ g) v) (h : Tiles (u ++ g ++ v) ls text) :
      Tiles u (l :: ls) (g ++ (v ++ text))

namespace Tiles

variable {u x y : List Char} {l : Lexeme} {ls ls' : List Lexeme}

theorem after_filler {g : List Char} (hg : Filler g) (h : Tiles (u ++ g) ls x) :
    Tiles u ls (g ++ x) := by
  cases h with
  | filler hx => exact .filler (hg.append hx)
  | @token _ g' v text l ls hg' hl h =>
      rw [← List.append_assoc]
      exact .token (hg.append hg') (by rwa [← List.append_assoc]) (by rwa [← List.append_assoc])

theorem append (h : Tiles u ls x) (h' : Tiles (u ++ x) ls' y) : Tiles u (ls ++ ls') (x ++ y) := by
  induction h with
  | filler hg => exact h'.after_filler hg
  | token hg hl _ ih =>
      rw [List.cons_append, List.append_assoc, List.append_assoc]
      exact .token hg hl (ih (by simpa using h'))

/-- Tokens that take no text. -/
theorem marks (h : ∀ l ∈ ls, l.Over u []) : Tiles u ls [] := by
  induction ls with
  | nil => exact .filler .none
  | cons l ls ih =>
      obtain ⟨hl, hls⟩ := List.forall_mem_cons.1 h
      have hempty : Tiles u (l :: ls) ([] ++ ([] ++ [])) :=
        .token .none (by simpa using hl) (by simpa using ih hls)
      exact hempty

theorem single {g v : List Char} (hg : Filler g) (hl : l.Over (u ++ g) v) : Tiles u [l] (g ++ v) := by
  rw [← List.append_nil v]
  exact .token hg hl (.filler .none)

/-- Each token stands over a piece of the text. -/
theorem exists_over (h : Tiles u ls x) :
    ∀ l ∈ ls, ∃ u' v w, u ++ x = u ++ (u' ++ (v ++ w)) ∧ l.Over (u ++ u') v := by
  induction h with
  | filler => nofun
  | @token u g v text l ls _ hl _ ih =>
      refine List.forall_mem_cons.2 ⟨⟨g, v, text, rfl, hl⟩, fun l' hl' => ?_⟩
      obtain ⟨u', v', w, htext, hover⟩ := ih l' hl'
      exact ⟨g ++ (v ++ u'), v', w, by simpa using htext, by simpa using hover⟩

/-- The first token stands behind a filler. -/
theorem head (h : Tiles u (l :: ls) x) :
    ∃ g w, x = g ++ w ∧ Filler g ∧ l.start = bytes (u ++ g) := by
  cases h with
  | token hg hl _ => exact ⟨_, _, rfl, hg, hl.start⟩

theorem le_start (h : Tiles u ls x) : ∀ l ∈ ls, bytes u ≤ l.start := by
  intro l hl
  obtain ⟨u', _, _, -, hover⟩ := h.exists_over l hl
  rw [hover.start, bytes_append]
  exact Nat.le_add_right _ _

/-- No token starts before the one in front of it stops. -/
theorem pairwise (h : Tiles u ls x) : ls.Pairwise (·.stop ≤ ·.start) := by
  induction h with
  | filler => exact .nil
  | token _ hl h ih =>
      refine .cons (fun l' hl' => ?_) ih
      rw [hl.stop]
      exact h.le_start l' hl'

theorem split (h : Tiles u (ls ++ ls') x) :
    ∃ y z, x = y ++ z ∧ Tiles u ls y ∧ Tiles (u ++ y) ls' z := by
  induction ls generalizing u x with
  | nil => exact ⟨[], x, rfl, .filler .none, by rwa [List.append_nil]⟩
  | cons l ls ih =>
      rw [List.cons_append] at h
      cases h with
      | token hg hl h =>
          obtain ⟨y, z, rfl, hls, hls'⟩ := ih h
          exact ⟨_, z, by simp, .token hg hl hls, by simpa using hls'⟩

/-- The tokens stretch over a piece of the text, with every line feed that ends a line among them. -/
theorem spans (h : Tiles u ls x) (hne : ls ≠ []) :
    ∃ g text g', x = g ++ (text ++ g') ∧ Covers (bytes (u ++ g)) (bytes (u ++ g) + bytes text) ls ∧
      ∀ l ∈ ls, l.token = .newline → l.stop ≠ l.start → '\n' ∈ text := by
  induction h with
  | filler => exact absurd rfl hne
  | @token u g v text l ls hg hl h ih =>
      have hfirst : l.token = .newline → l.stop ≠ l.start → '\n' ∈ v := by
        intro hline hstop
        rw [hl.eq_newline hline hstop]
        exact List.mem_singleton.2 rfl
      rcases eq_or_ne ls [] with rfl | hls
      · refine ⟨g, v, text, rfl, ⟨by simp [hl.start], by simp [hl.stop, Nat.add_assoc]⟩, ?_⟩
        simpa using hfirst
      · obtain ⟨g₁, text₁, g₂, rfl, hcovers, hmem⟩ := ih hls
        refine ⟨g, v ++ (g₁ ++ text₁), g₂, by simp, ?_, ?_⟩
        · have hcons := hcovers.cons (l := l)
          rw [hl.start] at hcons
          simpa [Nat.add_assoc] using hcons
        · intro m hm hline hstop
          rcases List.mem_cons.1 hm with rfl | hm
          · exact List.mem_append_left _ (hfirst hline hstop)
          · exact List.mem_append_right _ (List.mem_append_right _ (hmem m hm hline hstop))

/-- There is nothing but filler between a token and the next one. -/
theorem isChain (h : Tiles u ls x) (w : List Char) :
    ls.IsChain fun l l' => Filler (slice (u ++ (x ++ w)) l.stop l'.start) := by
  induction h with
  | filler => exact .nil
  | @token u g v text l ls _ hl h ih =>
      have hchain : ls.IsChain fun l l' =>
          Filler (slice (u ++ (g ++ (v ++ text) ++ w)) l.stop l'.start) := by
        simpa using ih
      cases ls with
      | nil => exact .singleton _
      | cons l' ls =>
          obtain ⟨g', text', rfl, hg', hstart⟩ := h.head
          refine .cons_cons ?_ hchain
          have hslice := slice_append (u ++ g ++ v) g' (text' ++ w)
          rw [hl.stop, hstart, bytes_append (u ++ g ++ v) g']
          simp only [List.append_assoc] at hslice ⊢
          rwa [hslice]

end Tiles

/-! ## Turns -/

section

variable {s s' : Stage} {ms ls : List Lexeme} {u x : List Char}

theorem align_over {bl bl' : List Nat} {w : Nat} {cur : Cursor} (hcur : cur.Passed u)
    (h : align bl w cur = .ok (ms, bl')) :
    ∀ l ∈ ms, l.Over u [] ∧ l.token ≠ .newline := by
  intro l hl
  rcases align_marks h l hl with rfl | rfl
  all_goals exact ⟨hcur.lexeme (v := []) rfl fun _ => .inl rfl, nofun⟩

/-- A turn passes over the tokens that it finds, and over fillers. -/
theorem Turn.tiles (h : Turn s ms s') (hu : s.cur.Passed u) (hx : s.cur.rest = x ++ s'.cur.rest) :
    Tiles u ms x := by
  -- The text that is passed over is told by its length.
  have hpassed : ∀ (text : List Char) {cur : Cursor} {rest : List Char} {n : Nat}, text.length = n →
      cur.rest = text ++ rest → cur.rest = x ++ (cur.skip n).rest → x = text := by
    rintro text cur rest _ rfl hrest hx
    rw [Cursor.rest_skip_length hrest] at hx
    exact List.append_cancel_right (hx.symm.trans hrest)
  cases h with
  | @blank d bl cur m cs hrest hm =>
      obtain rfl := hpassed (m ++ ['\n']) (by simp) (by simpa using hrest) hx
      exact .filler ((Filler.of_margin hm).append .newline)
  | @comment d bl cur m text cs hrest hm htext =>
      obtain rfl := hpassed (m ++ '#' :: (text ++ ['\n'])) (by simp; omega)
        (by simpa using hrest) hx
      exact .filler ((Filler.of_margin hm).append (.comment htext (by rintro _ ⟨⟩; rfl) .newline))
  | @lastComment d bl cur m text hrest hm htext =>
      have hend : (cur.skip (m.length + text.length + 2)).rest = [] := by
        rw [Cursor.rest_skip, hrest, List.drop_eq_nil_iff, List.length_append, List.length_cons]
        omega
      obtain rfl : x = m ++ '#' :: text := by
        rw [hend, List.append_nil] at hx
        exact hx.symm.trans hrest
      exact .filler ((Filler.of_margin hm).append (.of_comment htext))
  | layout hrest hm hc halign =>
      obtain rfl := hpassed _ rfl hrest hx
      have hmarks := Tiles.marks fun l hl => (align_over (hu.skip hrest) halign l hl).1
      have htiles := hmarks.after_filler (Filler.of_margin hm)
      rwa [List.append_nil] at htiles
  | @newline bl cur g cs hrest hg =>
      obtain rfl := hpassed (g ++ ['\n']) (by simp) (by simpa using hrest) hx
      rw [hrest] at hg
      refine .single (.of_gap hg) ?_
      exact (hu.skip hrest).lexeme (v := ['\n']) (Cursor.rest_skip_length hrest)
        fun _ => .inr ⟨rfl, rfl⟩
  | @joined d bl cur g cs hrest hg hd =>
      obtain rfl := hpassed (g ++ ['\n']) (by simp) (by simpa using hrest) hx
      rw [hrest] at hg
      exact .filler ((Filler.of_gap hg).append .newline)
  | @token d d' bl cur g text cs c t hrest hg ht hd =>
      obtain rfl := hpassed (g ++ c :: text) (by simp) (by simpa using hrest) hx
      rw [hrest] at hg
      refine .single (.of_gap hg) ?_
      refine (hu.skip hrest).lexeme (v := c :: text) (Cursor.rest_skip_length hrest) fun hlayout => ?_
      rw [(munch_plain ht).2.1] at hlayout
      cases hlayout

/-- A turn that finds the end of a line passes over it. -/
theorem Turn.stop_of_newline (h : Turn s ms s') (hu : s.cur.Passed u) :
    ∀ l ∈ ms, l.token = .newline → l.stop = l.start + 1 := by
  intro l hl hline
  cases h with
  | blank | comment | lastComment | joined => cases hl
  | layout hrest hm hc halign => exact absurd hline (align_over (hu.skip hrest) halign l hl).2
  | newline hrest hg =>
      obtain rfl := List.mem_singleton.1 hl
      have hnewline := Cursor.rest_skip_length hrest
      rw [← List.singleton_append] at hnewline
      exact Cursor.offset_skip hnewline
  | token hrest hg ht hd =>
      obtain rfl := List.mem_singleton.1 hl
      obtain rfl : _ = Token.newline := hline
      cases (munch_plain ht).2.1

theorem Leads.tiles (h : Leads s ls s') (hu : s.cur.Passed u) (hx : s.cur.rest = x ++ s'.cur.rest) :
    Tiles u ls x ∧ ∀ l ∈ ls, l.token = .newline → l.stop = l.start + 1 := by
  induction h generalizing u x with
  | here =>
      obtain rfl : x = [] := List.append_left_eq_self.1 hx.symm
      exact ⟨.filler .none, nofun⟩
  | @turn s s₁ s' ms ls hturn hleads ih =>
      obtain ⟨text, htext, hcur⟩ := hturn.passes
      obtain ⟨y, hy, -⟩ := hleads.passes
      obtain rfl : x = text ++ y := by
        rw [htext, hy, ← List.append_assoc] at hx
        exact (List.append_cancel_right hx).symm
      obtain ⟨htiles, hlines⟩ := ih (hcur ▸ hu.skip htext) hy
      exact ⟨(hturn.tiles hu htext).append htiles,
        List.forall_mem_append.2 ⟨hturn.stop_of_newline hu, hlines⟩⟩

end

/-! ## Whole texts -/

theorem Stage.AtEnd.filler {s : Stage} (h : s.AtEnd) : Filler s.cur.rest := by
  obtain ⟨d, bl, fresh, cur⟩ := s
  cases fresh with
  | true => exact .of_margin h
  | false =>
      have hgap : gap (cur.rest ++ []) = cur.rest.length := by
        rw [List.append_nil]
        exact h
      exact .of_gap hgap

theorem Ending.over_of_mem {e : Ending} {u : List Char} (h : e.cur.Passed u) (last : Option Token) :
    ∀ l ∈ e.lexemes last, l.Over u [] := by
  intro l hl
  obtain ⟨mark, -, rfl⟩ := e.lexemes_marks last l hl
  exact h.lexeme (v := []) rfl fun _ => .inl rfl

/-- Behind the end of a line that closes a text there are only the ends of its blocks and its own. -/
theorem Ending.closed_of_newline {e : Ending} {last : Option Token} {before after : List Lexeme}
    {l : Lexeme} (h : e.lexemes last = before ++ l :: after) (hl : l.token = .newline) :
    ∀ l' ∈ after, l'.token = .dedent ∨ l'.token = .eof := by
  obtain ⟨line, hkinds, hline⟩ := e.kinds_lexemes last
  have hmarks : ∀ k ∈ List.replicate e.blocks.length Token.dedent ++ [.eof],
      k = .dedent ∨ k = .eof := by
    intro k hk
    rcases List.mem_append.1 hk with hk | hk
    · exact .inl (List.eq_of_mem_replicate hk)
    · exact .inr (List.mem_singleton.1 hk)
  have hnot : Token.newline ∉ List.replicate e.blocks.length Token.dedent ++ [.eof] :=
    fun hmem => by simpa using hmarks _ hmem
  rw [h, List.map_append, List.map_cons, hl, List.append_assoc] at hkinds
  rcases hline with ⟨rfl, -⟩ | rfl
  · rw [List.nil_append] at hkinds
    exact absurd (hkinds ▸ List.mem_append_right _ List.mem_cons_self) hnot
  · rw [List.singleton_append] at hkinds
    cases before with
    | nil =>
        obtain ⟨-, hafter⟩ := List.cons.inj hkinds
        exact fun l' hl' => hmarks _ (hafter ▸ List.mem_map_of_mem hl')
    | cons b before =>
        obtain ⟨-, hbefore⟩ := List.cons.inj hkinds
        exact absurd (hbefore ▸ List.mem_append_right _ List.mem_cons_self) hnot

/-- The tokens of a text and the fillers between them make it up. The end of a line that is found on the
way is a line feed. -/
theorem tiles_of_tokenize {source : List Char} {ls : List Lexeme} (h : tokenize source = .ok ls) :
    Tiles [] ls source ∧ ∃ found, ∃ e : Ending, ∃ last, ls = found ++ e.lexemes last ∧
      e.cur.Passed source ∧ ∀ l ∈ found, l.token = .newline → l.stop = l.start + 1 := by
  obtain ⟨found, s, hleads, hend, rfl⟩ := tokenize_eq_ok.1 h
  obtain ⟨x, hsource, hcur⟩ := hleads.passes
  change source = x ++ s.cur.rest at hsource
  obtain ⟨hfound, hlines⟩ := hleads.tiles (Cursor.passed_ofList source) hsource
  have hplace : s.cur.Passed x := hcur ▸ (Cursor.passed_ofList source).skip hsource
  have hpassed : s.ending.cur.Passed source := by
    have hskip := hplace.skip (List.append_nil _).symm
    rwa [← hsource] at hskip
  refine ⟨?_, found, s.ending, _, rfl, hpassed, hlines⟩
  have hmarks := Tiles.marks (Ending.over_of_mem hpassed (found.getLast?.map (·.token)))
  rw [hsource] at hmarks
  have htiles := hfound.append (hmarks.after_filler hend.filler)
  rwa [List.append_nil, ← hsource] at htiles

/-- Tokens before one that is no mark of the layout stretch over a piece of the text, with a line feed for
each end of a line among them. -/
theorem spans_of_tokenize {source : List Char} {before used after : List Lexeme} {b : Lexeme}
    (h : tokenize source = .ok (before ++ (used ++ b :: after))) (hb : b.token.isLayout = false)
    (hne : used ≠ []) :
    ∃ text, Spans source used text ∧ ∀ l ∈ used, l.token = .newline → '\n' ∈ text := by
  obtain ⟨htiles, found, e, last, hls, -, hlines⟩ := tiles_of_tokenize h
  -- The tokens before `b` are found, since those that close the text are all marks.
  have hfound : ∀ l ∈ used, l ∈ found := by
    have hclosing : b ∉ e.lexemes last := fun hmem => by
      rw [e.lexemes_layout last b hmem] at hb
      cases hb
    rw [← List.append_assoc] at hls
    rcases List.append_eq_append_iff.1 hls with ⟨more, rfl, -⟩ | ⟨more, -, heq⟩
    · exact fun l hl => List.mem_append_left _ (List.mem_append_right _ hl)
    · exact absurd (by rw [heq]; simp) hclosing
  obtain ⟨y, z, rfl, -, hrest⟩ := htiles.split
  obtain ⟨y', z', rfl, hused, -⟩ := hrest.split
  obtain ⟨g, text, g', rfl, hcovers, hmem⟩ := hused.spans hne
  refine ⟨text, ⟨y ++ g, g' ++ z', by simp, by simpa using hcovers⟩, fun l hl hline => ?_⟩
  refine hmem l hl hline ?_
  rw [hlines l (hfound l hl) hline]
  exact Nat.succ_ne_self _

/-- Tokens with spans and positions that are true to a text. -/
structure Tiled (source : List Char) (ls : List Lexeme) : Prop where
  /-- Each span starts and stops at characters of the text, and the line and the column of its start
  are told by what is before it. -/
  placed : ∀ l ∈ ls, ∃ u v w, source = u ++ (v ++ w) ∧ l.start = bytes u ∧ l.stop = bytes (u ++ v) ∧
    l.pos = .after u
  /-- No span is backwards or leaves the text. -/
  inside : ∀ l ∈ ls, l.start ≤ l.stop ∧ l.stop ≤ bytes source
  /-- The spans are in order and do not overlap. -/
  ordered : ls.Pairwise (·.stop ≤ ·.start)
  /-- The marks of blocks and of the end take no text. -/
  marks : ∀ l ∈ ls, l.token = .indent ∨ l.token = .dedent ∨ l.token = .eof → l.stop = l.start
  /-- The end of a line is a line feed, or it takes no text at the end of the last line. -/
  lineEnds : ∀ before l after, ls = before ++ l :: after → l.token = .newline →
    slice source l.start l.stop = ['\n'] ∨ l.start = bytes source ∧ l.stop = bytes source ∧
      ∀ l' ∈ after, l'.token = .dedent ∨ l'.token = .eof
  /-- There is nothing but filler before the first span and between two of them. -/
  first : ∀ l ∈ ls.head?, Filler (slice source 0 l.start)
  between : ls.IsChain fun l l' => Filler (slice source l.stop l'.start)
  /-- The last span stops where the text does. -/
  last : ∀ l ∈ ls.getLast?, l.stop = bytes source

/-- The tokens of a text tile it. -/
theorem tokenize_tiled {source : List Char} {ls : List Lexeme} (h : tokenize source = .ok ls) :
    Tiled source ls := by
  obtain ⟨htiles, found, e, last, hls, hpassed, hlines⟩ := tiles_of_tokenize h
  have hclosing := Ending.over_of_mem hpassed last
  have hplaced : ∀ l ∈ ls, ∃ u v w, source = u ++ (v ++ w) ∧ l.Over u v := htiles.exists_over
  refine ⟨fun l hl => ?_, fun l hl => ?_, htiles.pairwise, fun l hl hmark => ?_, ?_, ?_, ?_, ?_⟩
  · obtain ⟨u, v, w, htext, hover⟩ := hplaced l hl
    exact ⟨u, v, w, htext, hover.start, hover.stop, hover.pos⟩
  · obtain ⟨u, v, w, htext, hover⟩ := hplaced l hl
    refine ⟨hover.start_le, ?_⟩
    rw [hover.stop, htext, ← List.append_assoc, bytes_append (u ++ v)]
    exact Nat.le_add_right _ _
  · obtain ⟨u, v, w, -, hover⟩ := hplaced l hl
    refine hover.stop_of_mark ?_ ?_ <;> rcases hmark with hl | hl | hl <;> rw [hl] <;> first | rfl | nofun
  · intro before l after hsplit hline
    have hclosed : ∀ before', e.lexemes last = before' ++ l :: after →
        l.start = bytes source ∧ l.stop = bytes source ∧
          ∀ l' ∈ after, l'.token = .dedent ∨ l'.token = .eof := by
      intro before' heq
      have hover := hclosing l (heq ▸ List.mem_append_right _ List.mem_cons_self)
      exact ⟨hover.start, by rw [hover.stop, List.append_nil], Ending.closed_of_newline heq hline⟩
    rcases List.append_eq_append_iff.1 (hls.symm.trans hsplit) with
      ⟨more, -, heq⟩ | ⟨_ | ⟨l', more⟩, hfound, heq⟩
    · exact .inr (hclosed more heq)
    · exact .inr (hclosed [] heq.symm)
    · obtain rfl : l = l' := (List.cons.inj heq).1
      have hl : l ∈ found := hfound ▸ List.mem_append_right _ List.mem_cons_self
      obtain ⟨u, v, w, rfl, hover⟩ := hplaced l (hls ▸ List.mem_append_left _ hl)
      obtain rfl := hover.eq_newline hline (by rw [hlines l hl hline]; exact Nat.succ_ne_self _)
      rw [hover.start, hover.stop, bytes_append]
      exact .inl (slice_append u _ w)
  · intro l hl
    obtain ⟨ls, rfl⟩ := List.head?_eq_some_iff.1 hl
    obtain ⟨g, w, rfl, hg, hstart⟩ := htiles.head
    have hslice := slice_append [] g w
    rw [hstart]
    simp only [List.nil_append, bytes_nil, Nat.zero_add] at hslice ⊢
    rwa [hslice]
  · simpa using htiles.isChain []
  · intro l hl
    have heof : ls.getLast? = some (e.cur.lexeme 0 .eof) := by
      rw [hls, Ending.lexemes.eq_def, ← List.append_assoc]
      exact List.getLast?_concat
    obtain rfl := Option.some.inj (heof.symm.trans hl)
    exact hpassed.offset

/-- A comment and a string with letters of two bytes, and a block that the end of the text closes. -/
theorem tokenize_tiled_comment :
    ∃ ls, tokenize "a: # é\n 'ü'".toList = .ok ls ∧
      ls.map (fun l => (l.token.kind, l.start, l.stop)) =
        [("Ident", 0, 1), ("Colon", 1, 2), ("Newline", 7, 8), ("Indent", 9, 9), ("Str", 9, 13),
          ("Newline", 13, 13), ("Dedent", 13, 13), ("Eof", 13, 13)] ∧
      Tiled "a: # é\n 'ü'".toList ls := by
  have h : tokenize "a: # é\n 'ü'".toList = .ok
      [⟨.ident "a", ⟨1, 1⟩, 0, 1⟩, ⟨.colon, ⟨1, 2⟩, 1, 2⟩, ⟨.newline, ⟨1, 7⟩, 7, 8⟩,
        ⟨.indent, ⟨2, 2⟩, 9, 9⟩, ⟨.str "ü", ⟨2, 2⟩, 9, 13⟩, ⟨.newline, ⟨2, 5⟩, 13, 13⟩,
        ⟨.dedent, ⟨2, 5⟩, 13, 13⟩, ⟨.eof, ⟨2, 5⟩, 13, 13⟩] := by
    cbv
  exact ⟨_, h, rfl, tokenize_tiled h⟩

end LiveUI.Source
