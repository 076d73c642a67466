import Mathlib
import LiveUI.Source.Stream

/-! # Places in a text

A cursor stands where it has come to by skipping characters, and counts their bytes. So the text
between the start of one token and the stop of a later one is what the cursor has passed over. -/

namespace LiveUI.Source

def bytes (cs : List Char) : Nat :=
  (cs.map Char.utf8Size).sum

@[simp]
theorem bytes_nil : bytes [] = 0 :=
  rfl

@[simp]
theorem bytes_cons (c : Char) (cs : List Char) : bytes (c :: cs) = c.utf8Size + bytes cs :=
  rfl

@[simp]
theorem bytes_append (cs cs' : List Char) : bytes (cs ++ cs') = bytes cs + bytes cs' := by
  simp [bytes]

theorem dropBytes_add (before rest : List Char) (n : Nat) :
    dropBytes (bytes before + n) (before ++ rest) = dropBytes n rest := by
  induction before with
  | nil => rw [bytes_nil, Nat.zero_add, List.nil_append]
  | cons c before ih =>
      have hpos := c.utf8Size_pos
      rw [List.cons_append, dropBytes, if_neg (by rw [bytes_cons]; omega), bytes_cons,
        show c.utf8Size + bytes before + n - c.utf8Size = bytes before + n by omega, ih]

theorem dropBytes_append (before rest : List Char) :
    dropBytes (bytes before) (before ++ rest) = rest := by
  rw [← Nat.add_zero (bytes before), dropBytes_add]
  cases rest <;> rfl

theorem takeBytes_append_of_le {text : List Char} (rest : List Char) {n : Nat} (h : n ≤ bytes text) :
    takeBytes n (text ++ rest) = takeBytes n text := by
  induction text generalizing n with
  | nil =>
      obtain rfl := Nat.le_zero.1 h
      cases rest <;> rfl
  | cons c text ih =>
      rw [bytes_cons] at h
      rw [List.cons_append, takeBytes, takeBytes, ih (by omega)]

theorem takeBytes_bytes (text : List Char) : takeBytes (bytes text) text = text := by
  induction text with
  | nil => rfl
  | cons c text ih =>
      have hpos := c.utf8Size_pos
      rw [takeBytes, if_neg (by rw [bytes_cons]; omega), bytes_cons, Nat.add_sub_cancel_left, ih]

/-- A piece of a text, whatever is before the text. -/
theorem slice_add (before rest : List Char) (m n : Nat) :
    slice (before ++ rest) (bytes before + m) (bytes before + n) = slice rest m n := by
  rw [slice, dropBytes_add, Nat.add_sub_add_left, slice]

/-- A piece of a text, whatever is behind the text. -/
theorem slice_append_of_le {u text : List Char} (rest : List Char) {stop : Nat}
    (h : stop ≤ bytes (u ++ text)) :
    slice (u ++ text ++ rest) (bytes u) stop = slice (u ++ text) (bytes u) stop := by
  rw [bytes_append] at h
  rw [slice, slice, List.append_assoc, dropBytes_append, dropBytes_append,
    takeBytes_append_of_le rest (by omega)]

theorem slice_append (before text rest : List Char) :
    slice (before ++ (text ++ rest)) (bytes before) (bytes before + bytes text) = text := by
  rw [slice, dropBytes_append, Nat.add_sub_cancel_left, takeBytes_append_of_le rest (Nat.le_refl _),
    takeBytes_bytes]

namespace Cursor

/-- The cursor stands in a text. -/
def In (cur : Cursor) (source : List Char) : Prop :=
  ∃ before, source = before ++ cur.rest ∧ cur.offset = bytes before

theorem in_ofList (source : List Char) : (ofList source).In source :=
  ⟨[], rfl, rfl⟩

theorem skip_add (m n : Nat) (cur : Cursor) : cur.skip (m + n) = (cur.skip m).skip n := by
  induction m generalizing cur with
  | zero => rw [Nat.zero_add, skip]
  | succ m ih =>
      obtain ⟨rest, offset, pos⟩ := cur
      cases rest with
      | nil =>
          have hend : ∀ n, skip n ⟨[], offset, pos⟩ = ⟨[], offset, pos⟩ := by
            intro n
            cases n <;> rfl
          rw [hend, hend, hend]
      | cons c cs =>
          rw [Nat.add_right_comm]
          exact ih _

theorem offset_skip {cur : Cursor} {text rest : List Char} (h : cur.rest = text ++ rest) :
    (cur.skip text.length).offset = cur.offset + bytes text := by
  induction text generalizing cur with
  | nil => rfl
  | cons c text ih =>
      obtain ⟨_, offset, pos⟩ := cur
      subst h
      change (skip text.length ⟨text ++ rest, offset + c.utf8Size, advance pos c⟩).offset = _
      rw [ih rfl, bytes_cons, Nat.add_assoc]

theorem rest_skip_length {cur : Cursor} {text rest : List Char} (h : cur.rest = text ++ rest) :
    (cur.skip text.length).rest = rest := by
  rw [rest_skip, h, List.drop_left]

theorem In.skip {cur : Cursor} {source text rest : List Char} (h : cur.In source)
    (hrest : cur.rest = text ++ rest) : (cur.skip text.length).In source := by
  obtain ⟨before, hsource, hoffset⟩ := h
  refine ⟨before ++ text, ?_, ?_⟩
  · rw [rest_skip_length hrest, hsource, hrest, List.append_assoc]
  · rw [offset_skip hrest, hoffset, bytes_append]

/-- The text that a cursor passes over is the piece of the source between its two places. -/
theorem In.slice {cur : Cursor} {source text rest : List Char} (h : cur.In source)
    (hrest : cur.rest = text ++ rest) :
    slice source cur.offset (cur.skip text.length).offset = text := by
  obtain ⟨before, hsource, hoffset⟩ := h
  rw [offset_skip hrest, hsource, hrest, hoffset, slice_append]

theorem In.skip_any {cur : Cursor} {source : List Char} (h : cur.In source) (n : Nat) :
    (cur.skip n).In source := by
  induction n generalizing cur with
  | zero => exact h
  | succ n ih =>
      cases hrest : cur.rest with
      | nil =>
          rw [Cursor.skip]
          simpa [hrest] using h
      | cons c cs =>
          have hnext : (cur.skip [c].length).In source := h.skip hrest
          have := ih hnext
          rwa [← skip_add, Nat.add_comm] at this

end Cursor

/-- The first of the tokens starts at one place and the last one stops at another. -/
def Covers (start stop : Nat) (ls : List Lexeme) : Prop :=
  ls.head?.map (·.start) = some start ∧ ls.getLast?.map (·.stop) = some stop

theorem Covers.ne_nil {start stop : Nat} {ls : List Lexeme} (h : Covers start stop ls) :
    ls ≠ [] := by
  rintro rfl
  cases h.1

theorem covers_lexeme {cur : Cursor} {text rest : List Char} (h : cur.rest = text ++ rest)
    (t : Token) : Covers cur.offset (cur.offset + bytes text) [cur.lexeme text.length t] := by
  refine ⟨rfl, ?_⟩
  simp [Cursor.lexeme, Cursor.offset_skip h]

theorem Covers.cons {l : Lexeme} {start stop : Nat} {ls : List Lexeme} (h : Covers start stop ls) :
    Covers l.start stop (l :: ls) := by
  refine ⟨rfl, ?_⟩
  rw [List.getLast?_cons_of_ne_nil h.ne_nil]
  exact h.2

theorem Covers.append {start middle stop : Nat} {ls ls' : List Lexeme} (h : Covers start middle ls)
    (h' : Covers middle stop ls') : Covers start stop (ls ++ ls') := by
  obtain ⟨l, ls, rfl⟩ := List.exists_cons_of_ne_nil h.ne_nil
  refine ⟨h.1, ?_⟩
  obtain ⟨l', hl'⟩ : ∃ l', ls'.getLast? = some l' :=
    Option.isSome_iff_exists.1 (by simpa using h'.ne_nil)
  rw [List.getLast?_append, hl', Option.some_or, ← hl']
  exact h'.2

/-- The tokens stretch over a piece of a text. -/
def Spans (source : List Char) (ls : List Lexeme) (text : List Char) : Prop :=
  ∃ before rest, source = before ++ (text ++ rest) ∧
    Covers (bytes before) (bytes before + bytes text) ls

theorem Spans.ne_nil {source text : List Char} {ls : List Lexeme} (h : Spans source ls text) :
    ls ≠ [] := by
  obtain ⟨_, _, -, hcovers⟩ := h
  exact hcovers.ne_nil

theorem Covers.spans {source text rest : List Char} {cur : Cursor} {ls : List Lexeme}
    (h : Covers cur.offset (cur.offset + bytes text) ls) (hin : cur.In source)
    (hrest : cur.rest = text ++ rest) : Spans source ls text := by
  obtain ⟨before, hsource, hoffset⟩ := hin
  rw [hoffset] at h
  exact ⟨before, rest, by rw [hsource, hrest], h⟩

namespace Stream

/-- Without its first `n` tokens. -/
def skip : Nat → Stream → Stream
  | 0, s => s
  | n + 1, s => skip n s.tail

@[simp]
theorem rest_skip (n : Nat) (s : Stream) : (s.skip n).rest = s.rest.drop n := by
  induction n generalizing s with
  | zero => rfl
  | succ n ih => rw [skip, ih, rest_tail, List.drop_tail]

theorem skip_add (m n : Nat) (s : Stream) : s.skip (m + n) = (s.skip m).skip n := by
  induction m generalizing s with
  | zero => rw [Nat.zero_add, skip]
  | succ m ih => rw [Nat.add_right_comm, skip, ih, skip]

@[simp]
theorem source_tail (s : Stream) : s.tail.source = s.source := by
  unfold tail
  split <;> rfl

@[simp]
theorem source_skip (n : Nat) (s : Stream) : (s.skip n).source = s.source := by
  induction n generalizing s with
  | zero => rfl
  | succ n ih => rw [skip, ih, source_tail]

theorem last_tail {s : Stream} {l : Lexeme} {ls : List Lexeme} (h : s.rest = l :: ls) :
    s.tail.last = some l := by
  unfold tail
  split
  next hnil => simp [h] at hnil
  next hcons =>
    rw [h] at hcons
    cases hcons
    rfl

theorem last_skip {s : Stream} {ls rest : List Lexeme} (h : s.rest = ls ++ rest) (hne : ls ≠ []) :
    (s.skip ls.length).last = ls.getLast? := by
  induction ls generalizing s with
  | nil => exact absurd rfl hne
  | cons l ls ih =>
      cases ls with
      | nil => exact last_tail h
      | cons l' ls =>
          rw [List.getLast?_cons_cons]
          exact ih (by rw [rest_tail, h]; rfl) (by simp)

/-- The text of the tokens that a reader has taken. -/
theorem textSince_skip {s : Stream} {ls rest : List Lexeme} {text : List Char}
    (h : s.rest = ls ++ rest) (hspans : Spans s.source ls text) :
    (s.skip ls.length).textSince s.start = String.ofList text := by
  have hne := hspans.ne_nil
  obtain ⟨before, after, hsource, hhead, hlast⟩ := hspans
  have hstart : s.start = bytes before := by
    cases ls with
    | nil => exact absurd rfl hne
    | cons l ls =>
        simp only [start, h, List.cons_append]
        simpa using hhead
  have hstop : (s.skip ls.length).stop = bytes before + bytes text := by
    rw [stop, last_skip h hne]
    cases hl : ls.getLast? with
    | none => simp [hl] at hlast
    | some l => simpa [hl] using hlast
  rw [textSince, source_skip, hstart, hstop, hsource, slice_append]

end Stream

end LiveUI.Source
