import LiveUI.Proofs.Markup.Pieces
import LiveUI.Proofs.Source.Streams

/-! # The binding operator of a line

The line of an assignment has a binding operator outside all brackets. The header of a construct has
none before its end or its colon: the equals signs of its keywords and captures stand in brackets. -/

namespace LiveUI

open Source Source.Reader

/-- The tokens that a search for a binding operator passes by. -/
def Source.Token.isPassed : Token → Bool
  | .equal | .colonEqual | .lessLess | .greaterGreater | .colon | .newline | .eof => false
  | _ => true

theorem Source.Token.isPassed_of_isInner {k : Token} (h : k.isInner = true) : k.isPassed = true := by
  cases k <;> first | rfl | cases h

theorem Source.Token.of_isPassed {k : Token} (h : k.isPassed = true) :
    k.isBinding = false ∧ k ≠ .eof := by
  constructor
  · cases k <;> first | rfl | cases h
  · rintro rfl
    cases h

theorem Source.Token.isPassed_ofWord (word : String) : (Token.ofWord word).isPassed = true := by
  unfold Token.ofWord
  split <;> rfl

namespace Markup

theorem hasBinding_cons {i d : Nat} {l : Lexeme} {ls : List Lexeme}
    (hl : l.token.isPassed = true) (hd : depthAfter i l.token = some d) :
    hasBinding i (l :: ls) = hasBinding d ls := by
  rw [hasBinding]
  split
  next heq => rw [heq] at hd; cases hd; rfl
  next heq => rw [heq] at hd; cases hd; rfl
  next heq => rw [heq, depthAfter] at hd; split at hd <;> cases hd; rfl
  next heq => rw [heq, depthAfter] at hd; split at hd <;> cases hd; rfl
  next heq => rw [heq] at hl; cases hl
  next heq => rw [heq] at hl; cases hl
  next heq => rw [heq] at hl; cases hl
  next =>
    have hbinding : l.token.isBinding = false := by
      cases hk : l.token <;> first | rfl | (rw [hk] at hl; cases hl)
    have hsame : d = i := by
      cases hk : l.token <;> rw [hk] at hd <;> first | (cases hd; rfl) | simp_all
    rw [hbinding, if_neg (by simp), hsame]

/-- Tokens that are passed by lead from one bracket depth to another. -/
theorem hasBinding_append {i j : Nat} {ls rest : List Lexeme}
    (hls : ∀ k ∈ ls.map (·.token), k.isPassed = true)
    (hdepth : depthBehind i (ls.map (·.token)) = some j) :
    hasBinding i (ls ++ rest) = hasBinding j rest := by
  induction ls generalizing i with
  | nil =>
      cases hdepth
      rfl
  | cons l ls ih =>
      rw [List.map_cons, List.forall_mem_cons] at hls
      rw [List.map_cons, depthBehind, Option.bind_eq_some_iff] at hdepth
      obtain ⟨d, hd, hdepth⟩ := hdepth
      rw [← ih hls.2 hdepth, List.cons_append, hasBinding_cons hls.1 hd]

/-- The tokens before the next binding operator are taken. -/
theorem skipToBinding_eq {t : Stream} {used rest : List Lexeme} {l : Lexeme} {n : Nat}
    (hrest : t.rest = used ++ l :: rest)
    (hused : ∀ k ∈ used.map (·.token), k.isBinding = false ∧ k ≠ .eof) (hl : l.token.isBinding = true)
    (hn : used.length ≤ n) : skipToBinding n t = .ok ((), t.skip used.length) := by
  induction used generalizing t n with
  | nil =>
      cases n with
      | zero => rfl
      | succ n =>
          rw [skipToBinding, run_peek, Stream.peek, hrest]
          simp [hl]
          rfl
  | cons m used ih =>
      obtain ⟨n, rfl⟩ : ∃ m, n = m + 1 := ⟨n - 1, by simp at hn; omega⟩
      rw [List.map_cons, List.forall_mem_cons] at hused
      have hm : (m.token.isBinding || m.token == .eof) = false := by
        rw [hused.1.1, Bool.false_or, Bool.eq_false_iff]
        exact mt (Token.beq_iff rfl).1 hused.1.2
      rw [skipToBinding, run_peek, Stream.peek, hrest]
      simp only [List.cons_append, hm, Bool.false_eq_true, if_false]
      change (Reader.next >>= _) t = _
      rw [run_next]
      exact ih (by rw [Stream.rest_tail, hrest]; rfl) hused.2 (by simpa using hn)

/-- A target is read from the text of the tokens before the next binding operator. -/
theorem run_readTarget {t : Stream} {used rest : List Lexeme} {l : Lexeme} {text : List Char}
    (hrest : t.rest = used ++ l :: rest) (hspans : Spans t.source used text)
    (hused : ∀ k ∈ used.map (·.token), k.isBinding = false ∧ k ≠ .eof)
    (hl : l.token.isBinding = true) :
    readTarget t = match Target.parse (String.ofList text) with
      | .ok target => .ok (target, t.skip used.length)
      | .error e => .error { e with pos := t.here } := by
  have hskip : skipToBinding t.count t = .ok ((), t.skip used.length) := by
    refine skipToBinding_eq hrest hused hl ?_
    rw [t.count_eq, hrest, List.length_append]
    exact Nat.le_add_right _ _
  rw [readTarget, run_get, bind_ok hskip, run_get, Stream.textSince_skip hrest hspans]
  cases Target.parse (String.ofList text) <;> rfl

/-- Where a binding operator is found, one stands on the line. -/
theorem exists_binding {i : Nat} {ls : List Lexeme} (h : hasBinding i ls = true) :
    ∃ used b rest, ls = used ++ b :: rest ∧ b.token.isBinding = true ∧
      ∀ l ∈ used, l.token.isBinding = false ∧ l.token ≠ .eof ∧ l.token ≠ .newline := by
  induction ls generalizing i with
  | nil => cases h
  | cons l ls ih =>
      cases hbinding : l.token.isBinding with
      | true => exact ⟨[], l, ls, rfl, hbinding, by simp⟩
      | false =>
          have hline : l.token ≠ .eof ∧ l.token ≠ .newline := by
            constructor <;>
              · intro hl
                rw [hasBinding, hl] at h
                cases h
          obtain ⟨j, hj⟩ : ∃ j, hasBinding j ls = true := by
            rw [hasBinding] at h
            split at h
            case h_5 | h_6 => cases h
            case h_7 => split at h <;> first | cases h | exact ⟨_, h⟩
            case h_8 => exact ⟨i, by simpa [hbinding] using h⟩
            all_goals exact ⟨_, h⟩
          obtain ⟨used, b, rest, rfl, hb, hused⟩ := ih hj
          exact ⟨l :: used, b, rest, rfl, hb, List.forall_mem_cons.2 ⟨⟨hbinding, hline⟩, hused⟩⟩

/-! ## Targets -/

namespace Target

theorem isPassed_tokens (t : Target) : ∀ k ∈ t.tokens, k.isPassed = true := by
  have hword := Token.isPassed_ofWord
  cases t with
  | own attr => simpa [tokens] using hword attr
  | member name attr =>
      rw [tokens, List.forall_mem_cons, List.forall_mem_cons, List.forall_mem_singleton]
      exact ⟨hword name, rfl, hword attr⟩
  | element name i attr =>
      simp only [tokens, List.forall_mem_cons, List.forall_mem_append]
      refine ⟨hword name, rfl, ?_, rfl, rfl, rfl, hword attr, by simp⟩
      split <;> simp [Token.isPassed]

theorem depthBehind_tokens (t : Target) : depthBehind 0 t.tokens = some 0 := by
  cases t with
  | own attr =>
      rw [tokens, depthBehind, depthAfter_ofWord]
      rfl
  | member name attr =>
      rw [tokens, depthBehind, depthAfter_ofWord]
      change depthBehind 0 [Token.ofWord attr] = some 0
      rw [depthBehind, depthAfter_ofWord]
      rfl
  | element name i attr => simpa [tokens] using depthBehind_element name attr (i.toInt < 0) _

end Target

/-! ## Headers -/

/-- Behind the pieces a search for a binding operator goes on at bracket depth `j`. -/
def Passes (i : Nat) (ps : List Piece) (j : Nat) : Prop :=
  ∀ source ls rest, Lays source ls ps → hasBinding i (ls ++ rest) = hasBinding j rest

namespace Passes

variable {i j d : Nat} {ps ps' : List Piece}

theorem nil : Passes i [] i := by
  rintro _ _ _ ⟨⟩
  rfl

theorem append (h : Passes i ps d) (h' : Passes d ps' j) : Passes i (ps ++ ps') j := by
  intro source ls rest hlays
  obtain ⟨ls₁, ls₂, rfl, h₁, h₂⟩ := hlays.split
  rw [List.append_assoc, h source ls₁ _ h₁, h' source ls₂ _ h₂]

theorem cons {k : Token} (hk : k.isPassed = true) (hd : depthAfter i k = some d)
    (h : Passes d ps j) : Passes i (.token k :: ps) j := by
  intro source ls rest hlays
  obtain ⟨l, ls, rfl, rfl, hbehind⟩ := hlays.of_token
  rw [List.cons_append, hasBinding_cons hk hd, h source ls rest hbehind]

/-- An equals sign in brackets. -/
theorem equal (h : Passes (i + 1) ps j) : Passes (i + 1) (.token .equal :: ps) j := by
  intro source ls rest hlays
  obtain ⟨l, ls, rfl, hl, hlays⟩ := hlays.of_token
  rw [List.cons_append, hasBinding, hl, ← h source ls rest hlays]
  rfl

theorem expression (e : Expression) : Passes i [.expression e] i := by
  intro source ls rest hlays
  obtain ⟨used, ls, rfl, -, hderives, hlays⟩ := hlays.of_expression
  cases hlays
  rw [List.append_nil]
  exact hasBinding_append
    (fun k hk => Token.isPassed_of_isInner (hderives.balanced.inner k hk)) (hderives.balanced.depth i)

theorem commas {pss : List (List Piece)} (h : ∀ ps ∈ pss, Passes i ps i) :
    Passes i (Markup.commas pss) i := by
  induction pss with
  | nil => exact nil
  | cons ps pss ih =>
      obtain ⟨hps, hpss⟩ := List.forall_mem_cons.1 h
      rw [commas_cons]
      split
      next => exact hps.append nil
      next => exact hps.append (.cons rfl rfl (ih hpss))

theorem arguments (arguments : List Argument) : Passes 0 (Construct.argumentPieces arguments) 0 := by
  rw [Construct.argumentPieces]
  split
  next => exact nil
  next =>
    refine .cons (d := 1) rfl rfl ((commas ?_).append (.cons (d := 0) rfl rfl nil))
    simp only [List.forall_mem_map]
    intro a _
    cases a with
    | positional value => exact expression value
    | keyword name value => exact .cons (d := 1) rfl rfl (equal (expression value))

theorem unpack (names : List String) : Passes 0 (Construct.unpackPieces names) 0 := by
  rw [Construct.unpackPieces]
  split
  next => exact nil
  next =>
    refine .cons (d := 0) rfl rfl (commas ?_)
    simp only [List.forall_mem_map]
    exact fun name _ => .cons rfl rfl nil

theorem captures (captures : List Capture) : Passes 0 (Construct.capturePieces captures) 0 := by
  rw [Construct.capturePieces]
  split
  next => exact nil
  next =>
    refine .cons (d := 1) rfl rfl ((commas ?_).append (.cons (d := 0) rfl rfl nil))
    simp only [List.forall_mem_map]
    exact fun p _ => .cons (d := 1) rfl rfl (equal (.cons rfl rfl nil))

theorem header (c : Construct) : Passes 0 c.headerPieces 0 :=
  .cons rfl rfl ((arguments _).append ((unpack _).append (captures _)))

end Passes

variable {source : List Char} {ls : List Lexeme} {ps : List Piece}

theorem Lays.hasBinding_assignment {a : Assignment} (h : Lays source ls (a.pieces ++ ps)) :
    hasBinding 0 ls = true := by
  obtain ⟨used, ls, rfl, -, htokens, -, h⟩ := h.of_target
  obtain ⟨l, ls, rfl, hl, -⟩ := h.of_token
  rw [hasBinding_append (htokens ▸ a.target.isPassed_tokens)
    (by rw [htokens, a.target.depthBehind_tokens]), hasBinding, hl]
  cases a.op <;> rfl

theorem Lays.hasBinding_construct {c : Construct} (h : Lays source ls (c.pieces ++ ps)) :
    hasBinding 0 ls = false := by
  rw [Construct.pieces_eq, List.append_assoc] at h
  obtain ⟨ls₁, ls₂, rfl, h₁, h₂⟩ := h.split
  rw [Passes.header c source ls₁ ls₂ h₁]
  rw [Construct.blockPieces] at h₂
  split at h₂
  · obtain ⟨l, ls, rfl, hl, -⟩ := h₂.of_token
    rw [hasBinding, hl]
  · obtain ⟨l, ls, rfl, hl, -⟩ := h₂.of_token
    rw [hasBinding, hl]
    rfl

end Markup

end LiveUI
