import LiveUI.Proofs.Markup.RoundTrip
import LiveUI.Proofs.Markup.Unseen
import LiveUI.Proofs.Source.SilentLines

/-! # Comments on lines of their own

Blank lines and comments on lines of their own say nothing. A text with them has the same tokens as
without, and is read as the same template. -/

namespace LiveUI.Markup

open LiveUI.Source LiveUI.Source.Reader

theorem Module.parse_eq (source : List Char) :
    Module.parse (.ofList source) = (tokenize source).bind fun ls =>
      (readAll (.ofLexemes source ls)).map fun p => ⟨p.1⟩ := by
  have hrun : ∀ text : String, Module.parse text = (tokenize text.toList).bind fun ls =>
      (readAll (.ofLexemes text.toList ls)).bind fun p => .ok ⟨p.1⟩ := fun _ => rfl
  rw [hrun, String.toList_ofList]
  refine congrArg _ (funext fun ls => ?_)
  cases readAll (.ofLexemes source ls) <;> rfl

theorem Module.parse_ofList {source : List Char} {ls : List Lexeme}
    (h : tokenize source = .ok ls) :
    Module.parse (.ofList source) = (readAll (.ofLexemes source ls)).map fun p => ⟨p.1⟩ := by
  rw [parse_eq, h]
  rfl

theorem Module.parse_error {source : List Char} {e : SyntaxError} (h : tokenize source = .error e) :
    Module.parse (.ofList source) = .error e := by
  rw [parse_eq, h]
  rfl

/-- Two texts whose tokens are alike are read as the same template, or refused for the same cause. -/
theorem Module.parse_of_alike {source source' : List Char} {ls ls' : List Lexeme}
    (hls : tokenize source = .ok ls) (hls' : tokenize source' = .ok ls')
    (h : (Stream.ofLexemes source ls).Alike (.ofLexemes source' ls')) :
    (∀ m, Module.parse (.ofList source) = .ok m →
      ∃ m', Module.parse (.ofList source') = .ok m' ∧ m'.unplaced = m.unplaced) ∧
    ∀ e, Module.parse (.ofList source) = .error e →
      ∃ e', Module.parse (.ofList source') = .error e' ∧ e'.cause = e.cause := by
  have hread := concur_readAll h
  have hparse := Module.parse_ofList hls
  have hparse' := Module.parse_ofList hls'
  rw [Concur] at hread
  generalize readAll (.ofLexemes source ls) = x at hread hparse
  generalize readAll (.ofLexemes source' ls') = y at hread hparse'
  rw [hparse, hparse']
  cases hread with
  | @ok items items' _ _ _ hitems =>
      refine ⟨fun m hm => ⟨⟨items'⟩, rfl, ?_⟩, fun e he => ?_⟩
      · rw [Except.map, Except.ok.injEq] at hm
        rw [← hm, Module.unplaced, Module.unplaced, hitems]
      · rw [Except.map] at he
        cases he
  | @error e e' hcause =>
      refine ⟨fun m hm => ?_, fun e₁ he₁ => ⟨e', rfl, ?_⟩⟩
      · rw [Except.map] at hm
        cases hm
      · rw [Except.map, Except.error.injEq] at he₁
        rw [← he₁, hcause]

/-- **Blank lines and comments are invisible.** Put in where a logical line starts, they change neither the
tokens of a text nor the template that is read from it; a text that is refused is refused for the same
cause. -/
theorem Module.parse_insert {pre post lines : List Char} (hstart : StartsLine pre post)
    (hlines : Silent lines) :
    ((tokenize (pre ++ (lines ++ post))).map (·.map (·.token))).mapError (·.cause) =
        ((tokenize (pre ++ post)).map (·.map (·.token))).mapError (·.cause) ∧
      (∀ m, Module.parse (.ofList (pre ++ post)) = .ok m →
        ∃ m', Module.parse (.ofList (pre ++ (lines ++ post))) = .ok m' ∧ (m' == m) = true ∧
          m'.unplaced = m.unplaced) ∧
      ∀ e, Module.parse (.ofList (pre ++ post)) = .error e →
        ∃ e', Module.parse (.ofList (pre ++ (lines ++ post))) = .error e' ∧ e'.cause = e.cause := by
  obtain ⟨found, hlast, hfound, r, hbehind, htokens, htokens'⟩ := hstart.insert hlines
  cases r with
  | error e =>
      refine ⟨by rw [htokens, htokens']; rfl, ?_⟩
      rw [Module.parse_error htokens, Module.parse_error htokens']
      refine ⟨nofun, fun e' he' => ⟨_, rfl, ?_⟩⟩
      obtain rfl := Except.error.inj he'
      rfl
  | ok ls =>
      have halike : (Stream.ofLexemes (pre ++ post) (found ++ ls)).Alike
          (.ofLexemes (pre ++ (lines ++ post))
            (found ++ ls.map (·.moved (bytes lines) (lines.count '\n')))) :=
        Stream.Alike.insert hlast hfound (hbehind ls rfl)
      obtain ⟨hok, herror⟩ := Module.parse_of_alike htokens htokens' halike
      refine ⟨?_, fun m hm => ?_, herror⟩
      · rw [htokens, htokens']
        exact congrArg Except.ok halike.kinds.symm
      · obtain ⟨m', hm', hunplaced⟩ := hok m hm
        refine ⟨m', hm', ?_, hunplaced⟩
        rw [← Module.beq_unplaced, hunplaced, Module.beq_unplaced]
        exact (Module.written_of_parse hm).beq_self

/-- A comment and an empty line between the header of a construct and its block. -/
theorem Module.parse_insert_block :
    StartsLine "W:\n".toList " v = 1\n".toList ∧ Silent "   # deep\n\n".toList ∧
      (∃ m, Module.parse (.ofList ("W:\n".toList ++ " v = 1\n".toList)) = .ok m) ∧
      ∀ m, Module.parse (.ofList ("W:\n".toList ++ " v = 1\n".toList)) = .ok m →
        ∃ m', Module.parse (.ofList ("W:\n".toList ++ ("   # deep\n\n".toList ++
          " v = 1\n".toList))) = .ok m' ∧ (m' == m) = true ∧ m'.unplaced = m.unplaced := by
  have hstart : StartsLine "W:\n".toList " v = 1\n".toList := by
    have hheader : Leads (.start ("W:\n".toList ++ " v = 1\n".toList)) _ _ :=
      .turn (@Turn.layout 0 [] [] _ [] _ 'W' [] rfl (by simp) rfl rfl) <|
        .turn (@Turn.token 0 0 [] _ [] [] _ 'W' (.ident "W") rfl rfl (by cbv) rfl) <|
        .turn (@Turn.token 0 0 [] _ [] [] _ ':' .colon rfl rfl (by cbv) rfl) <|
        .turn (@Turn.newline [] _ [] _ rfl rfl) .here
    exact ⟨EndsLine.line "W:".toList, _, _, hheader, rfl, rfl⟩
  have hlines : Silent "   # deep\n\n".toList :=
    @Silent.comment [' ', ' ', ' '] [' ', 'd', 'e', 'e', 'p'] _ (by simp [isMargin]) (by decide)
      (@Silent.blank [] _ (by simp) .none)
  have hok : (Module.parse (.ofList ("W:\n".toList ++ " v = 1\n".toList))).isOk = true := by cbv
  refine ⟨hstart, hlines, ?_, (Module.parse_insert hstart hlines).2.1⟩
  cases hm : Module.parse (.ofList ("W:\n".toList ++ " v = 1\n".toList)) with
  | error e => rw [hm] at hok; cases hok
  | ok m => exact ⟨m, rfl⟩

end LiveUI.Markup
