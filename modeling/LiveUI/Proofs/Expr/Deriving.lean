import LiveUI.Proofs.Expr.Derivation
import LiveUI.Proofs.Source.Streams

/-! # What is read can be derived

Whenever a reader of expressions succeeds, the tokens that it has taken are derived for its result. -/

namespace LiveUI.Source.Reader

/-- Whenever `r` succeeds at `s`, its result and the tokens that it takes have the property `P`. -/
def Takes {α : Type} (s : Stream) (r : Reader α) (P : α → List Token → Prop) : Prop :=
  ∀ a s', r s = .ok (a, s') → ∃ ks, s.kinds = ks ++ s'.kinds ∧ s' = s.skip ks.length ∧ P a ks

namespace Takes

variable {α β : Type} {s : Stream} {r : Reader α} {f : α → Reader β} {P : α → List Token → Prop}
  {Q : β → List Token → Prop}

theorem pure {a : α} (h : P a []) : Takes s (Pure.pure a) P := by
  rintro _ _ ⟨⟩
  exact ⟨[], rfl, rfl, h⟩

theorem failHere {cause : Malformed} : Takes s (Reader.failHere cause) P := by
  rintro _ _ ⟨⟩

theorem failBehind {cause : Malformed} : Takes s (Reader.failBehind cause) P := by
  rintro _ _ ⟨⟩

theorem bind (h : Takes s r P)
    (hf : ∀ a s' ks, P a ks → Takes s' (f a) fun b ks' => Q b (ks ++ ks')) :
    Takes s (r >>= f) Q := by
  intro b s'' hrun
  obtain ⟨a, s', hr, hfa⟩ := bind_eq_ok.1 hrun
  obtain ⟨ks, hks, rfl, ha⟩ := h a s' hr
  obtain ⟨ks', hks', rfl, hb⟩ := hf a _ ks ha b s'' hfa
  refine ⟨ks ++ ks', ?_, ?_, hb⟩
  · rw [List.append_assoc, ← hks', ← hks]
  · rw [List.length_append, Stream.skip_add]

theorem imp {P' : α → List Token → Prop} (h : Takes s r P) (himp : ∀ a ks, P a ks → P' a ks) :
    Takes s r P' := by
  intro a s' hr
  obtain ⟨ks, hks, hs', ha⟩ := h a s' hr
  exact ⟨ks, hks, hs', himp a ks ha⟩

theorem peek {f : Token → Reader β} (h : Takes s (f s.peek) Q) :
    Takes s (Reader.peek >>= f) Q :=
  h

theorem get {f : Stream → Reader β} (h : Takes s (f s) Q) :
    Takes s (MonadState.get >>= f) Q :=
  h

theorem remaining {f : Nat → Reader β} (h : Takes s (f s.count) Q) :
    Takes s (Reader.remaining >>= f) Q :=
  h

theorem next {f : Token → Reader β} {k : Token} (hs : s.peek = k) (hk : k ≠ .eof)
    (h : Takes s.tail (f k) fun b ks => Q b (k :: ks)) : Takes s (Reader.next >>= f) Q := by
  subst hs
  intro b s' hrun
  obtain ⟨ks, hks, rfl, hb⟩ := h b s' hrun
  refine ⟨s.peek :: ks, ?_, ?_, hb⟩
  · rw [Stream.kinds_eq_cons hk, hks, List.cons_append]
  · rw [skip_tail, List.length_cons]

/-- A reader that refuses the token it takes. -/
theorem refuse {f : Token → Reader β} (h : ∀ b t t', f s.peek t ≠ .ok (b, t')) :
    Takes s (Reader.next >>= f) Q :=
  fun b s' hrun => absurd hrun (h b _ s')

theorem exactly {k : Token} (hbare : k.isBare = true) (hk : k ≠ .eof) :
    Takes s (Reader.exactly k) fun _ ks => ks = [k] := by
  by_cases hs : s.peek = k
  · refine .next hs hk ?_
    rw [if_pos ((Token.beq_iff hbare).2 rfl)]
    exact .pure rfl
  · refine .refuse fun b t t' h => ?_
    rw [if_neg (mt (Token.beq_iff hbare).1 hs)] at h
    cases h

theorem identifier : Takes s Reader.identifier fun n ks => ks = [.ident n] := by
  cases hs : s.peek with
  | ident n => exact .next hs (by simp) (.pure rfl)
  | _ => exact .refuse fun b t t' h => by simp [hs] at h; cases h

end Takes

end LiveUI.Source.Reader

namespace LiveUI.Expr

open LiveUI.Source LiveUI.Source.Reader

/-- The reader takes what is derived for its result on a level. -/
def Parses (l : Level) (r : Reader Expr) : Prop :=
  ∀ s, Takes s r fun e ts => Derives (.tree l e) ts

variable {n : Nat} {s : Stream} {inner : Reader Expr}

/-! ## Atoms and operands -/

theorem joinedStrings_takes :
    Takes s (joinedStrings n) fun text ts => ∃ ss, text = String.join ss ∧ ts = ss.map .str := by
  induction n generalizing s with
  | zero => exact .pure ⟨[], rfl, rfl⟩
  | succ n ih =>
      refine .peek ?_
      cases hs : s.peek with
      | str v =>
          refine .next hs (by simp) (.bind ih ?_)
          rintro _ _ _ ⟨ss, rfl, rfl⟩
          exact .pure ⟨v :: ss, by rw [String.join_cons], by simp⟩
      | _ => exact .pure ⟨[], rfl, rfl⟩

theorem listUntil_takes {close : Token} (hclose : close = .rightParen ∨ close = .rightBracket)
    (hinner : Parses .conditional inner) :
    Takes s (listUntil inner close n) fun es ts =>
      ∃ is, ts = is ++ [close] ∧ Derives (.items es) is := by
  have hbare : close.isBare = true := by rcases hclose with rfl | rfl <;> rfl
  have heof : close ≠ .eof := by rcases hclose with rfl | rfl <;> simp
  induction n generalizing s with
  | zero => exact .failHere
  | succ n ih =>
      refine .peek ?_
      by_cases hs : s.peek = close
      · rw [if_pos ((Token.beq_iff hbare).2 hs)]
        exact .next hs heof (.pure ⟨[], rfl, .noItem⟩)
      · rw [if_neg (mt (Token.beq_iff hbare).1 hs)]
        refine .bind (hinner s) fun item s' ts hitem => ?_
        by_cases hs' : s'.peek = close
        · refine .next hs' heof ?_
          have hlast : Takes s'.tail (pure [item] : Reader (List Expr)) fun es ks =>
              ∃ is, ts ++ close :: ks = is ++ [close] ∧ Derives (.items es) is :=
            .pure ⟨ts, rfl, .lastItem hitem⟩
          rcases hclose with rfl | rfl <;> exact hlast
        · cases hs'' : s'.peek with
          | comma =>
              refine .next hs'' (by simp) (.bind ih ?_)
              rintro es s'' ks ⟨is, rfl, hes⟩
              exact .pure ⟨ts ++ .comma :: is, by simp, .item hitem hes⟩
          | _ =>
              refine .refuse fun b t t' h => ?_
              rw [hs''] at hs' h
              simp [mt (Token.beq_iff hbare).1 hs'] at h
              cases h

section Levels

variable (hinner : Parses .conditional inner)
include hinner

theorem atom_parses : Parses .atom (atom inner) := by
  intro s
  cases hs : s.peek with
  | int v => exact .next hs (by simp) (.pure (.int v))
  | float v => exact .next hs (by simp) (.pure (.float v))
  | trueWord => exact .next hs (by simp) (.pure (.bool true))
  | falseWord => exact .next hs (by simp) (.pure (.bool false))
  | noneWord => exact .next hs (by simp) (.pure .nil)
  | ident name => exact .next hs (by simp) (.pure (.name name))
  | str v =>
      refine .next hs (by simp) (.remaining (.bind joinedStrings_takes ?_))
      rintro _ _ _ ⟨ss, rfl, rfl⟩
      rw [← String.join_cons]
      exact .pure (by simpa using Derives.str v ss)
  | leftParen =>
      refine .next hs (by simp) (.bind (hinner _) fun e s' ts he => ?_)
      refine .bind (.exactly rfl (by simp)) ?_
      rintro _ _ _ rfl
      exact .pure (by simpa using he.parentheses)
  | leftBracket =>
      refine .next hs (by simp) (.remaining (.bind (listUntil_takes (.inr rfl) hinner) ?_))
      rintro es _ _ ⟨is, rfl, hes⟩
      exact .pure (by simpa using hes.list)
  | _ => exact .refuse fun b t t' h => by simp [hs] at h; cases h

theorem trailers_takes {e : Expr} :
    Takes s (trailers inner n e) fun e' ks =>
      ∀ ts, Derives (.tree .operand e) ts → Derives (.tree .operand e') (ts ++ ks) := by
  induction n generalizing s e with
  | zero => exact .pure fun ts h => by simpa using h
  | succ n ih =>
      refine .peek ?_
      cases hs : s.peek with
      | dot =>
          refine .next hs (by simp) (.bind .identifier ?_)
          rintro name s' _ rfl
          refine ih.imp fun e' ks h ts he => ?_
          simpa using h _ (he.attr name)
      | leftBracket =>
          refine .next hs (by simp) (.bind (hinner _) fun i s' is hi => ?_)
          refine .bind (.exactly rfl (by simp)) ?_
          rintro _ s'' _ rfl
          refine ih.imp fun e' ks h ts he => ?_
          simpa using h _ (he.index hi)
      | leftParen =>
          refine .next hs (by simp) (.remaining (.bind (listUntil_takes (.inl rfl) hinner) ?_))
          rintro es s' _ ⟨as, rfl, has⟩
          refine ih.imp fun e' ks h ts he => ?_
          simpa using h _ (he.call has)
      | _ => exact .pure fun ts h => by simpa using h

theorem operand_parses : Parses .operand (operand inner) := fun s =>
  .bind (atom_parses hinner s) fun _ _ ts he => .remaining <|
    (trailers_takes hinner).imp fun _ _ h => h ts (.loosen he)

omit hinner in
theorem signs_takes :
    Takes s (signs n) fun marks ts => ∀ e ks, Derives (.tree .factor e) ks →
      Derives (.tree .factor (marks.foldr (fun minus e => if minus then negated e else e) e))
        (ts ++ ks) := by
  induction n generalizing s with
  | zero => exact .pure fun e ks h => h
  | succ n ih =>
      refine .peek ?_
      cases hs : s.peek with
      | minus =>
          exact .next hs (by simp) (.bind ih fun marks s' ts h => .pure fun e ks he => by
            simpa using (h e ks he).minus)
      | plus =>
          exact .next hs (by simp) (.bind ih fun marks s' ts h => .pure fun e ks he => by
            simpa using (h e ks he).plus)
      | _ => exact .pure fun e ks h => h

theorem factor_parses : Parses .factor (factor inner) := fun s =>
  .remaining <| .bind signs_takes fun marks _ ts h =>
    .bind (operand_parses hinner _) fun e _ ks he => .pure (by simpa using h e ks (.loosen he))

end Levels

/-! ## Operators that group to the left -/

/-- The operators of a level, with the trees that they make. -/
def Groups (l : Level) (op? : Token → Option (Expr → Expr → Expr)) : Prop :=
  ∀ k join, op? k = some join → k ≠ .eof ∧ ∀ a b as bs, Derives (.tree l a) as →
    Derives (.tree l.tighter b) bs → Derives (.tree l (join a b)) (as ++ k :: bs)

theorem chained_parses {l : Level} {operand : Reader Expr}
    {op? : Token → Option (Expr → Expr → Expr)} (hop : Groups l op?)
    (hoperand : Parses l.tighter operand) : Parses l (chained operand op?) := by
  have hchain : ∀ n s left, Takes s (chain operand op? n left) fun e ks =>
      ∀ ts, Derives (.tree l left) ts → Derives (.tree l e) (ts ++ ks) := by
    intro n
    induction n with
    | zero => exact fun s left => .pure fun ts h => by simpa using h
    | succ n ih =>
        intro s left
        refine .peek ?_
        cases hjoin : op? s.peek with
        | none => exact .pure fun ts h => by simpa using h
        | some join =>
            obtain ⟨heof, hgroup⟩ := hop _ _ hjoin
            refine .next rfl heof (.bind (hoperand _) fun e s' ks he => ?_)
            refine (ih s' _).imp fun e' ks' h ts hleft => ?_
            simpa using h _ (hgroup _ _ _ _ hleft he)
  exact fun s => .bind (hoperand s) fun first s' ts hfirst => .remaining <|
    (hchain _ _ _).imp fun _ _ h => h ts (.loosen hfirst)

theorem termOp_groups : Groups .term termOp? := by
  intro k join h
  cases k <;> cases h <;> refine ⟨by simp, fun a b as bs ha hb => ?_⟩
  · exact .arithmetic (show BinaryOp.mul.level ≠ .comparison by decide) ha hb
  · exact .arithmetic (show BinaryOp.div.level ≠ .comparison by decide) ha hb
  · exact .arithmetic (show BinaryOp.floorDiv.level ≠ .comparison by decide) ha hb
  · exact .arithmetic (show BinaryOp.mod.level ≠ .comparison by decide) ha hb

theorem sumOp_groups : Groups .sum sumOp? := by
  intro k join h
  cases k <;> cases h <;> refine ⟨by simp, fun a b as bs ha hb => ?_⟩
  · exact .arithmetic (show BinaryOp.add.level ≠ .comparison by decide) ha hb
  · exact .arithmetic (show BinaryOp.sub.level ≠ .comparison by decide) ha hb

theorem andOp_groups : Groups .conjunction andOp? := by
  intro k join h
  cases k <;> cases h
  exact ⟨by simp, fun a b as bs ha hb => @Derives.boolOp .and a b as bs ha hb⟩

theorem orOp_groups : Groups .disjunction orOp? := by
  intro k join h
  cases k <;> cases h
  exact ⟨by simp, fun a b as bs ha hb => @Derives.boolOp .or a b as bs ha hb⟩

/-! ## Comparisons and what is looser -/

/-- The comparison at the front of a stream. -/
theorem comparison?_tokens {op : BinaryOp} {width : Nat} (h : comparison? s = some (op, width)) :
    op.level = .comparison ∧
      ((width = 1 ∧ op.tokens = [s.peek] ∧ s.peek ≠ .eof) ∨
        (width = 2 ∧ op.tokens = [.notWord, .inWord] ∧ s.peek = .notWord ∧
          s.tail.peek = .inWord)) := by
  have hsecond : s.tail.peek = s.peekSecond := by
    rw [s.tail.peek_eq, s.peekSecond_eq, Stream.kinds_tail]
  rw [comparison?] at h
  rw [hsecond]
  split at h <;> cases h <;> simp_all [BinaryOp.level, BinaryOp.tokens]

section Comparisons

variable (hinner : Parses .conditional inner)
include hinner

theorem sum_parses : Parses .sum (sum inner) :=
  chained_parses sumOp_groups (chained_parses termOp_groups (factor_parses hinner))

theorem comparison_parses : Parses .comparison (comparison inner) := by
  intro s
  refine .bind (sum_parses hinner s) fun left s' as hleft => .get ?_
  cases hcomparison : comparison? s' with
  | none => exact .pure (by simpa using Derives.loosen (l := .comparison) hleft)
  | some p =>
      obtain ⟨op, width⟩ := p
      obtain ⟨hlevel, hwidth⟩ := comparison?_tokens hcomparison
      have hright : ∀ t, Takes t
          (do
            let right ← sum inner
            if (comparison? (← get)).isSome then failHere .chainedComparison
            else return .binary op left right : Reader Expr) fun e ks =>
          Derives (.tree .comparison e) (as ++ (op.tokens ++ ks)) := by
        intro t
        refine .bind (sum_parses hinner t) fun right t' bs hright => .get ?_
        split
        next => exact .failHere
        next => exact .pure (by simpa using hleft.comparison hlevel hright)
      rcases hwidth with ⟨rfl, htokens, heof⟩ | ⟨rfl, htokens, hnot, hin⟩
      · rw [htokens] at hright
        exact .next rfl heof (hright _)
      · rw [htokens] at hright
        exact .next hnot (by simp) (.next hin (by simp) (hright _))

omit hinner in
theorem negations_takes :
    Takes s (negations n) fun count ts => ∀ e ks, Derives (.tree .negation e) ks →
      Derives (.tree .negation (Nat.repeat (.unary .not) count e)) (ts ++ ks) := by
  induction n generalizing s with
  | zero => exact .pure fun e ks h => h
  | succ n ih =>
      refine .peek ?_
      cases hs : s.peek with
      | notWord =>
          exact .next hs (by simp) (.bind ih fun count s' ts h => .pure fun e ks he => by
            simpa [Nat.repeat] using (h e ks he).not)
      | _ => exact .pure fun e ks h => h

theorem negation_parses : Parses .negation (negation inner) := fun s =>
  .remaining <| .bind negations_takes fun count _ ts h =>
    .bind (comparison_parses hinner _) fun e _ ks he => .pure (by simpa using h e ks (.loosen he))

theorem disjunction_parses : Parses .disjunction (disjunction inner) :=
  chained_parses orOp_groups (chained_parses andOp_groups (negation_parses hinner))

end Comparisons

theorem conditional_parses (depth : Nat) : Parses .conditional (conditional depth) := by
  induction depth with
  | zero => exact fun s => .peek .failHere
  | succ depth ih =>
      intro s
      refine .bind (disjunction_parses ih s) fun body s' as hbody => .peek ?_
      cases hs : s'.peek with
      | ifWord =>
          refine .next hs (by simp) (.bind (disjunction_parses ih _) fun test s'' bs htest => ?_)
          refine .bind (.exactly rfl (by simp)) ?_
          rintro _ t _ rfl
          exact .bind (ih t) fun otherwise _ cs hotherwise =>
            .pure (by simpa using hbody.ifElse htest hotherwise)
      | _ => exact .pure (by simpa using Derives.loosen (l := .conditional) hbody)

end LiveUI.Expr
