import LiveUI.Proofs.Markup.Accepting
import LiveUI.Proofs.Source.Slices
import LiveUI.Proofs.Source.Tiling

/-! # Assignments and constructs are told apart

An item of a block is read as an assignment where a binding operator is found on its line, and as a
construct elsewhere. No construct starts where one is found, and no assignment where none is: so a block
refuses an item only if neither an assignment nor a construct starts there. -/

namespace LiveUI

open Source Source.Reader

namespace Source.Reader.Takes

variable {α β : Type} {s : Stream} {r : Reader α} {f : α → Reader β} {P : α → List Token → Prop}
  {Q : β → List Token → Prop}

/-- A reader that takes nothing. -/
theorem look (h : ∀ a s', r s = .ok (a, s') → s' = s ∧ P a []) (hf : ∀ a, P a [] → Takes s (f a) Q) :
    Takes s (r >>= f) Q := by
  intro b s'' hrun
  obtain ⟨a, s', hr, hfa⟩ := bind_eq_ok.1 hrun
  obtain ⟨rfl, ha⟩ := h a s' hr
  exact hf a ha b s'' hfa

theorem named {f : String → Reader β} {name : String} (hs : s.peek = .ident name)
    (h : Takes s.tail (f name) fun b ks => Q b (.ident name :: ks)) :
    Takes s (Reader.identifier >>= f) Q := by
  intro b s' hrun
  rw [bind_ok (run_identifier hs)] at hrun
  obtain ⟨ks, hks, rfl, hb⟩ := h b s' hrun
  refine ⟨.ident name :: ks, ?_, ?_, hb⟩
  · rw [Stream.kinds_eq_cons (by simp [hs]), hs, hks, List.cons_append]
  · rw [skip_tail, List.length_cons]

theorem read : Takes s Expression.read fun e ks => Expr.Derives (.tree .conditional e.expr) ks := by
  intro e s' hr
  obtain ⟨ks, hks, hs', -, hderives⟩ := Expression.read_eq_ok hr
  exact ⟨ks, hks, hs', hderives⟩

theorem map {g : α → β} (h : Takes s r P) (hg : ∀ a ks, P a ks → Q (g a) ks) :
    Takes s (g <$> r) Q := by
  intro b s' hrun
  rw [run_map] at hrun
  cases hr : r s with
  | error e => rw [hr] at hrun; cases hrun
  | ok p =>
      rw [hr] at hrun
      cases hrun
      obtain ⟨ks, hks, hs', ha⟩ := h _ _ hr
      exact ⟨ks, hks, hs', hg _ _ ha⟩

/-- The end of a list, or what comes before it. -/
theorem closing {close : Token} {a : α} (hbare : close.isBare = true) (heof : close ≠ .eof)
    (hclose : P a [close]) (hmore : Takes s r P) :
    Takes s (Reader.peek >>= fun k => if k == close then (do let _ ← Reader.next; return a) else r)
      P := by
  refine .peek ?_
  by_cases hk : s.peek = close
  · rw [if_pos ((Token.beq_iff hbare).2 hk)]
    exact .next hk heof (.pure hclose)
  · rw [if_neg (mt (Token.beq_iff hbare).1 hk)]
    exact hmore

/-- No more tokens are taken than there are. -/
theorem within (h : Takes s r fun a ks => P a ks ∨ s.count < ks.length) : Takes s r P := by
  intro a s' hr
  obtain ⟨ks, hks, hs', ha⟩ := h a s' hr
  refine ⟨ks, hks, hs', ha.resolve_right ?_⟩
  rw [s.count_eq_kinds, hks, List.length_append]
  omega

end Source.Reader.Takes

namespace Markup

variable {s t : Stream} {n : Nat}

/-! ## Headers -/

/-- Behind the tokens `ks` a search for a binding operator that comes to them at bracket depth `i` goes on
at depth `j`. -/
def Hides (i : Nat) (ks : List Token) (j : Nat) : Prop :=
  ∀ used rest, used.map (·.token) = ks → hasBinding i (used ++ rest) = hasBinding j rest

namespace Hides

variable {i j d : Nat} {k : Token} {ks ks' : List Token}

theorem nil : Hides i [] i := by
  intro used rest hused
  rw [List.map_eq_nil_iff.1 hused, List.nil_append]

theorem append (h : Hides i ks d) (h' : Hides d ks' j) : Hides i (ks ++ ks') j := by
  intro used rest hused
  obtain ⟨used₁, used₂, rfl, h₁, h₂⟩ := List.map_eq_append_iff.1 hused
  rw [List.append_assoc, h used₁ _ h₁, h' used₂ _ h₂]

theorem cons (hk : k.isPassed = true) (hd : depthAfter i k = some d) (h : Hides d ks j) :
    Hides i (k :: ks) j := by
  intro used rest hks
  obtain ⟨l, used, rfl, rfl, hused⟩ := List.map_eq_cons_iff.1 hks
  rw [List.cons_append, hasBinding_cons hk hd, h used rest hused]

/-- An equals sign in brackets. -/
theorem equal (h : Hides (i + 1) ks j) : Hides (i + 1) (.equal :: ks) j := by
  intro used rest hks
  obtain ⟨l, used, rfl, hl, hused⟩ := List.map_eq_cons_iff.1 hks
  rw [List.cons_append, hasBinding, hl, ← h used rest hused]
  rfl

theorem derived {e : Expr} (h : Expr.Derives (.tree .conditional e) ks) : Hides i ks i := by
  rintro used rest rfl
  exact hasBinding_append (fun k hk => Token.isPassed_of_isInner (h.balanced.inner k hk))
    (h.balanced.depth i)

end Hides

theorem Hides.hasBinding {α : Type} {r : Reader α} {a : α} {i j : Nat}
    (h : Takes s r fun _ ks => Hides i ks j) (hr : r s = .ok (a, t)) :
    hasBinding i s.rest = hasBinding j t.rest := by
  obtain ⟨ks, hks, ht, hhides⟩ := h a t hr
  obtain ⟨used, hrest, hused⟩ := exists_used hks ht
  rw [hrest, hhides used _ hused]

theorem elementEnd_takes {close : Token} {bracket : Char} (hbare : close.isBare = true)
    (heof : close ≠ .eof) :
    Takes s (elementEnd close bracket) fun more ks => ks = [if more then .comma else close] := by
  by_cases hcomma : s.peek = .comma
  · exact .next hcomma (by simp) (.pure rfl)
  · have hother : elementEnd close bracket s = (Reader.next >>= fun t => if t == close then return false
        else Reader.failBehind (.expectedArgumentEnd bracket t) : Reader Bool) s := by
      rw [elementEnd, run_next, run_next]
      generalize s.peek = k at hcomma
      cases k <;> first | rfl | exact absurd rfl hcomma
    have htakes : Takes s (Reader.next >>= fun t => if t == close then return false
        else Reader.failBehind (.expectedArgumentEnd bracket t) : Reader Bool)
        fun more ks => ks = [if more then .comma else close] := by
      by_cases hclose : s.peek = close
      · refine .next hclose heof ?_
        rw [if_pos ((Token.beq_iff hbare).2 rfl)]
        exact .pure rfl
      · refine .refuse fun b t t' h => ?_
        rw [if_neg (mt (Token.beq_iff hbare).1 hclose)] at h
        cases h
    intro more s' hr
    exact htakes more s' (hother ▸ hr)

theorem argument_takes {before : List Argument} {i : Nat} :
    Takes s (readArgument before) fun _ ks => Hides (i + 1) ks (i + 1) := by
  refine .look (P := fun keyword _ => keyword = true → ∃ name, s.peek = .ident name ∧
    s.tail.peek = .equal) (fun _ _ => atKeyword_eq_ok) fun keyword hkeyword => ?_
  cases keyword with
  | true =>
      obtain ⟨name, hname, hequal⟩ := hkeyword rfl
      refine .named hname (.next hequal (by simp) (.bind .read fun value s' ks hvalue => ?_))
      have hhides : Hides (i + 1) (.ident name :: .equal :: ks) (i + 1) :=
        .cons rfl rfl (.equal (.derived hvalue))
      cases hany : before.any (·.keyword? == some name) with
      | true => exact .failBehind
      | false => exact .pure (by simpa using hhides)
  | false =>
      cases hany : before.any (·.keyword?.isSome) with
      | true => exact .failHere
      | false => exact .bind .read fun value s' ks hvalue => .pure (by simpa using .derived hvalue)

theorem arguments_takes {before : List Argument} {i : Nat} :
    Takes s (readArguments n before) fun _ ks => Hides (i + 1) ks i ∨ n ≤ ks.length := by
  induction n generalizing s before with
  | zero => exact .pure (.inr (Nat.zero_le _))
  | succ n ih =>
      refine .closing rfl (by simp) (.inl (.cons rfl rfl .nil)) ?_
      refine .bind (argument_takes (i := i)) fun a s' ks ha => .bind (elementEnd_takes rfl (by simp)) ?_
      rintro more s'' _ rfl
      cases more with
      | true =>
          refine ih.imp fun as ks' has => ?_
          rcases has with has | has
          · exact .inl (ha.append (.cons rfl rfl has))
          · right
            simp only [List.length_append, List.length_cons]
            omega
      | false => exact .pure (.inl (ha.append (.cons rfl rfl .nil)))

theorem captures_takes {i : Nat} :
    Takes s (readCaptures n) fun _ ks => Hides (i + 1) ks i ∨ n ≤ ks.length := by
  induction n generalizing s with
  | zero => exact .pure (.inr (Nat.zero_le _))
  | succ n ih =>
      refine .closing rfl (by simp) (.inl (.cons rfl rfl .nil)) (.bind .identifier ?_)
      rintro name s₁ _ rfl
      refine .bind (.exactly rfl (by simp)) ?_
      rintro _ s₂ _ rfl
      refine .bind .identifier ?_
      rintro attr s₃ _ rfl
      refine .bind (elementEnd_takes rfl (by simp)) ?_
      rintro more s₄ _ rfl
      have hcapture : ∀ ks', Hides (i + 1) ks' i →
          Hides (i + 1) (.ident name :: .equal :: .ident attr :: ks') i :=
        fun ks' h => .cons rfl rfl (.equal (.cons rfl rfl h))
      cases more with
      | true =>
          refine .bind ih fun ps s' ks' hps => .pure ?_
          rcases hps with hps | hps
          · exact .inl (by simpa using hcapture _ (.cons rfl rfl hps))
          · right
            simp only [List.length_append, List.length_cons, List.length_nil]
            omega
      | false => exact .pure (.inl (hcapture _ (.cons rfl rfl .nil)))

theorem moreNames_takes {i : Nat} : Takes s (moreNames n) fun _ ks => Hides i ks i := by
  induction n generalizing s with
  | zero => exact .pure .nil
  | succ n ih =>
      refine .peek ?_
      cases hk : s.peek with
      | comma =>
          refine .next hk (by simp) (.bind .identifier ?_)
          rintro name s' _ rfl
          refine .bind ih fun names s'' ks hnames => .pure ?_
          exact .cons rfl rfl (.cons rfl rfl (by simpa using hnames))
      | _ => exact .pure .nil

/-- At the end of a header no binding operator is found. -/
theorem hasBinding_of_peek (h : s.peek = .colon ∨ s.peek = .newline ∨ s.peek = .eof) :
    hasBinding 0 s.rest = false := by
  cases hrest : s.rest with
  | nil => rfl
  | cons l ls =>
      rw [Stream.peek, hrest] at h
      rcases h with hl | hl | hl <;> simp [hasBinding, hl]

/-- No binding operator is found from the start of a construct. -/
theorem hasBinding_of_construct {inner : Reader Construct} {c : Construct}
    (h : readConstructWith inner s = .ok (c, t)) : hasBinding 0 s.rest = false := by
  rw [readConstructWith, run_get] at h
  obtain ⟨typeName, s₁, hname, h⟩ := bind_eq_ok.1 h
  obtain ⟨arguments, s₂, harguments, h⟩ := bind_eq_ok.1 h
  obtain ⟨unpack, s₃, hunpack, h⟩ := bind_eq_ok.1 h
  obtain ⟨captures, s₄, hcaptures, h⟩ := bind_eq_ok.1 h
  obtain ⟨body, s₅, hbody, -⟩ := bind_eq_ok.1 h
  have hname' : hasBinding 0 s.rest = hasBinding 0 s₁.rest := by
    refine Hides.hasBinding (Takes.identifier.imp ?_) hname
    rintro _ _ rfl
    exact .cons rfl rfl .nil
  have harguments' : hasBinding 0 s₁.rest = hasBinding 0 s₂.rest := by
    refine Hides.hasBinding (.peek ?_) harguments
    cases hk : s₁.peek with
    | leftParen =>
        refine .next hk (by simp) (.remaining (.imp (.within (arguments_takes (i := 0))) fun _ ks h => ?_))
        exact .cons rfl rfl h
    | _ => exact .pure .nil
  have hunpack' : hasBinding 0 s₂.rest = hasBinding 0 s₃.rest := by
    refine Hides.hasBinding (.peek ?_) hunpack
    cases hk : s₂.peek with
    | arrow =>
        refine .next hk (by simp) (.bind .identifier ?_)
        rintro name s' _ rfl
        refine .remaining (.bind (moreNames_takes (i := 0)) fun names s'' ks hnames => .pure ?_)
        exact .cons rfl rfl (.cons rfl rfl (by simpa using hnames))
    | _ => exact .pure .nil
  have hcaptures' : hasBinding 0 s₃.rest = hasBinding 0 s₄.rest := by
    refine Hides.hasBinding (.peek ?_) hcaptures
    cases hk : s₃.peek with
    | leftBracket =>
        refine .next hk (by simp) (.remaining (.imp (.within (captures_takes (i := 0))) fun _ ks h => ?_))
        exact .cons rfl rfl h
    | _ => exact .pure .nil
  rw [hname', harguments', hunpack', hcaptures']
  apply hasBinding_of_peek
  rw [run_peek] at hbody
  cases hk : s₄.peek with
  | colon => exact .inl rfl
  | _ =>
      rw [hk] at hbody
      obtain ⟨_, _, hline, -⟩ := bind_eq_ok.1 hbody
      exact .inr (hk ▸ peek_of_lineEnd hline)

/-! ## Targets -/

theorem hasBinding_of_isBinding {b : Lexeme} {rest : List Lexeme} (h : b.token.isBinding = true) :
    hasBinding 0 (b :: rest) = true := by
  rw [hasBinding]
  cases hb : b.token <;> rw [hb] at h <;> first | rfl | cases h

/-- The text of a target has no line end in it. -/
theorem Target.line_of_parse {lhs : String} {target : Target} (h : parse lhs = .ok target) :
    '\n' ∉ lhs.toList := by
  have hword : ∀ {word : List Char}, isWord word = true → '\n' ∉ word := by
    intro word hword hmem
    cases word with
    | nil => cases hword
    | cons c cs =>
        rw [isWord, Bool.and_eq_true, List.all_eq_true] at hword
        rcases List.mem_cons.1 hmem with rfl | hmem
        · exact absurd hword.1 Bool.false_ne_true
        · exact absurd (hword.2 _ hmem) Bool.false_ne_true
  rcases parse_eq_ok h with ⟨-, hlhs⟩ | ⟨n, attr, -, hlhs, hn, hattr⟩ |
    ⟨n, negative, ds, i, attr, -, hlhs, hn, hds, hattr, -⟩
  · exact hword hlhs
  · rw [hlhs]
    simp [hword hn, hword hattr]
  · have hdigits : '\n' ∉ ds := fun hmem =>
      absurd ((digits_of_isCanonical hds).2 _ hmem) Bool.false_ne_true
    rw [hlhs]
    cases negative <;> simp [hword hn, hword hattr, hdigits]

/-- A search for a binding operator passes the text of a target by. -/
theorem Target.hides_of_parse {lhs : String} {target : Target} {ks : List Token} {d d' : Nat}
    (h : parse lhs = .ok target) (hspells : Spells Stops d lhs.toList ks d') : Hides 0 ks 0 := by
  have hword := Token.isPassed_ofWord
  have hpassed : ∀ k ∈ ks, k.isPassed = true := by
    rcases kinds_of_parse h hspells with ⟨attr, -, -, rfl⟩ | ⟨n, attr, -, -, -, rfl⟩ |
      ⟨n, i, attr, negative, v, -, -, -, -, rfl⟩
    · simpa using hword attr
    · rw [List.forall_mem_cons, List.forall_mem_cons, List.forall_mem_singleton]
      exact ⟨hword n, rfl, hword attr⟩
    · simp only [List.forall_mem_cons, List.forall_mem_append]
      refine ⟨hword n, rfl, ?_, rfl, rfl, rfl, hword attr, by simp⟩
      cases negative <;> simp [Token.isPassed]
  rintro used rest rfl
  exact hasBinding_append hpassed (depthBehind_of_parse h hspells)

theorem skipToBinding_eq_ok {u : Unit} (h : skipToBinding n s = .ok (u, t)) :
    ∃ used, s.rest = used ++ t.rest ∧ t = s.skip used.length ∧
      ∀ l ∈ used, l.token.isBinding = false ∧ l.token ≠ .eof := by
  induction n generalizing s with
  | zero =>
      cases h
      exact ⟨[], rfl, rfl, by simp⟩
  | succ n ih =>
      rw [skipToBinding, run_peek] at h
      split at h
      next =>
        cases h
        exact ⟨[], rfl, rfl, by simp⟩
      next hk =>
        obtain ⟨hbinding, heof⟩ : s.peek.isBinding = false ∧ s.peek ≠ .eof := by
          rw [Bool.not_eq_true, Bool.or_eq_false_iff] at hk
          exact ⟨hk.1, fun heof => Bool.false_ne_true (hk.2.symm.trans ((Token.beq_iff rfl).2 heof))⟩
        obtain ⟨used, hrest, ht, hused⟩ := ih h
        cases hs : s.rest with
        | nil => rw [Stream.peek, hs] at heof; exact absurd rfl heof
        | cons l ls =>
            have hl : s.peek = l.token := by rw [Stream.peek, hs]
            rw [Stream.rest_tail, hs, List.tail_cons] at hrest
            refine ⟨l :: used, by rw [hrest, List.cons_append], by rw [ht, List.length_cons, skip_tail], ?_⟩
            exact List.forall_mem_cons.2 ⟨⟨hl ▸ hbinding, hl ▸ heof⟩, hused⟩

theorem readOperator_eq_ok {op : Operator} (h : readOperator s = .ok (op, t)) :
    ∃ b rest, s.rest = b :: rest ∧ b.token.isBinding = true := by
  rw [readOperator, run_next] at h
  cases hrest : s.rest with
  | nil => simp only [Stream.peek, hrest] at h; cases h
  | cons b rest =>
      refine ⟨b, rest, rfl, ?_⟩
      simp only [Stream.peek, hrest] at h
      cases hb : b.token <;> rw [hb] at h <;> first | rfl | cases h

theorem readTarget_eq_ok {target : Target} (h : readTarget s = .ok (target, t)) :
    ∃ used, s.rest = used ++ t.rest ∧ t = s.skip used.length ∧
      (∀ l ∈ used, l.token.isBinding = false ∧ l.token ≠ .eof) ∧
      Target.parse (t.textSince s.start) = .ok target := by
  rw [readTarget, run_get] at h
  obtain ⟨_, t', hskip, h⟩ := bind_eq_ok.1 h
  rw [run_get] at h
  cases hparse : Target.parse (t'.textSince s.start) with
  | error e => rw [hparse] at h; cases h
  | ok target' =>
      rw [hparse] at h
      cases h
      obtain ⟨used, hrest, ht, hused⟩ := skipToBinding_eq_ok hskip
      exact ⟨used, hrest, ht, hused, hparse⟩

/-- A binding operator is found from the start of an assignment. The tokens before it make up a target,
whose text is on one line and has balanced brackets. -/
theorem hasBinding_of_assignment {source : List Char} {ls : List Lexeme} {i : Nat} {a : Assignment}
    {name : String} (htokens : tokenize source = .ok ls)
    (hname : ((Stream.ofLexemes source ls).skip i).peek = .ident name)
    (h : readAssignment ((Stream.ofLexemes source ls).skip i) = .ok (a, t)) :
    hasBinding 0 ((Stream.ofLexemes source ls).skip i).rest = true := by
  generalize hs : (Stream.ofLexemes source ls).skip i = s at hname h ⊢
  rw [readAssignment, run_get] at h
  obtain ⟨target, s₁, htarget, h⟩ := bind_eq_ok.1 h
  obtain ⟨op, s₂, hop, -⟩ := bind_eq_ok.1 h
  obtain ⟨used, hrest, rfl, hused, hparse⟩ := readTarget_eq_ok htarget
  obtain ⟨b, rest, hb, hbinding⟩ := readOperator_eq_ok hop
  rw [hb] at hrest
  have hne : used ≠ [] := by
    rintro rfl
    rw [Stream.peek, hrest] at hname
    change b.token = .ident name at hname
    rw [hname] at hbinding
    cases hbinding
  have hbplain : b.token.isLayout = false := by
    cases hk : b.token <;> rw [hk] at hbinding <;> first | rfl | cases hbinding
  have hsplit : ls = ls.take i ++ (used ++ b :: rest) := by
    rw [← hrest, ← hs, Stream.rest_skip]
    exact (List.take_append_drop i ls).symm
  have hsource : s.source = source := by
    rw [← hs, Stream.source_skip]
    rfl
  rw [hsplit] at htokens
  obtain ⟨text, hspans, hmem⟩ := spans_of_tokenize htokens hbplain hne
  rw [Stream.textSince_skip hrest (hsource ▸ hspans)] at hparse
  have hline : ∀ l ∈ used, l.token ≠ .newline := by
    intro l hl hnewline
    refine Target.line_of_parse hparse ?_
    rw [String.toList_ofList]
    exact hmem l hl hnewline
  obtain ⟨d, -, hremains⟩ := (remains_of_tokenize htokens).drop
  obtain ⟨l, used', rfl⟩ := List.exists_cons_of_ne_nil hne
  have hl : l.token = .ident name := by
    rw [Stream.peek, hrest] at hname
    exact hname
  have hplain := hremains.plain (by rw [hl]; rfl) hbplain fun m hm =>
    hline m (List.mem_cons_of_mem _ hm)
  obtain ⟨text', d', hspans', hspells, -, -⟩ := hremains.spells hne hplain
  obtain rfl : text = text' := hspans.piece.symm.trans hspans'.piece
  -- The brackets of a target are balanced, so the search passes over it at its own depth.
  have hhides := Target.hides_of_parse hparse (by rw [String.toList_ofList]; exact hspells 0)
  rw [hrest, hhides _ _ rfl, hasBinding_of_isBinding hbinding]

/-! ## Items -/

/-- Where `r` succeeds at `s`, `r'` does so too, with the same result. -/
def Extends {α : Type} (s : Stream) (r r' : Reader α) : Prop :=
  ∀ p, r s = .ok p → r' s = .ok p

namespace Extends

variable {α β : Type} {r r' : Reader α} {f f' : α → Reader β}

theorem refl : Extends s r r :=
  fun _ h => h

theorem bind (h : Extends s r r') (hf : ∀ a t, Extends t (f a) (f' a)) :
    Extends s (r >>= f) (r' >>= f') := by
  intro p hp
  obtain ⟨a, t, hr, hfa⟩ := bind_eq_ok.1 hp
  rw [bind_ok (h _ hr)]
  exact hf a t p hfa

theorem map {g : α → β} (h : Extends s r r') : Extends s (g <$> r) (g <$> r') := by
  intro p hp
  rw [run_map] at hp ⊢
  cases hr : r s with
  | error e => rw [hr] at hp; cases hp
  | ok q => rwa [h _ hr, ← hr]

theorem get {f f' : Stream → Reader β} (h : Extends s (f s) (f' s)) :
    Extends s (MonadState.get >>= f) (MonadState.get >>= f') :=
  h

theorem peek {f f' : Token → Reader β} (h : Extends s (f s.peek) (f' s.peek)) :
    Extends s (Reader.peek >>= f) (Reader.peek >>= f') :=
  h

end Extends

section Blocks

variable {inner inner' : Reader Construct} (h : ∀ t, Extends t inner inner')
include h

theorem extends_items : Extends s (readItems inner n) (readItems inner' n) := by
  induction n generalizing s with
  | zero => exact .refl
  | succ n ih =>
      refine .get ?_
      cases s.peek with
      | pass => exact .bind .refl fun _ _ => .bind .refl fun _ _ => ih
      | ident name =>
          have hitem : ∀ {r r' : Reader (BodyItem Construct)}, Extends s r r' →
              Extends s (r >>= fun item => readItems inner n >>= fun items => pure (item :: items))
                (r' >>= fun item => readItems inner' n >>= fun items => pure (item :: items)) :=
            fun hr => .bind hr fun _ _ => .bind ih fun _ _ => .refl
          cases hasBinding 0 s.rest with
          | true => exact hitem .refl
          | false => exact hitem (.map (h s))
      | _ => exact .refl

theorem extends_constructWith : Extends s (readConstructWith inner) (readConstructWith inner') := by
  refine .get (.bind .refl fun _ _ => .bind .refl fun _ _ => .bind .refl fun _ _ => .bind .refl fun _ t =>
    .bind (.peek ?_) fun _ _ => .refl)
  cases t.peek with
  | colon =>
      refine .bind .refl fun _ _ => .bind .refl fun _ t' => .peek ?_
      cases t'.peek with
      | indent => exact .bind .refl fun _ _ => .bind .refl fun _ _ => extends_items h
      | _ => exact .refl
  | _ => exact .refl

end Blocks

/-- A construct that is read is read with more depth as well. -/
theorem extends_constructTo {depth depth' : Nat} (hle : depth ≤ depth') :
    Extends s (readConstructTo depth) (readConstructTo depth') := by
  induction depth generalizing depth' s with
  | zero =>
      intro p hp
      cases hp
  | succ depth ih =>
      obtain ⟨m, rfl⟩ : ∃ m, depth' = m + 1 := ⟨depth' - 1, by omega⟩
      exact extends_constructWith fun _ => ih (by omega)

/-- An item that is read, and then the other items. -/
theorem readItems_item {construct : Reader Construct} {name : String} {item : BodyItem Construct}
    (hname : s.peek = .ident name)
    (h : (if hasBinding 0 s.rest then .assignment <$> readAssignment else .child <$> construct) s =
      .ok (item, t)) :
    readItems construct (n + 1) s =
      (readItems construct n t).map fun p => (item :: p.1, p.2) := by
  rw [readItems, run_get, hname]
  cases hbinding : hasBinding 0 s.rest <;>
    · simp only [hbinding, Bool.false_eq_true, if_true, if_false] at h ⊢
      rw [bind_ok h]
      exact run_map (item :: ·) (readItems construct n) t

/-- From an identifier of a text on, where a construct starts no binding operator is found, and one is
found where an assignment starts. So a block that comes to the identifier, with more depth than there are
tokens left, goes on behind the one or the other; it refuses the item only if neither starts there. -/
theorem item_told_apart {source : List Char} {ls : List Lexeme} {i : Nat} {name : String}
    (htokens : tokenize source = .ok ls)
    (hname : ((Stream.ofLexemes source ls).skip i).peek = .ident name) :
    let s := (Stream.ofLexemes source ls).skip i
    (∀ c t, readConstruct s = .ok (c, t) → hasBinding 0 s.rest = false) ∧
      (∀ a t, readAssignment s = .ok (a, t) → hasBinding 0 s.rest = true) ∧
      ∀ depth n, s.count < depth →
        (∀ c t, readConstruct s = .ok (c, t) → readItems (readConstructTo depth) (n + 1) s =
          (readItems (readConstructTo depth) n t).map fun p => (.child c :: p.1, p.2)) ∧
        ∀ a t, readAssignment s = .ok (a, t) → readItems (readConstructTo depth) (n + 1) s =
          (readItems (readConstructTo depth) n t).map fun p => (.assignment a :: p.1, p.2) := by
  intro s
  have hconstruct : ∀ c t, readConstruct s = .ok (c, t) → hasBinding 0 s.rest = false :=
    fun c t h => hasBinding_of_construct h
  have hassignment : ∀ a t, readAssignment s = .ok (a, t) → hasBinding 0 s.rest = true :=
    fun a t h => hasBinding_of_assignment htokens hname h
  refine ⟨hconstruct, hassignment, fun depth n hdepth => ⟨fun c t h => ?_, fun a t h => ?_⟩⟩
  · have hextends : Extends s (readConstructTo (s.count + 1)) (readConstructTo depth) :=
      extends_constructTo hdepth
    refine readItems_item hname ?_
    rw [hconstruct c t h, if_neg Bool.false_ne_true, run_map, hextends (c, t) h]
    rfl
  · refine readItems_item hname ?_
    rw [hassignment a t h, if_pos rfl, run_map, h]
    rfl

/-- A block with an assignment whose value is a call, and with a construct that has a keyword argument. -/
theorem item_told_apart_block :
    ∃ ls, tokenize "W:\n a.b = f(c)\n V(d=1)\n".toList = .ok ls ∧
      (ls.map (·.token))[4]? = some (.ident "a") ∧ hasBinding 0 (ls.drop 4) = true ∧
      (ls.map (·.token))[13]? = some (.ident "V") ∧ hasBinding 0 (ls.drop 13) = false := by
  have hkinds : (tokenize "W:\n a.b = f(c)\n V(d=1)\n".toList).toOption.map (·.map (·.token)) =
      some [.ident "W", .colon, .newline, .indent, .ident "a", .dot, .ident "b", .equal,
        .ident "f", .leftParen, .ident "c", .rightParen, .newline, .ident "V", .leftParen, .ident "d",
        .equal, .int 1, .rightParen, .newline, .dedent, .eof] := by
    cbv
  have hassignment : (tokenize "W:\n a.b = f(c)\n V(d=1)\n".toList >>= fun ls => readAssignment
      ((Stream.ofLexemes "W:\n a.b = f(c)\n V(d=1)\n".toList ls).skip 4)).isOk = true := by
    cbv
  have hconstruct : (tokenize "W:\n a.b = f(c)\n V(d=1)\n".toList >>= fun ls => readConstruct
      ((Stream.ofLexemes "W:\n a.b = f(c)\n V(d=1)\n".toList ls).skip 13)).isOk = true := by
    cbv
  obtain ⟨ls, hls, hks⟩ := exists_tokenize hkinds
  rw [hls] at hassignment hconstruct
  have hpeek : ∀ cs i, ((Stream.ofLexemes cs ls).skip i).peek =
      ((ls.map (·.token)).drop i).headD .eof := fun cs i => by
    rw [Stream.peek_eq, Stream.kinds_skip]
    rfl
  refine ⟨ls, hls, by rw [hks]; rfl, ?_, by rw [hks]; rfl, ?_⟩
  · change (readAssignment ((Stream.ofLexemes _ ls).skip 4)).isOk = true at hassignment
    cases ha : readAssignment ((Stream.ofLexemes "W:\n a.b = f(c)\n V(d=1)\n".toList ls).skip 4) with
    | error e => rw [ha] at hassignment; cases hassignment
    | ok p =>
        have hfound := (item_told_apart hls (by rw [hpeek, hks]; rfl)).2.1 _ _ ha
        rwa [Stream.rest_skip] at hfound
  · change (readConstruct ((Stream.ofLexemes _ ls).skip 13)).isOk = true at hconstruct
    cases hc : readConstruct ((Stream.ofLexemes "W:\n a.b = f(c)\n V(d=1)\n".toList ls).skip 13) with
    | error e => rw [hc] at hconstruct; cases hconstruct
    | ok p =>
        have hnone := (item_told_apart hls (by rw [hpeek, hks]; rfl)).1 _ _ hc
        rwa [Stream.rest_skip] at hnone

end Markup

end LiveUI
