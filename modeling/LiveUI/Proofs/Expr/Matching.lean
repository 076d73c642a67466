import LiveUI.Proofs.Expr.Deriving

/-! # What can be derived is read

The tokens of a derivation are read as its tree wherever no token behind them goes on with a phrase
of its level. A loop over operators that group to the left has come to the tree on the left when it
meets the next operator, so the induction says of such a level how far its loop has come. -/

namespace LiveUI.Expr

open LiveUI.Source LiveUI.Source.Reader

/-! ## What goes on with a phrase -/

/-- The tokens at the front go on with a phrase of exactly this level. -/
def Level.continues : Level → List Token → Bool
  | .conditional, .ifWord :: _ => true
  | .disjunction, .orWord :: _ => true
  | .conjunction, .andWord :: _ => true
  | .comparison, .equalEqual :: _ | .comparison, .notEqual :: _ | .comparison, .less :: _
  | .comparison, .lessEqual :: _ | .comparison, .greater :: _ | .comparison, .greaterEqual :: _
  | .comparison, .inWord :: _ | .comparison, .notWord :: .inWord :: _ => true
  | .sum, .plus :: _ | .sum, .minus :: _ => true
  | .term, .star :: _ | .term, .slash :: _ | .term, .slashSlash :: _ | .term, .percent :: _ => true
  | .operand, .dot :: _ | .operand, .leftBracket :: _ | .operand, .leftParen :: _ => true
  | .atom, .str _ :: _ => true
  | _, _ => false

/-- The tokens at the front go on with no phrase of the level or of a tighter one. -/
def Level.Ends (l : Level) (q : List Token) : Prop :=
  ∀ l' : Level, l.rank ≤ l'.rank → l'.continues q = false

namespace Level.Ends

variable {l l' : Level} {q : List Token}

theorem tighten (h : l.Ends q) (hl : l.rank ≤ l'.rank) : l'.Ends q :=
  fun l'' hl' => h l'' (Nat.le_trans hl hl')

theorem continues (h : l.Ends q) : l.continues q = false :=
  h l (Nat.le_refl _)

end Level.Ends

/-- A token that no expression goes on with. -/
theorem Level.ends_of_isClosing {k : Token} (hk : k.isClosing = true) (l : Level) (q : List Token) :
    l.Ends (k :: q) := by
  intro l' _
  cases k <;> first | exact absurd hk Bool.false_ne_true | (cases l' <;> rfl)

/-- A closing bracket goes on with nothing. -/
theorem Level.ends_close {l : Level} {close : Token}
    (hclose : close = .rightParen ∨ close = .rightBracket) (q : List Token) :
    l.Ends (close :: q) := by
  intro l' _
  rcases hclose with rfl | rfl <;> cases l' <;> rfl

theorem Level.ends_else (l : Level) (q : List Token) : l.Ends (.elseWord :: q) := by
  intro l' _
  cases l' <;> rfl

theorem Level.ends_if (q : List Token) : Level.disjunction.Ends (.ifWord :: q) := by
  intro l' hl'
  cases l' <;> first | rfl | exact absurd hl' (by decide)

/-- An attribute, an index or a call goes on with no atom. -/
theorem Level.ends_trailer {k : Token} (hk : Level.operand.continues [k] = true) (q : List Token) :
    Level.atom.Ends (k :: q) := by
  intro l' hl'
  cases k <;> first
    | exact absurd hk Bool.false_ne_true
    | cases l' <;> first | rfl | exact absurd hl' (by decide)

/-- An operator goes on with no phrase that is tighter than its own. -/
theorem Level.ends_boolOp (op : BoolOp) (q : List Token) : op.level.tighter.Ends (op.token :: q) := by
  intro l' hl'
  cases op <;> cases l' <;> first | rfl | exact absurd hl' (by decide)

theorem Level.ends_binaryOp (op : BinaryOp) (q : List Token) :
    op.level.tighter.Ends (op.tokens ++ q) := by
  intro l' hl'
  cases op <;> cases l' <;> first | rfl | exact absurd hl' (by decide)

/-! ## Loops -/

/-- With more fuel than there are tokens a loop comes from one expression to another. -/
def Loops (loop : Nat → Expr → Reader Expr) (e : Expr) (s : Stream) (e' : Expr) (s' : Stream) :
    Prop :=
  ∀ n, s.count ≤ n → ∃ n', s'.count ≤ n' ∧ loop n e s = loop n' e' s'

/-- A reader finds the first expression of a loop, and the loop comes to another one. -/
def Enters (first : Reader Expr) (loop : Nat → Expr → Reader Expr) (s : Stream) (e : Expr)
    (s' : Stream) : Prop :=
  ∃ e₀ s₀, first s = .ok (e₀, s₀) ∧ Loops loop e₀ s₀ e s'

section Loops

variable {first : Reader Expr} {loop : Nat → Expr → Reader Expr} {s s' s'' : Stream} {e e' : Expr}

theorem Enters.start (h : first s = .ok (e, s')) : Enters first loop s e s' :=
  ⟨e, s', h, fun n hn => ⟨n, hn, rfl⟩⟩

theorem Enters.turn (h : Enters first loop s e s') (h' : Loops loop e s' e' s'') :
    Enters first loop s e' s'' := by
  obtain ⟨e₀, s₀, hfirst, hloops⟩ := h
  refine ⟨e₀, s₀, hfirst, fun n hn => ?_⟩
  obtain ⟨n₁, hn₁, heq₁⟩ := hloops n hn
  obtain ⟨n₂, hn₂, heq₂⟩ := h' n₁ hn₁
  exact ⟨n₂, hn₂, heq₁.trans heq₂⟩

theorem Enters.finish (h : Enters first loop s e s')
    (hstop : ∀ n, s'.count ≤ n → loop n e s' = .ok (e, s')) :
    (do
      let e ← first
      loop (← remaining) e : Reader Expr) s = .ok (e, s') := by
  obtain ⟨e₀, s₀, hfirst, hloops⟩ := h
  obtain ⟨n, hn, heq⟩ := hloops s₀.count (Nat.le_refl _)
  rw [bind_ok hfirst]
  exact heq.trans (hstop n hn)

end Loops

/-! ## Readers of the levels -/

/-- The reader of a level, with fewer than `depth` levels of nesting in it. -/
def Level.reader (depth : Nat) : Level → Reader Expr
  | conditional => Expr.conditional (depth + 1)
  | disjunction => Expr.disjunction (Expr.conditional depth)
  | conjunction => Expr.conjunction (Expr.conditional depth)
  | negation => Expr.negation (Expr.conditional depth)
  | comparison => Expr.comparison (Expr.conditional depth)
  | sum => Expr.sum (Expr.conditional depth)
  | term => Expr.term (Expr.conditional depth)
  | factor => Expr.factor (Expr.conditional depth)
  | operand => Expr.operand (Expr.conditional depth)
  | atom => Expr.atom (Expr.conditional depth)

theorem Level.reader_parses (depth : Nat) (l : Level) : Parses l (l.reader depth) := by
  have hinner := conditional_parses depth
  cases l with
  | conditional => exact conditional_parses (depth + 1)
  | disjunction => exact disjunction_parses hinner
  | conjunction => exact chained_parses andOp_groups (negation_parses hinner)
  | negation => exact negation_parses hinner
  | comparison => exact comparison_parses hinner
  | sum => exact sum_parses hinner
  | term => exact chained_parses termOp_groups (factor_parses hinner)
  | factor => exact factor_parses hinner
  | operand => exact operand_parses hinner
  | atom => exact atom_parses hinner

/-- The levels that are read by a loop. -/
def Level.isLoop : Level → Bool
  | disjunction | conjunction | sum | term | operand => true
  | _ => false

/-- How far the loop of a level has come; a level without a loop says nothing. -/
def Level.Enters (depth : Nat) : Level → Stream → Expr → Stream → Prop
  | disjunction => Expr.Enters (conjunction.reader depth) (chain (conjunction.reader depth) orOp?)
  | conjunction => Expr.Enters (negation.reader depth) (chain (negation.reader depth) andOp?)
  | sum => Expr.Enters (term.reader depth) (chain (term.reader depth) sumOp?)
  | term => Expr.Enters (factor.reader depth) (chain (factor.reader depth) termOp?)
  | operand => Expr.Enters (atom.reader depth) (trailers (Expr.conditional depth))
  | _ => fun _ _ _ => True

/-- The tokens are read as the phrase wherever they are not gone on with. -/
def Phrase.Read : Phrase → List Token → Prop
  | tree l e, ts => ∀ depth s q, s.kinds = ts ++ q → ts.length ≤ depth →
      (l.tighter.Ends q → l.Enters depth s e (s.skip ts.length)) ∧
        (l.Ends q → l.reader depth s = .ok (e, s.skip ts.length))
  | items es, ts => ∀ close depth n s q, close = .rightParen ∨ close = .rightBracket →
      s.kinds = ts ++ close :: q → ts.length < depth → s.count ≤ n →
        listUntil (conditional depth) close n s = .ok (es, s.skip (ts.length + 1))

/-! ## Turns of a loop -/

section Turns

variable {operand inner : Reader Expr} {op? : Token → Option (Expr → Expr → Expr)} {s : Stream}
  {e : Expr} {q : List Token}

theorem loops_chain {k : Token} {join : Expr → Expr → Expr} {b : Expr} {bs : List Token}
    (hs : s.kinds = k :: (bs ++ q)) (hop : op? k = some join)
    (hb : operand s.tail = .ok (b, s.tail.skip bs.length)) :
    Loops (chain operand op?) e s (join e b) (s.skip (bs.length + 1)) := by
  intro n hn
  obtain ⟨m, rfl, hm⟩ := exists_fuel (k :: bs) (by simp) hs hn
  refine ⟨m, hm, ?_⟩
  rw [chain, run_peek, peek_of_kinds hs, hop]
  change (next >>= _) s = _
  rw [run_next, bind_ok hb, skip_tail]

theorem loops_attr {name : String} (hs : s.kinds = .dot :: .ident name :: q) :
    Loops (trailers inner) e s (.attr e name) (s.skip 2) := by
  intro n hn
  obtain ⟨m, rfl, hm⟩ := exists_fuel [.dot, .ident name] (by simp) hs hn
  refine ⟨m, hm, ?_⟩
  rw [trailers, run_peek, peek_of_kinds hs]
  change (next >>= _) s = _
  rw [run_next, bind_ok (run_identifier (peek_of_kinds (kinds_tail_of hs)))]
  rfl

theorem loops_index {i : Expr} {is : List Token}
    (hs : s.kinds = .leftBracket :: (is ++ .rightBracket :: q))
    (hi : inner s.tail = .ok (i, s.tail.skip is.length)) :
    Loops (trailers inner) e s (.index e i) (s.skip (is.length + 2)) := by
  intro n hn
  obtain ⟨m, rfl, hm⟩ := exists_fuel (q := q) (.leftBracket :: (is ++ [.rightBracket])) (by simp)
    (by simpa using hs) hn
  have hclose : (s.tail.skip is.length).peek = .rightBracket :=
    peek_of_kinds (kinds_skip_of (kinds_tail_of hs))
  refine ⟨m, by simpa using hm, ?_⟩
  rw [trailers, run_peek, peek_of_kinds hs]
  change (next >>= _) s = _
  rw [run_next, bind_ok hi, bind_ok (run_exactly rfl hclose), tail_skip, skip_tail]

theorem loops_call {es : List Expr} {as : List Token}
    (hs : s.kinds = .leftParen :: (as ++ .rightParen :: q))
    (has : ∀ n, s.tail.count ≤ n →
      listUntil inner .rightParen n s.tail = .ok (es, s.tail.skip (as.length + 1))) :
    Loops (trailers inner) e s (.call e es) (s.skip (as.length + 2)) := by
  intro n hn
  obtain ⟨m, rfl, hm⟩ := exists_fuel (q := q) (.leftParen :: (as ++ [.rightParen])) (by simp)
    (by simpa using hs) hn
  refine ⟨m, by simpa using hm, ?_⟩
  rw [trailers, run_peek, peek_of_kinds hs]
  change (next >>= _) s = _
  rw [run_next, run_remaining, bind_ok (has _ (Nat.le_succ _)), skip_tail]

theorem chain_stops (hs : s.kinds = q) (hop : op? (q.headD .eof) = none) (n : Nat) :
    chain operand op? n e s = .ok (e, s) := by
  cases n with
  | zero => rfl
  | succ n =>
      rw [chain, run_peek, s.peek_eq, hs, hop]
      rfl

theorem trailers_stops (hs : s.kinds = q) (hq : Level.operand.continues q = false) (n : Nat) :
    trailers inner n e s = .ok (e, s) := by
  cases n with
  | zero => rfl
  | succ n =>
      rw [trailers, run_peek, s.peek_eq, hs]
      rcases q with _ | ⟨k, q⟩
      · rfl
      · cases k <;> first | rfl | cases hq

end Turns

/-- The operators of a level are tokens that go on with it. -/
theorem op?_eq_none {l : Level} {op? : Token → Option (Expr → Expr → Expr)}
    (h : (l = .disjunction ∧ op? = orOp?) ∨ (l = .conjunction ∧ op? = andOp?) ∨
      (l = .sum ∧ op? = sumOp?) ∨ (l = .term ∧ op? = termOp?)) {q : List Token}
    (hq : l.continues q = false) : op? (q.headD .eof) = none := by
  rcases h with ⟨rfl, rfl⟩ | ⟨rfl, rfl⟩ | ⟨rfl, rfl⟩ | ⟨rfl, rfl⟩ <;>
    · rcases q with _ | ⟨k, q⟩
      · rfl
      · cases k <;> first | rfl | cases hq

section Phrases

variable {l : Level} {depth : Nat} {s : Stream} {e : Expr} {k : Token} {ts q : List Token}

/-- What a level's loop has come to is what its reader gives, where the loop stops. -/
theorem Level.Enters.reader (h : l.Enters depth s e (s.skip ts.length))
    (hloop : l.isLoop = true) (hs : s.kinds = ts ++ q) (hq : l.continues q = false) :
    l.reader depth s = .ok (e, s.skip ts.length) := by
  have hrest := kinds_skip_of hs
  cases l with
  | disjunction => exact Expr.Enters.finish h fun n _ => chain_stops hrest (op?_eq_none (by simp) hq) n
  | conjunction => exact Expr.Enters.finish h fun n _ => chain_stops hrest (op?_eq_none (by simp) hq) n
  | sum => exact Expr.Enters.finish h fun n _ => chain_stops hrest (op?_eq_none (by simp) hq) n
  | term => exact Expr.Enters.finish h fun n _ => chain_stops hrest (op?_eq_none (by simp) hq) n
  | operand => exact Expr.Enters.finish h fun n _ => trailers_stops hrest hq n
  | _ => cases hloop

/-- A loop has come to a tree of the next level. -/
theorem Level.enters_of_tighter (h : l.tighter.reader depth s = .ok (e, s.skip ts.length)) :
    l.Enters depth s e (s.skip ts.length) := by
  cases l with
  | disjunction | conjunction | sum | term | operand => exact .start h
  | _ => trivial

/-! ## Levels without a loop -/

theorem signs_nil (hs : s.kinds = k :: q) (hk : k.opens .operand = true) (n : Nat) :
    signs n s = .ok ([], s) := by
  cases n with
  | zero => rfl
  | succ n =>
      rw [signs, run_peek, peek_of_kinds hs]
      cases k <;> first | rfl | cases hk

theorem negations_zero (hs : s.kinds = k :: q) (hk : k.opens .comparison = true) (n : Nat) :
    negations n s = .ok (0, s) := by
  cases n with
  | zero => rfl
  | succ n =>
      rw [negations, run_peek, peek_of_kinds hs]
      cases k <;> first | rfl | cases hk

theorem comparison?_none (hs : s.kinds = q) (hq : Level.comparison.continues q = false) :
    comparison? s = none := by
  rw [comparison?, s.peek_eq, s.peekSecond_eq, hs]
  rcases q with _ | ⟨k, _ | ⟨k', q⟩⟩
  · rfl
  · cases k <;> first | rfl | cases hq
  · cases k <;> first | rfl | cases hq | (cases k' <;> first | rfl | cases hq)

theorem comparison?_tokens_append {op : BinaryOp} (hop : op.level = .comparison)
    (hs : s.kinds = op.tokens ++ q) : comparison? s = some (op, op.tokens.length) := by
  rw [comparison?, s.peek_eq, s.peekSecond_eq, hs]
  cases op <;> first | rfl | cases hop

theorem factor_sign {inner : Reader Expr} {s' : Stream} (minus : Bool)
    (hs : s.kinds = (if minus then .minus else .plus) :: q)
    (h : factor inner s.tail = .ok (e, s')) :
    factor inner s = .ok (if minus then negated e else e, s') := by
  rw [factor, run_remaining] at h
  obtain ⟨marks, t, hmarks, hrest⟩ := bind_eq_ok.1 h
  obtain ⟨e', t', he', hresult⟩ := bind_eq_ok.1 hrest
  cases hresult
  have hsigns : signs s.count s = .ok (minus :: marks, t) := by
    rw [count_cons hs, signs, run_peek, peek_of_kinds hs]
    cases minus <;>
      · change (next >>= _) s = _
        rw [run_next, bind_ok hmarks]
        rfl
  rw [factor, run_remaining, bind_ok hsigns, bind_ok he']
  rfl

theorem negation_not {inner : Reader Expr} {s' : Stream} (hs : s.kinds = .notWord :: q)
    (h : negation inner s.tail = .ok (e, s')) :
    negation inner s = .ok (.unary .not e, s') := by
  rw [negation, run_remaining] at h
  obtain ⟨n, t, hn, hrest⟩ := bind_eq_ok.1 h
  obtain ⟨e', t', he', hresult⟩ := bind_eq_ok.1 hrest
  cases hresult
  have hnegations : negations s.count s = .ok (n + 1, t) := by
    rw [count_cons hs, negations, run_peek, peek_of_kinds hs]
    change (next >>= _) s = _
    rw [run_next, bind_ok hn]
    rfl
  rw [negation, run_remaining, bind_ok hnegations, bind_ok he']
  rfl

/-- Where no token goes on with a level, its reader gives what that of the next level does. -/
theorem Level.reader_of_tighter (hs : s.kinds = ts ++ q) (hq : l.continues q = false)
    (hderives : Derives (.tree l.tighter e) ts)
    (h : l.tighter.reader depth s = .ok (e, s.skip ts.length)) :
    l.reader depth s = .ok (e, s.skip ts.length) := by
  have hrest := kinds_skip_of hs
  cases l with
  | disjunction | conjunction | sum | term | operand =>
      exact (Level.enters_of_tighter h).reader rfl hs hq
  | atom => exact h
  | conditional =>
      refine (bind_ok h).trans ?_
      rw [run_peek, Stream.peek_eq, hrest]
      rcases q with _ | ⟨k, q⟩
      · rfl
      · cases k <;> first | rfl | cases hq
  | negation =>
      obtain ⟨k, ts, rfl, hk⟩ := hderives.head
      rw [reader, Expr.negation, run_remaining, bind_ok (negations_zero hs hk _)]
      exact bind_ok h
  | comparison =>
      refine (bind_ok h).trans ?_
      rw [run_get, comparison?_none hrest hq]
      rfl
  | factor =>
      obtain ⟨k, ts, rfl, hk⟩ := hderives.head
      rw [reader, Expr.factor, run_remaining, bind_ok (signs_nil hs hk _)]
      exact bind_ok h

/-! ## Derivations -/

/-- A level with a loop is read by coming as far as its tree. -/
theorem Phrase.read_loop (hloop : l.isLoop = true)
    (h : ∀ depth s q, s.kinds = ts ++ q → ts.length ≤ depth → l.tighter.Ends q →
      l.Enters depth s e (s.skip ts.length)) : (tree l e).Read ts :=
  fun depth s q hs hd => ⟨h depth s q hs hd, fun hq =>
    (h depth s q hs hd (hq.tighten l.rank_le_tighter)).reader hloop hs hq.continues⟩

theorem Phrase.read_plain (hloop : l.isLoop = false)
    (h : ∀ depth s q, s.kinds = ts ++ q → ts.length ≤ depth → l.Ends q →
      l.reader depth s = .ok (e, s.skip ts.length)) : (tree l e).Read ts := by
  refine fun depth s q hs hd => ⟨fun _ => ?_, h depth s q hs hd⟩
  cases l <;> trivial

/-- A token that is a tree by itself. -/
theorem Phrase.read_token (h : ∀ depth s, s.peek = k → atom (conditional depth) s = .ok (e, s.tail)) :
    (tree .atom e).Read [k] :=
  read_plain rfl fun depth s _ hs _ _ => h depth s (peek_of_kinds hs)

theorem joinedStrings_eq {ss : List String} (hs : s.kinds = ss.map .str ++ q)
    (hq : Level.atom.continues q = false) {n : Nat} (hn : s.count ≤ n) :
    joinedStrings n s = .ok (String.join ss, s.skip ss.length) := by
  induction ss generalizing s n with
  | nil =>
      cases n with
      | zero => rfl
      | succ n =>
          rw [joinedStrings, run_peek, s.peek_eq, hs]
          rcases q with _ | ⟨k, q⟩
          · rfl
          · cases k <;> first | rfl | cases hq
  | cons v ss ih =>
      have hcount := count_cons hs
      obtain ⟨m, rfl⟩ : ∃ m, n = m + 1 := ⟨n - 1, by omega⟩
      rw [joinedStrings, run_peek, peek_of_kinds hs]
      change (next >>= _) s = _
      rw [run_next, bind_ok (ih (kinds_tail_of hs) (by omega)), String.join_cons]
      rfl

theorem Phrase.read_str (v : String) (ss : List String) :
    (tree .atom (.str (String.join (v :: ss)))).Read ((v :: ss).map .str) := by
  refine read_plain rfl fun depth s q hs _ hq => ?_
  rw [Level.reader, atom, run_next, peek_of_kinds hs]
  change (remaining >>= _) s.tail = _
  rw [run_remaining, bind_ok (joinedStrings_eq (kinds_tail_of hs) hq.continues (Nat.le_refl _)),
    String.join_cons, List.length_map]
  rfl

theorem Phrase.Read.parentheses (h : (tree .conditional e).Read ts) :
    (tree .atom e).Read (.leftParen :: (ts ++ [.rightParen])) := by
  refine read_plain rfl fun depth s q hs hd _ => ?_
  rw [List.length_cons, List.length_append] at hd
  obtain ⟨depth, rfl⟩ : ∃ d, depth = d + 1 := ⟨depth - 1, by omega⟩
  have hs' : s.kinds = .leftParen :: (ts ++ .rightParen :: q) := by simpa using hs
  have hinner := (h depth s.tail _ (kinds_tail_of hs') (by omega)).2 (Level.ends_of_isClosing rfl _ _)
  have hclose := run_exactly rfl (peek_of_kinds (kinds_skip_of (kinds_tail_of hs')))
  rw [Level.reader, atom, run_next, peek_of_kinds hs']
  refine (bind_ok hinner).trans ?_
  rw [bind_ok hclose, tail_skip, skip_tail, List.length_cons, List.length_append]
  rfl

theorem Phrase.Read.list {es : List Expr} (h : (items es).Read ts) :
    (tree .atom (.list es)).Read (.leftBracket :: (ts ++ [.rightBracket])) := by
  refine read_plain rfl fun depth s q hs hd _ => ?_
  rw [List.length_cons, List.length_append] at hd
  have hs' : s.kinds = .leftBracket :: (ts ++ .rightBracket :: q) := by simpa using hs
  have hitems := h .rightBracket depth _ s.tail q (.inr rfl) (kinds_tail_of hs') (by omega)
    (Nat.le_succ _)
  rw [Level.reader, atom, run_next, peek_of_kinds hs']
  change (remaining >>= _) s.tail = _
  rw [run_remaining, bind_ok hitems, skip_tail, List.length_cons, List.length_append]
  rfl

theorem Phrase.Read.attr (h : (tree .operand e).Read ts) (name : String) :
    (tree .operand (.attr e name)).Read (ts ++ [.dot, .ident name]) := by
  refine read_loop rfl fun depth s q hs hd _ => ?_
  rw [List.length_append] at hd ⊢
  have hs' : s.kinds = ts ++ .dot :: .ident name :: q := by simpa using hs
  have hturn := Expr.Enters.turn ((h depth s _ hs' (by omega)).1 (Level.ends_trailer rfl _))
    (loops_attr (kinds_skip_of hs'))
  rwa [← Stream.skip_add] at hturn

theorem Phrase.Read.index {i : Expr} {is : List Token} (h : (tree .operand e).Read ts)
    (hi : (tree .conditional i).Read is) :
    (tree .operand (.index e i)).Read (ts ++ .leftBracket :: (is ++ [.rightBracket])) := by
  refine read_loop rfl fun depth s q hs hd _ => ?_
  simp only [List.length_append, List.length_cons] at hd ⊢
  have hs' : s.kinds = ts ++ .leftBracket :: (is ++ .rightBracket :: q) := by simpa using hs
  have hrest := kinds_skip_of hs'
  obtain ⟨depth, rfl⟩ : ∃ d, depth = d + 1 := ⟨depth - 1, by omega⟩
  have hindex := (hi depth _ _ (kinds_tail_of hrest) (by omega)).2 (Level.ends_close (.inr rfl) q)
  have hturn := Expr.Enters.turn ((h _ s _ hs' (by omega)).1 (Level.ends_trailer rfl _))
    (loops_index hrest hindex)
  rwa [← Stream.skip_add] at hturn

theorem Phrase.Read.call {es : List Expr} {as : List Token} (h : (tree .operand e).Read ts)
    (has : (items es).Read as) :
    (tree .operand (.call e es)).Read (ts ++ .leftParen :: (as ++ [.rightParen])) := by
  refine read_loop rfl fun depth s q hs hd _ => ?_
  simp only [List.length_append, List.length_cons] at hd ⊢
  have hs' : s.kinds = ts ++ .leftParen :: (as ++ .rightParen :: q) := by simpa using hs
  have hrest := kinds_skip_of hs'
  have hitems := fun n => has .rightParen depth n _ q (.inl rfl) (kinds_tail_of hrest) (by omega)
  have hturn := Expr.Enters.turn ((h _ s _ hs' (by omega)).1 (Level.ends_trailer rfl _))
    (loops_call hrest hitems)
  rwa [← Stream.skip_add] at hturn

theorem Phrase.Read.sign (minus : Bool) (h : (tree .factor e).Read ts) :
    (tree .factor (if minus then negated e else e)).Read
      ((if minus then .minus else .plus) :: ts) := by
  refine read_plain rfl fun depth s q hs hd hq => ?_
  rw [List.length_cons] at hd
  exact factor_sign minus hs ((h depth s.tail q (kinds_tail_of hs) (by omega)).2 hq)

theorem Phrase.Read.not (h : (tree .negation e).Read ts) :
    (tree .negation (.unary .not e)).Read (.notWord :: ts) := by
  refine read_plain rfl fun depth s q hs hd hq => ?_
  rw [List.length_cons] at hd
  exact negation_not hs ((h depth s.tail q (kinds_tail_of hs) (by omega)).2 hq)

/-- An operator that groups to the left takes one more turn of the loop. -/
theorem Phrase.Read.chain {op? : Token → Option (Expr → Expr → Expr)} {join : Expr → Expr → Expr}
    {a b : Expr} {as bs : List Token} (hloop : l.isLoop = true)
    (hl : ∀ depth, l.Enters depth =
      Expr.Enters (l.tighter.reader depth) (Expr.chain (l.tighter.reader depth) op?))
    (hop : op? k = some join) (hends : ∀ q, l.tighter.Ends (k :: q))
    (ha : (tree l a).Read as) (hb : (tree l.tighter b).Read bs) :
    (tree l (join a b)).Read (as ++ k :: bs) := by
  refine read_loop hloop fun depth s q hs hd hq => ?_
  simp only [List.length_append, List.length_cons] at hd ⊢
  rw [List.append_assoc] at hs
  have hrest := kinds_skip_of hs
  have hleft := (ha depth s _ hs (by omega)).1 (hends _)
  rw [hl] at hleft ⊢
  have hturn := hleft.turn (loops_chain hrest hop
    ((hb depth _ _ (kinds_tail_of hrest) (by omega)).2 hq))
  rwa [← Stream.skip_add] at hturn

theorem Phrase.Read.boolOp {op : BoolOp} {a b : Expr} {as bs : List Token}
    (ha : (tree op.level a).Read as) (hb : (tree op.level.tighter b).Read bs) :
    (tree op.level (.boolOp op a b)).Read (as ++ op.token :: bs) := by
  cases op with
  | or => exact .chain rfl (fun _ => rfl) rfl (Level.ends_boolOp .or) ha hb
  | and => exact .chain rfl (fun _ => rfl) rfl (Level.ends_boolOp .and) ha hb

theorem Phrase.Read.arithmetic {op : BinaryOp} {a b : Expr} {as bs : List Token}
    (hop : op.level ≠ .comparison) (ha : (tree op.level a).Read as)
    (hb : (tree op.level.tighter b).Read bs) :
    (tree op.level (.binary op a b)).Read (as ++ (op.tokens ++ bs)) := by
  cases op with
  | add => exact .chain rfl (fun _ => rfl) rfl (Level.ends_binaryOp .add) ha hb
  | sub => exact .chain rfl (fun _ => rfl) rfl (Level.ends_binaryOp .sub) ha hb
  | mul => exact .chain rfl (fun _ => rfl) rfl (Level.ends_binaryOp .mul) ha hb
  | div => exact .chain rfl (fun _ => rfl) rfl (Level.ends_binaryOp .div) ha hb
  | floorDiv => exact .chain rfl (fun _ => rfl) rfl (Level.ends_binaryOp .floorDiv) ha hb
  | mod => exact .chain rfl (fun _ => rfl) rfl (Level.ends_binaryOp .mod) ha hb
  | _ => exact absurd rfl hop

theorem Phrase.Read.comparison {op : BinaryOp} {a b : Expr} {as bs : List Token}
    (hop : op.level = .comparison) (ha : (tree .sum a).Read as) (hb : (tree .sum b).Read bs) :
    (tree .comparison (.binary op a b)).Read (as ++ (op.tokens ++ bs)) := by
  refine read_plain rfl fun depth s q hs hd hq => ?_
  simp only [List.length_append] at hd ⊢
  rw [List.append_assoc, List.append_assoc] at hs
  have hends : Level.sum.Ends (op.tokens ++ (bs ++ q)) := by
    have := Level.ends_binaryOp op (bs ++ q)
    rwa [hop] at this
  have hleft := (ha depth s _ hs (by omega)).2 hends
  have hrest := kinds_skip_of hs
  have hbehind := kinds_skip_of hrest
  have hright := (hb depth _ q hbehind (by omega)).2 (hq.tighten (by decide))
  have hend := comparison?_none (kinds_skip_of hbehind) hq.continues
  simp only [← Stream.skip_add, Nat.add_assoc] at hright hend
  have hbehind : (do
      let right ← Expr.sum (conditional depth)
      if (comparison? (← get)).isSome then failHere .chainedComparison
      else return .binary op a right : Reader Expr) (s.skip (as.length + op.tokens.length)) =
      .ok (.binary op a b, s.skip (as.length + (op.tokens.length + bs.length))) := by
    refine (bind_ok hright).trans ?_
    rw [run_get, hend]
    rfl
  refine (bind_ok hleft).trans ?_
  rw [run_get, comparison?_tokens_append hop hrest]
  change (next >>= _) (s.skip as.length) = _
  have hwidth : op.tokens.length = 1 ∨ op.tokens.length = 2 := by
    cases op <;> first | exact .inl rfl | exact .inr rfl
  rcases hwidth with hwidth | hwidth
  · rw [run_next, tail_skip]
    rw [hwidth] at hbehind ⊢
    exact hbehind
  · rw [run_next, tail_skip]
    rw [hwidth] at hbehind ⊢
    change (next >>= _) (s.skip (as.length + 1)) = _
    rw [run_next, tail_skip]
    exact hbehind

theorem Phrase.Read.ifElse {a b c : Expr} {as bs cs : List Token}
    (ha : (tree .disjunction a).Read as) (hb : (tree .disjunction b).Read bs)
    (hc : (tree .conditional c).Read cs) :
    (tree .conditional (.ifElse a b c)).Read (as ++ .ifWord :: (bs ++ .elseWord :: cs)) := by
  refine read_plain rfl fun depth s q hs hd hq => ?_
  simp only [List.length_append, List.length_cons] at hd ⊢
  have hs' : s.kinds = as ++ .ifWord :: (bs ++ .elseWord :: (cs ++ q)) := by simpa using hs
  have hif := kinds_skip_of hs'
  have helse := kinds_skip_of (kinds_tail_of hif)
  obtain ⟨depth, rfl⟩ : ∃ d, depth = d + 1 := ⟨depth - 1, by omega⟩
  have hbody := (ha (depth + 1) s _ hs' (by omega)).2 (Level.ends_if _)
  have htest := (hb (depth + 1) _ _ (kinds_tail_of hif) (by omega)).2 (Level.ends_else _ _)
  have hotherwise := (hc depth _ q (kinds_tail_of helse) (by omega)).2 hq
  refine (bind_ok hbody).trans ?_
  rw [run_peek, peek_of_kinds hif]
  change (next >>= _) (s.skip as.length) = _
  rw [run_next]
  refine (bind_ok htest).trans ?_
  rw [bind_ok (run_exactly rfl (peek_of_kinds helse))]
  refine (bind_ok hotherwise).trans ?_
  simp only [tail_skip, ← Stream.skip_add]
  rw [show as.length + 1 + bs.length + 1 + cs.length =
    as.length + (bs.length + (cs.length + 1) + 1) by omega]
  rfl

/-! ## Items -/

theorem Phrase.read_noItem : (items []).Read [] := by
  intro close depth n s q hclose hs _ hn
  obtain ⟨n, rfl⟩ : ∃ m, n = m + 1 := ⟨n - 1, by rw [count_cons hs] at hn; omega⟩
  have hbare : close.isBare = true := by rcases hclose with rfl | rfl <;> rfl
  rw [listUntil, run_peek, peek_of_kinds hs, if_pos ((Token.beq_iff hbare).2 rfl)]
  rfl

/-- An item of a list is read before what ends it. -/
theorem Phrase.Read.front {close : Token} {n : Nat}
    (h : (tree .conditional e).Read ts) (hderives : Derives (.tree .conditional e) ts)
    (hclose : close = .rightParen ∨ close = .rightBracket) (hs : s.kinds = ts ++ k :: q)
    (hk : Level.conditional.Ends (k :: q)) (hd : ts.length < depth) (hn : s.count ≤ n + 1) :
    (s.skip (ts.length + 1)).count ≤ n ∧
      listUntil (conditional depth) close (n + 1) s = (next >>= fun t => match t with
        | .comma => return e :: (← listUntil (conditional depth) close n)
        | t => if t == close then return [e] else failBehind (.expectedListEnd close t) :
          Reader (List Expr)) (s.skip ts.length) := by
  obtain ⟨depth, rfl⟩ : ∃ d, depth = d + 1 := ⟨depth - 1, by omega⟩
  have hitem := (h depth s _ hs (by omega)).2 hk
  obtain ⟨k', ts', rfl, hopens⟩ := hderives.head
  have hfront : (s.peek == close) = false := by
    rw [peek_of_kinds hs]
    rcases hclose with rfl | rfl <;> cases k' <;> first | rfl | cases hopens
  constructor
  · rw [Stream.count_eq_kinds, ← tail_skip, kinds_tail_of (kinds_skip_of hs)]
    rw [Stream.count_eq_kinds, hs] at hn
    simp only [List.length_append, List.length_cons] at hn
    omega
  · rw [listUntil, run_peek, hfront]
    exact bind_ok hitem

theorem Phrase.Read.lastItem (h : (tree .conditional e).Read ts)
    (hderives : Derives (.tree .conditional e) ts) : (items [e]).Read ts := by
  intro close depth n s q hclose hs hd hn
  obtain ⟨n, rfl⟩ : ∃ m, n = m + 1 := by
    rw [s.count_eq_kinds, hs, List.length_append, List.length_cons] at hn
    exact ⟨n - 1, by omega⟩
  have hlist := (h.front hderives hclose hs (Level.ends_close hclose q) hd hn).2
  rw [hlist, run_next, peek_of_kinds (kinds_skip_of hs), tail_skip]
  rcases hclose with rfl | rfl <;> rfl

theorem Phrase.Read.item {es : List Expr} {rest : List Token} (h : (tree .conditional e).Read ts)
    (hrest : (items es).Read rest) (hderives : Derives (.tree .conditional e) ts) :
    (items (e :: es)).Read (ts ++ .comma :: rest) := by
  intro close depth n s q hclose hs hd hn
  simp only [List.length_append, List.length_cons] at hd ⊢
  obtain ⟨n, rfl⟩ : ∃ m, n = m + 1 := by
    rw [s.count_eq_kinds, hs, List.length_append, List.length_cons] at hn
    exact ⟨n - 1, by omega⟩
  have hs' : s.kinds = ts ++ .comma :: (rest ++ close :: q) := by simpa using hs
  have hd' : ts.length < depth := by omega
  obtain ⟨hcount, hlist⟩ :=
    h.front hderives hclose hs' (Level.ends_of_isClosing rfl _ _) hd' hn
  have hbehind := kinds_skip_of hs'
  rw [hlist, run_next, peek_of_kinds hbehind]
  rw [← tail_skip] at hcount
  refine (bind_ok (hrest close depth n _ q hclose (kinds_tail_of hbehind) (by omega) hcount)).trans ?_
  simp only [tail_skip, ← Stream.skip_add]
  rw [show ts.length + 1 + (rest.length + 1) = ts.length + (rest.length + 1) + 1 by omega]
  rfl

end Phrases

/-- The tokens of a derivation are read as its tree. -/
theorem Derives.read {p : Phrase} {ts : List Token} (h : Derives p ts) : p.Read ts := by
  induction h with
  | int | float | nil | name => exact Phrase.read_token fun depth s hs => by rw [atom, run_next, hs]; rfl
  | bool b =>
      refine Phrase.read_token fun depth s hs => ?_
      rw [atom, run_next, hs]
      cases b <;> rfl
  | str s ss => exact Phrase.read_str s ss
  | parentheses _ ih => exact ih.parentheses
  | list _ ih => exact ih.list
  | attr n _ ih => exact ih.attr n
  | index _ _ ih ihi => exact ih.index ihi
  | call _ _ ih iha => exact ih.call iha
  | plus _ ih => exact ih.sign false
  | minus _ ih => exact ih.sign true
  | arithmetic hop _ _ iha ihb => exact .arithmetic hop iha ihb
  | comparison hop _ _ iha ihb => exact .comparison hop iha ihb
  | not _ ih => exact ih.not
  | boolOp _ _ iha ihb => exact .boolOp iha ihb
  | ifElse _ _ _ iha ihb ihc => exact .ifElse iha ihb ihc
  | loosen h ih =>
      intro depth s q hs hd
      have htighter := (ih depth s q hs hd).2
      exact ⟨fun hq => Level.enters_of_tighter (htighter hq), fun hq =>
        Level.reader_of_tighter hs hq.continues h (htighter (hq.tighten (Level.rank_le_tighter _)))⟩
  | noItem => exact Phrase.read_noItem
  | lastItem h ih => exact ih.lastItem h
  | item h _ ih ihrest => exact ih.item ihrest h

end LiveUI.Expr
