import LiveUI.Proofs.Source.Places
import LiveUI.Source.Stream

/-! # Streams and readers

What a reader sees of a stream are its tokens without their places. A reader that is made of others
is run part by part. -/

namespace LiveUI.Source

/-! ## Tokens -/

/-- The tokens that carry nothing. -/
def Token.isBare : Token → Bool
  | .ident _ | .int _ | .float _ | .str _ => false
  | _ => true

theorem Token.beq_iff {k t : Token} (hk : k.isBare = true) : (t == k) = true ↔ t = k := by
  constructor
  · intro h
    simp only [BEq.beq] at h
    unfold instBEqToken.beq at h
    split at h
    next =>
      split at h <;> first | rfl | cases hk
    next => cases h
  · rintro rfl
    cases t <;> first | rfl | cases hk

/-! ## Streams -/

/-- The tokens that are left, without their places. -/
def Stream.kinds (s : Stream) : List Token :=
  s.rest.map (·.token)

namespace Stream

variable {s : Stream}

theorem count_eq_kinds (s : Stream) : s.count = s.kinds.length := by
  rw [s.count_eq, kinds, List.length_map]

@[simp]
theorem kinds_tail (s : Stream) : s.tail.kinds = s.kinds.tail := by
  rw [kinds, kinds, rest_tail, List.map_tail]

@[simp]
theorem kinds_skip (n : Nat) (s : Stream) : (s.skip n).kinds = s.kinds.drop n := by
  rw [kinds, kinds, rest_skip, List.map_drop]

theorem peek_eq (s : Stream) : s.peek = s.kinds.headD .eof := by
  rw [peek, kinds]
  cases s.rest <;> rfl

theorem peekSecond_eq (s : Stream) : s.peekSecond = s.kinds.tail.headD .eof := by
  rw [peekSecond, kinds]
  rcases s.rest with _ | ⟨_, _ | ⟨_, _⟩⟩ <;> rfl

theorem kinds_eq_cons (h : s.peek ≠ .eof) : s.kinds = s.peek :: s.tail.kinds := by
  rw [peek_eq] at h ⊢
  rw [kinds_tail]
  cases hkinds : s.kinds with
  | nil => simp [hkinds] at h
  | cons k ks => rfl

end Stream

section Streams

variable {s : Stream} {k : Token} {as bs q : List Token}

theorem peek_of_kinds (h : s.kinds = k :: q) : s.peek = k := by
  rw [s.peek_eq, h]
  rfl

theorem kinds_tail_of (h : s.kinds = k :: q) : s.tail.kinds = q := by
  rw [Stream.kinds_tail, h]
  rfl

theorem kinds_skip_of (h : s.kinds = as ++ q) : (s.skip as.length).kinds = q := by
  rw [Stream.kinds_skip, h, List.drop_left]

theorem count_cons (hs : s.kinds = k :: q) : s.count = s.tail.count + 1 := by
  rw [s.count_eq_kinds, s.tail.count_eq_kinds, kinds_tail_of hs, hs, List.length_cons]

/-- A loop has a turn left as long as there are tokens. -/
theorem exists_fuel (ks : List Token) (hne : ks ≠ []) (h : s.kinds = ks ++ q) {n : Nat}
    (hn : s.count ≤ n) : ∃ m, n = m + 1 ∧ (s.skip ks.length).count ≤ m := by
  have hpos := List.length_pos_iff.2 hne
  rw [s.count_eq_kinds, h, List.length_append] at hn
  refine ⟨n - 1, by omega, ?_⟩
  rw [Stream.count_eq_kinds, Stream.kinds_skip, h, List.drop_left]
  omega

/-- The tokens that are taken, with their places. -/
theorem exists_used {s' : Stream} {ks : List Token} (hks : s.kinds = ks ++ s'.kinds)
    (hs' : s' = s.skip ks.length) :
    ∃ used, s.rest = used ++ s'.rest ∧ used.map (·.token) = ks := by
  refine ⟨s.rest.take ks.length, ?_, ?_⟩
  · rw [hs', Stream.rest_skip, List.take_append_drop]
  · rw [List.map_take, ← Stream.kinds, hks, List.take_left]

theorem skip_tail (n : Nat) (s : Stream) : s.tail.skip n = s.skip (n + 1) :=
  rfl

theorem tail_skip (n : Nat) (s : Stream) : (s.skip n).tail = s.skip (n + 1) := by
  rw [Stream.skip_add]
  rfl

end Streams

/-! ## Readers -/

namespace Reader

variable {α β : Type} {s : Stream}

theorem bind_eq_ok {r : Reader α} {f : α → Reader β} {s'' : Stream} {b : β} :
    (r >>= f) s = .ok (b, s'') ↔ ∃ a s', r s = .ok (a, s') ∧ f a s' = .ok (b, s'') := by
  change (r s >>= fun p => f p.1 p.2) = .ok (b, s'') ↔ _
  cases r s with
  | error e => simp [bind, Except.bind]
  | ok p =>
      constructor
      · exact fun h => ⟨p.1, p.2, rfl, h⟩
      · rintro ⟨_, _, ⟨⟩, h⟩
        exact h

theorem bind_ok {r : Reader α} {f : α → Reader β} {s' : Stream} {a : α} (h : r s = .ok (a, s')) :
    (r >>= f) s = f a s' := by
  change (r s >>= fun p => f p.1 p.2) = _
  rw [h]
  rfl

theorem bind_error {r : Reader α} {f : α → Reader β} {e : SyntaxError} (h : r s = .error e) :
    (r >>= f) s = .error e := by
  change (r s >>= fun p => f p.1 p.2) = _
  rw [h]
  rfl

theorem run_map (g : α → β) (r : Reader α) (s : Stream) :
    (g <$> r) s = (r s).map fun p => (g p.1, p.2) := by
  change (r s >>= fun p => Pure.pure (g p.1, p.2)) = _
  cases r s <;> rfl

theorem run_peek (f : Token → Reader β) : (peek >>= f) s = f s.peek s :=
  rfl

theorem run_next (f : Token → Reader β) : (next >>= f) s = f s.peek s.tail :=
  rfl

theorem run_get (f : Stream → Reader β) : (get >>= f) s = f s s :=
  rfl

theorem run_remaining (f : Nat → Reader β) : (remaining >>= f) s = f s.count s :=
  rfl

theorem run_identifier {name : String} (hs : s.peek = .ident name) :
    identifier s = .ok (name, s.tail) := by
  rw [identifier, run_next, hs]
  rfl

theorem run_exactly {k : Token} (hk : k.isBare = true) (hs : s.peek = k) :
    exactly k s = .ok ((), s.tail) := by
  rw [exactly, run_next, hs, if_pos ((Token.beq_iff hk).2 rfl)]
  rfl

theorem run_lineEnd (hs : s.peek = .newline) : lineEnd s = .ok ((), s.tail) := by
  rw [lineEnd, run_peek, hs]
  rfl

theorem peek_of_lineEnd {u : Unit} {s' : Stream} (h : lineEnd s = .ok (u, s')) :
    s.peek = .newline ∨ s.peek = .eof := by
  rw [lineEnd, run_peek] at h
  cases hk : s.peek with
  | newline => exact .inl rfl
  | eof => exact .inr rfl
  | _ => rw [hk] at h; cases h

end Reader

end LiveUI.Source
