import LiveUI.Proofs.Source.Streams

/-! # Readers at streams that are alike

Two streams are alike if they show the same tokens and the tokens of a line have the same text. At such
streams a reader gives the same, up to places, or fails for the same cause. -/

namespace LiveUI.Source

namespace Stream

theorem last_skip_succ {n : Nat} {s : Stream} {m : Lexeme} (h : s.rest[n]? = some m) :
    (s.skip (n + 1)).last = some m := by
  induction n generalizing s with
  | zero =>
      cases hrest : s.rest with
      | nil => rw [hrest] at h; cases h
      | cons l ls =>
          rw [hrest] at h
          cases h
          exact last_tail hrest
  | succ n ih =>
      refine ih ?_
      rwa [rest_tail, List.getElem?_tail]

theorem textSince_of_getElem? {n : Nat} {s : Stream} {l m : Lexeme} (hl : s.rest[0]? = some l)
    (hm : s.rest[n]? = some m) :
    (s.skip (n + 1)).textSince s.start = String.ofList (slice s.source l.start m.stop) := by
  have hstart : s.start = l.start := by
    cases hrest : s.rest with
    | nil => rw [hrest] at hl; cases hl
    | cons l' ls =>
        rw [hrest] at hl
        cases hl
        rw [start, hrest]
  rw [textSince, source_skip, stop, last_skip_succ hm, hstart]

theorem exists_getElem? {n : Nat} {s : Stream} (h : n < s.kinds.length) :
    ∃ l, s.rest[n]? = some l := by
  rw [kinds, List.length_map] at h
  exact ⟨_, List.getElem?_eq_getElem h⟩

/-- The streams show the same tokens, and the text from a token to another one on its line is the same. -/
structure Alike (s t : Stream) : Prop where
  kinds : s.kinds = t.kinds
  text : ∀ {i j : Nat} {l l' m m' : Lexeme}, i ≤ j →
    (∀ k, i ≤ k → k ≤ j → s.kinds[k]? ≠ some Token.newline) →
    s.rest[i]? = some l → t.rest[i]? = some l' → s.rest[j]? = some m → t.rest[j]? = some m' →
      slice s.source l.start m.stop = slice t.source l'.start m'.stop

namespace Alike

variable {s t : Stream}

theorem count (h : s.Alike t) : t.count = s.count := by
  rw [t.count_eq_kinds, s.count_eq_kinds, h.kinds]

theorem peek (h : s.Alike t) : t.peek = s.peek := by
  rw [t.peek_eq, s.peek_eq, h.kinds]

theorem peekSecond (h : s.Alike t) : t.peekSecond = s.peekSecond := by
  rw [t.peekSecond_eq, s.peekSecond_eq, h.kinds]

theorem tail (h : s.Alike t) : s.tail.Alike t.tail where
  kinds := by rw [kinds_tail, kinds_tail, h.kinds]
  text {i j l l' m m'} hij hline hl hl' hm hm' := by
    rw [rest_tail, List.getElem?_tail] at hl hl' hm hm'
    rw [source_tail, source_tail]
    refine h.text (Nat.succ_le_succ hij) (fun k hik hkj => ?_) hl hl' hm hm'
    obtain ⟨k, rfl⟩ : ∃ n, k = n + 1 := ⟨k - 1, by omega⟩
    rw [← List.getElem?_tail, ← kinds_tail]
    exact hline k (by omega) (by omega)

theorem skip (h : s.Alike t) (n : Nat) : (s.skip n).Alike (t.skip n) := by
  induction n generalizing s t with
  | zero => exact h
  | succ n ih => exact ih h.tail

/-- Tokens of one line have the same text. -/
theorem textSince_skip (h : s.Alike t) {ks q : List Token} (hs : s.kinds = ks ++ q) (hne : ks ≠ [])
    (hline : .newline ∉ ks) :
    (t.skip ks.length).textSince t.start = (s.skip ks.length).textSince s.start := by
  obtain ⟨k, ks, rfl⟩ := List.exists_cons_of_ne_nil hne
  have hlength : ks.length < s.kinds.length := by
    rw [hs, List.length_append, List.length_cons]
    omega
  obtain ⟨l, hl⟩ := exists_getElem? (Nat.zero_lt_of_lt hlength)
  obtain ⟨m, hm⟩ := exists_getElem? hlength
  rw [h.kinds] at hlength
  obtain ⟨l', hl'⟩ := exists_getElem? (Nat.zero_lt_of_lt hlength)
  obtain ⟨m', hm'⟩ := exists_getElem? hlength
  have htext := h.text (Nat.zero_le _) (fun i _ hi heq => ?_) hl hl' hm hm'
  · rw [List.length_cons, textSince_of_getElem? hl hm, textSince_of_getElem? hl' hm', htext]
  · rw [hs, List.getElem?_append_left (Nat.lt_succ_of_le hi)] at heq
    exact hline (List.mem_of_getElem? heq)

end Alike

end Stream

/-! ## Readers -/

/-- Both runs of readers succeed with results that are related and leave streams that are alike, or both
fail for the same cause. -/
inductive Agrees {α β : Type} (R : α → β → Prop) :
    Except SyntaxError (α × Stream) → Except SyntaxError (β × Stream) → Prop where
  | ok {a : α} {b : β} {s t : Stream} (h : s.Alike t) (hR : R a b) : Agrees R (.ok (a, s)) (.ok (b, t))
  | error {e e' : SyntaxError} (h : e.cause = e'.cause) : Agrees R (.error e) (.error e')

/-- The readers give related results at `s` and at `t`. -/
def Concur {α β : Type} (s t : Stream) (r : Reader α) (r' : Reader β) (R : α → β → Prop) : Prop :=
  Agrees R (r s) (r' t)

/-- The reader sees of a stream nothing but its tokens. -/
def Blind {α : Type} (r : Reader α) : Prop :=
  ∀ s t, s.Alike t → Concur s t r r Eq

namespace Concur

variable {α β α' β' : Type} {s t : Stream} {R : α → β → Prop} {R' : α' → β' → Prop}

theorem pure (h : s.Alike t) {a : α} {b : β} (hR : R a b) : Concur s t (Pure.pure a) (Pure.pure b) R :=
  .ok h hR

theorem failHere (cause : Malformed) :
    Concur s t (Reader.failHere cause) (Reader.failHere cause) R :=
  .error rfl

theorem failBehind (cause : Malformed) :
    Concur s t (Reader.failBehind cause) (Reader.failBehind cause) R :=
  .error rfl

/-- What would come behind a failure does not matter. -/
theorem refuse {γ : Type} (cause : Malformed) {f : γ → Reader α} {f' : γ → Reader β} :
    Concur s t (Reader.failBehind cause >>= f) (Reader.failBehind cause >>= f') R :=
  .error rfl

theorem bind {r : Reader α} {r' : Reader β} {f : α → Reader α'} {f' : β → Reader β'}
    (h : Concur s t r r' R)
    (hf : ∀ a b s' t', s'.Alike t' → R a b → Concur s' t' (f a) (f' b) R') :
    Concur s t (r >>= f) (r' >>= f') R' := by
  change Agrees R' (r s >>= fun p => f p.1 p.2) (r' t >>= fun p => f' p.1 p.2)
  rw [Concur] at h
  generalize r s = x at h ⊢
  generalize r' t = y at h ⊢
  cases h with
  | ok hst hR => exact hf _ _ _ _ hst hR
  | error h => exact .error h

/-- Both readers start with one that sees nothing but tokens. -/
theorem bind_eq {γ : Type} {r : Reader γ} {f : γ → Reader α} {f' : γ → Reader β} (h : Concur s t r r Eq)
    (hf : ∀ a s' t', s'.Alike t' → Concur s' t' (f a) (f' a) R) :
    Concur s t (r >>= f) (r >>= f') R := by
  refine h.bind fun a b s' t' hst hab => ?_
  subst hab
  exact hf a s' t' hst

theorem map {r : Reader α} {r' : Reader β} {g : α → α'} {g' : β → β'} (h : Concur s t r r' R)
    (hg : ∀ a b, R a b → R' (g a) (g' b)) : Concur s t (g <$> r) (g' <$> r') R' := by
  rw [Concur, Reader.run_map, Reader.run_map]
  rw [Concur] at h
  generalize r s = x at h ⊢
  generalize r' t = y at h ⊢
  cases h with
  | ok hst hR => exact .ok hst (hg _ _ hR)
  | error h => exact .error h

theorem peek (h : s.Alike t) {f : Token → Reader α} {f' : Token → Reader β}
    (hf : Concur s t (f s.peek) (f' s.peek) R) :
    Concur s t (Reader.peek >>= f) (Reader.peek >>= f') R := by
  rw [Concur, Reader.run_peek, Reader.run_peek, h.peek]
  exact hf

theorem next (h : s.Alike t) {f : Token → Reader α} {f' : Token → Reader β}
    (hf : s.tail.Alike t.tail → Concur s.tail t.tail (f s.peek) (f' s.peek) R) :
    Concur s t (Reader.next >>= f) (Reader.next >>= f') R := by
  rw [Concur, Reader.run_next, Reader.run_next, h.peek]
  exact hf h.tail

theorem get {f : Stream → Reader α} {f' : Stream → Reader β} (hf : Concur s t (f s) (f' t) R) :
    Concur s t (MonadState.get >>= f) (MonadState.get >>= f') R :=
  hf

theorem remaining (h : s.Alike t) {f : Nat → Reader α} {f' : Nat → Reader β}
    (hf : Concur s t (f s.count) (f' s.count) R) :
    Concur s t (Reader.remaining >>= f) (Reader.remaining >>= f') R := by
  rw [Concur, Reader.run_remaining, Reader.run_remaining, h.count]
  exact hf

end Concur

namespace Blind

theorem pure {α : Type} (a : α) : Blind (Pure.pure a : Reader α) := fun _ _ h => .pure h rfl

theorem bind {α β : Type} {r : Reader α} {f : α → Reader β} (h : Blind r) (hf : ∀ a, Blind (f a)) :
    Blind (r >>= f) := fun s t hst => .bind_eq (h s t hst) fun a => hf a

theorem failHere {α : Type} (cause : Malformed) : Blind (Reader.failHere cause : Reader α) :=
  fun _ _ _ => .failHere cause

theorem failBehind {α : Type} (cause : Malformed) : Blind (Reader.failBehind cause : Reader α) :=
  fun _ _ _ => .failBehind cause

theorem peek : Blind Reader.peek := fun s t h => by
  change Agrees Eq (.ok (s.peek, s)) (.ok (t.peek, t))
  exact .ok h h.peek.symm

theorem next : Blind Reader.next := fun s t h => by
  change Agrees Eq (.ok (s.peek, s.tail)) (.ok (t.peek, t.tail))
  exact .ok h.tail h.peek.symm

theorem remaining : Blind Reader.remaining := fun _ _ h => .ok h h.count.symm

theorem ite {α : Type} {p : Prop} [Decidable p] {r r' : Reader α} (h : Blind r) (h' : Blind r') :
    Blind (if p then r else r') := by
  split
  · exact h
  · exact h'

theorem identifier : Blind Reader.identifier :=
  .bind .next fun k => by
    split
    · exact .pure _
    · exact .failBehind _

theorem exactly (k : Token) : Blind (Reader.exactly k) :=
  .bind .next fun _ => .ite (.pure ()) (.failBehind _)

theorem lineEnd : Blind Reader.lineEnd :=
  .bind .peek fun k => by
    split
    · exact .bind .next fun _ => .pure ()
    · exact .pure ()
    · exact .failHere _

end Blind

end LiveUI.Source
