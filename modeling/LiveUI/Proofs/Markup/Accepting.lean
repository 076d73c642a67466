import LiveUI.Proofs.Markup.Rereading

/-! # What is accepted can be written

Every template that is read from a text can be written: its names are names, its lists keep their
order, and its expressions and targets carry texts that are read as they were. The tokens that are
left always stand at the bracket depth that the reader expects. -/

namespace LiveUI

open Source Source.Reader

namespace Source.Stream

variable {s : Stream} {d : Nat} {k : Token}

theorem Stands.tail (h : s.Stands d) : ∃ d', depthAfter d s.peek = some d' ∧ s.tail.Stands d' := by
  rw [Stands] at h
  simp only [Stands, source_tail, rest_tail]
  cases hrest : s.rest with
  | nil =>
      rw [hrest] at h
      refine ⟨d, ?_, h⟩
      rw [peek, hrest]
      rfl
  | cons l ls =>
      rw [hrest] at h
      have hpeek : s.peek = l.token := by rw [peek, hrest]
      rw [hpeek]
      exact Remains.tail h

theorem count_tail (h : s.peek ≠ .eof) : s.tail.count + 1 = s.count :=
  (count_cons (kinds_eq_cons h)).symm

/-- An identifier at the front is a name. -/
theorem Stands.isName {name : String} (h : s.Stands d) (hname : s.peek = .ident name) :
    isName name = true := by
  rw [Stands] at h
  cases hrest : s.rest with
  | nil => rw [peek, hrest] at hname; cases hname
  | cons l ls =>
      rw [peek, hrest] at hname
      rw [hrest] at h
      exact h.isName hname

end Source.Stream

namespace Markup

/-- Whenever `r` succeeds at `s`, it has taken `l` tokens at least and left the stream at bracket
depth `d`, and its result has the property `Q`. -/
def Meets {α : Type} (s : Stream) (r : Reader α) (d l : Nat) (Q : α → Prop) : Prop :=
  ∀ a s', r s = .ok (a, s') → s'.Stands d ∧ s'.count + l ≤ s.count ∧ Q a

namespace Meets

variable {α β : Type} {s : Stream} {r : Reader α} {f : α → Reader β} {d d' l l' : Nat}
  {Q : α → Prop} {R : β → Prop} {k : Token}

theorem pure {a : α} (hs : s.Stands d) (h : Q a) : Meets s (Pure.pure a) d 0 Q := by
  rintro _ _ ⟨⟩
  exact ⟨hs, Nat.le_refl _, h⟩

theorem failHere {cause : Malformed} : Meets s (Reader.failHere cause) d l Q := by
  rintro _ _ ⟨⟩

theorem failBehind {cause : Malformed} : Meets s (Reader.failBehind cause) d l Q := by
  rintro _ _ ⟨⟩

theorem bind (h : Meets s r d l Q)
    (hf : ∀ a s', s'.Stands d → s'.count + l ≤ s.count → Q a → Meets s' (f a) d' l' R) :
    Meets s (r >>= f) d' (l + l') R := by
  intro b s'' hrun
  obtain ⟨a, s', hr, hfa⟩ := bind_eq_ok.1 hrun
  obtain ⟨hs', hcount, ha⟩ := h a s' hr
  obtain ⟨hs'', hcount', hb⟩ := hf a s' hs' hcount ha b s'' hfa
  exact ⟨hs'', by omega, hb⟩

/-- The tokens that are taken behind `r` need not be counted. -/
theorem follow (h : Meets s r d l Q)
    (hf : ∀ a s', s'.Stands d → s'.count + l ≤ s.count → Q a → Meets s' (f a) d' 0 R) :
    Meets s (r >>= f) d' 0 R := by
  intro b s'' hrun
  obtain ⟨hs'', hcount, hb⟩ := bind h hf b s'' hrun
  exact ⟨hs'', by omega, hb⟩

theorem weaken {Q' : α → Prop} (h : Meets s r d l Q) (hl : l' ≤ l) (hQ : ∀ a, Q a → Q' a) :
    Meets s r d l' Q' := by
  intro a s' hr
  obtain ⟨hs', hcount, ha⟩ := h a s' hr
  exact ⟨hs', by omega, hQ a ha⟩

theorem less (h : Meets s r d (l + 1) Q) : Meets s r d l Q :=
  h.weaken (Nat.le_succ l) fun _ h => h

theorem map {g : α → β} (h : Meets s r d l Q) (hg : ∀ a, Q a → R (g a)) :
    Meets s (g <$> r) d l R := by
  intro b s' hrun
  rw [run_map] at hrun
  cases hr : r s with
  | error e => rw [hr] at hrun; cases hrun
  | ok p =>
      rw [hr] at hrun
      cases hrun
      obtain ⟨hs', hcount, ha⟩ := h _ _ hr
      exact ⟨hs', hcount, hg _ ha⟩

theorem peek {f : Token → Reader β} (h : Meets s (f s.peek) d l R) :
    Meets s (Reader.peek >>= f) d l R :=
  h

theorem get {f : Stream → Reader β} (h : Meets s (f s) d l R) : Meets s (MonadState.get >>= f) d l R :=
  h

theorem remaining {f : Nat → Reader β} (h : Meets s (f s.count) d l R) :
    Meets s (Reader.remaining >>= f) d l R :=
  h

/-- Taking a token that is known. -/
theorem next {f : Token → Reader β} {e : Nat} (hs : s.Stands e) (hk : s.peek = k) (heof : k ≠ .eof)
    (hd : depthAfter e k = some d)
    (h : s.tail.Stands d → s.tail.count + 1 = s.count → Meets s.tail (f k) d' l R) :
    Meets s (Reader.next >>= f) d' (l + 1) R := by
  subst hk
  obtain ⟨d₁, hd₁, htail⟩ := hs.tail
  obtain rfl := Option.some.inj (hd₁.symm.trans hd)
  have hcount := Stream.count_tail heof
  intro b s' hrun
  obtain ⟨hs', hle, hb⟩ := h htail hcount b s' hrun
  exact ⟨hs', by omega, hb⟩

/-- A reader that takes nothing. -/
theorem look (h : ∀ a t, r s = .ok (a, t) → t = s ∧ Q a)
    (hf : ∀ a, Q a → Meets s (f a) d l R) : Meets s (r >>= f) d l R := by
  intro b s' hrun
  obtain ⟨a, t, hr, hfa⟩ := bind_eq_ok.1 hrun
  obtain ⟨rfl, ha⟩ := h a t hr
  exact hf a ha b s' hfa

/-- A reader that refuses the token it takes. -/
theorem refuse {f : Token → Reader β} (h : ∀ b t t', f s.peek t ≠ .ok (b, t')) :
    Meets s (Reader.next >>= f) d l R :=
  fun b s' hrun => absurd hrun (h b _ s')

theorem exactly {e : Nat} (hs : s.Stands e) (hbare : k.isBare = true) (heof : k ≠ .eof)
    (hd : depthAfter e k = some d) : Meets s (Reader.exactly k) d 1 fun _ => True := by
  by_cases hk : s.peek = k
  · refine next hs hk heof hd fun htail _ => ?_
    rw [if_pos ((Token.beq_iff hbare).2 rfl)]
    exact .pure htail trivial
  · refine refuse fun b t t' h => ?_
    rw [if_neg (mt (Token.beq_iff hbare).1 hk)] at h
    cases h

/-- Taking a name. -/
theorem named {f : String → Reader β} (hs : s.Stands d)
    (h : ∀ name, isName name = true → s.peek = .ident name → s.tail.Stands d →
      s.tail.count + 1 = s.count → Meets s.tail (f name) d' l R) :
    Meets s (Reader.identifier >>= f) d' (l + 1) R := by
  intro b s' hrun
  obtain ⟨name, t, hr, hfa⟩ := bind_eq_ok.1 hrun
  cases hk : s.peek with
  | ident name' =>
      rw [run_identifier hk] at hr
      cases hr
      have htaken := next (f := f ∘ fun _ => name) hs hk (by simp) rfl (h name (hs.isName hk) hk)
      exact htaken b s' hfa
  | _ =>
      rw [Reader.identifier, run_next, hk] at hr
      cases hr

theorem lineEnd (hs : s.Stands d) : Meets s Reader.lineEnd d 0 fun _ => True := by
  refine peek ?_
  cases hk : s.peek with
  | newline =>
      have hnext : Meets s (Reader.next >>= fun _ => Pure.pure ()) d 1 fun _ => True :=
        next hs hk (by simp) rfl fun htail _ => .pure htail trivial
      exact hnext.less
  | eof => exact .pure hs trivial
  | _ => exact .failHere

theorem read (hs : s.Stands d) : Meets s Expression.read d 1 (·.Written d) := by
  intro e s' h
  obtain ⟨hs', hcount, he⟩ := Expression.read_written hs h
  exact ⟨hs', hcount, he 0⟩

/-- The bracket that ends a list at once. -/
theorem closing {close : Token} (hclose : close = .rightParen ∨ close = .rightBracket)
    (hs : s.Stands 1) {b : β} {r : Reader β} (hb : R b) (h : s.peek ≠ close → Meets s r 0 0 R) :
    Meets s (if s.peek == close then Reader.next >>= fun _ => Pure.pure b else r) 0 0 R := by
  have hbare : close.isBare = true := by rcases hclose with rfl | rfl <;> rfl
  by_cases hk : s.peek = close
  · rw [if_pos ((Token.beq_iff hbare).2 hk)]
    have hnext : Meets s (Reader.next >>= fun _ => Pure.pure b) 0 1 R := by
      rcases hclose with rfl | rfl <;>
        exact next hs hk (by simp) rfl fun htail _ => .pure htail hb
    exact hnext.less
  · rw [if_neg (mt (Token.beq_iff hbare).1 hk)]
    exact h hk

/-- The end of an element of a list in brackets: a comma, or the end of the list. -/
theorem element {f : Bool → Reader β} {close : Token} {bracket : Char}
    (hclose : close = .rightParen ∨ close = .rightBracket) (hs : s.Stands 1)
    (hmore : ∀ s', s'.Stands 1 → s'.count < s.count → Meets s' (f true) d 0 R)
    (hlast : ∀ s', s'.Stands 0 → Meets s' (f false) d 0 R) :
    Meets s (elementEnd close bracket >>= f) d 0 R := by
  have hbare : close.isBare = true := by rcases hclose with rfl | rfl <;> rfl
  have heof : close ≠ .eof := by rcases hclose with rfl | rfl <;> simp
  have hdepth : depthAfter 1 close = some 0 := by rcases hclose with rfl | rfl <;> rfl
  have hend : ∀ more s', elementEnd close bracket s = .ok (more, s') →
      s'.count < s.count ∧ s'.Stands (if more then 1 else 0) := by
    intro more s' h
    obtain ⟨d', hd', htail⟩ := hs.tail
    by_cases hcomma : s.peek = .comma
    · have hcount := Stream.count_tail (s := s) (by simp [hcomma])
      rw [elementEnd, run_next, hcomma] at h
      rw [hcomma] at hd'
      cases h
      cases hd'
      exact ⟨by omega, htail⟩
    · have hother : elementEnd close bracket s = (if s.peek == close then return false
          else Reader.failBehind (.expectedArgumentEnd bracket s.peek) : Reader Bool) s.tail := by
        rw [elementEnd, run_next]
        generalize s.peek = k at hcomma
        cases k <;> first | rfl | exact absurd rfl hcomma
      rw [hother] at h
      by_cases hk : s.peek = close
      · rw [if_pos ((Token.beq_iff hbare).2 hk)] at h
        have hcount := Stream.count_tail (s := s) (hk ▸ heof)
        rw [hk, hdepth] at hd'
        cases h
        cases hd'
        exact ⟨by omega, htail⟩
      · rw [if_neg (mt (Token.beq_iff hbare).1 hk)] at h
        cases h
  intro b s'' hrun
  obtain ⟨more, s', hr, hfa⟩ := bind_eq_ok.1 hrun
  obtain ⟨hcount, hs'⟩ := hend more s' hr
  cases more with
  | true =>
      obtain ⟨hs'', hle, hb⟩ := hmore s' hs' hcount b s'' hfa
      exact ⟨hs'', by omega, hb⟩
  | false =>
      obtain ⟨hs'', hle, hb⟩ := hlast s' hs' b s'' hfa
      exact ⟨hs'', by omega, hb⟩

end Meets

variable {s : Stream} {n : Nat}

/-! ## Lists in brackets -/

theorem Orderly.append {before : List Argument} {a : Argument} (h : Orderly before)
    (ha : a.Follows before) : Orderly (before ++ [a]) := by
  intro before' b after heq
  rcases List.append_eq_append_iff.1 heq with ⟨more, rfl, hrest⟩ | ⟨more, rfl, hrest⟩
  · cases more with
    | nil => cases hrest; simpa using ha
    | cons m more => cases more <;> simp at hrest
  · cases more with
    | nil => cases hrest; simpa using ha
    | cons m more =>
        cases hrest
        exact h before' b more rfl

theorem atKeyword_eq_ok {keyword : Bool} {t : Stream} (h : atKeyword s = .ok (keyword, t)) :
    t = s ∧ (keyword = true → ∃ name, s.peek = .ident name ∧ s.tail.peek = .equal) := by
  have hsecond : s.tail.peek = s.peekSecond := by
    rw [s.tail.peek_eq, s.peekSecond_eq, Stream.kinds_tail]
  rw [hsecond]
  rw [atKeyword, run_get] at h
  cases hk : s.peek with
  | ident name =>
      cases hk' : s.peekSecond with
      | equal => rw [hk, hk'] at h; cases h; exact ⟨rfl, fun _ => ⟨name, rfl, rfl⟩⟩
      | _ => rw [hk, hk'] at h; cases h; exact ⟨rfl, nofun⟩
  | _ => rw [hk] at h; cases h; exact ⟨rfl, nofun⟩

theorem meets_argument {before : List Argument} (hs : s.Stands 1) :
    Meets s (readArgument before) 1 1 fun a => a.Written ∧ a.Follows before := by
  refine .look (fun _ _ => atKeyword_eq_ok) fun keyword hkeyword => ?_
  cases keyword with
  | true =>
      obtain ⟨name, hname, hequal⟩ := hkeyword rfl
      refine .named hs fun name hname _ ht _ => .less <| .next ht hequal (by simp) rfl fun ht' _ =>
        (Meets.read ht').follow fun value t ht'' _ hvalue => ?_
      cases hany : before.any (·.keyword? == some name) with
      | true => exact .failBehind
      | false => exact .pure ht'' ⟨⟨hname, hvalue⟩, hany⟩
  | false =>
      cases hany : before.any (·.keyword?.isSome) with
      | true => exact .failHere
      | false => exact .bind (.read hs) fun value t' ht' _ hvalue => .pure ht' ⟨hvalue, hany⟩

theorem meets_arguments {before : List Argument} (hs : s.Stands 1) (hn : s.count < n)
    (hbefore : ∀ a ∈ before, a.Written) (horderly : Orderly before) :
    Meets s (readArguments n before) 0 0 fun as => (∀ a ∈ as, a.Written) ∧ Orderly as := by
  induction n generalizing s before with
  | zero => exact absurd hn (Nat.not_lt_zero _)
  | succ n ih =>
      refine .peek (.closing (.inl rfl) hs ⟨hbefore, horderly⟩ fun _ => ?_)
      refine (meets_argument hs).follow fun a s' hs' hcount ha => ?_
      have hwritten : ∀ b ∈ before ++ [a], b.Written := by
        simpa [or_imp, forall_and] using ⟨hbefore, ha.1⟩
      refine .element (.inl rfl) hs' (fun t ht hcount' => ?_) fun t ht => ?_
      · exact ih ht (by omega) hwritten (horderly.append ha.2)
      · exact .pure ht ⟨hwritten, horderly.append ha.2⟩

theorem meets_captures (hs : s.Stands 1) (hn : s.count < n) :
    Meets s (readCaptures n) 0 0 fun ps => ∀ p ∈ ps, p.Written := by
  induction n generalizing s with
  | zero => exact absurd hn (Nat.not_lt_zero _)
  | succ n ih =>
      refine .peek (.closing (.inr rfl) hs (by simp) fun _ => ?_)
      refine .less <| .named hs fun name hname _ ht hcount => ?_
      refine (Meets.exactly ht rfl (by simp) rfl).follow fun _ t ht' hcount' _ => ?_
      refine .less <| .named ht' fun attr hattr _ ht'' hcount'' => ?_
      refine .element (.inr rfl) ht'' (fun t' ht' hcount => ?_) fun t' ht' => ?_
      · refine (ih ht' (by omega)).follow fun ps t'' ht'' _ hps => .pure ht'' ?_
        simpa using ⟨⟨hname, hattr⟩, hps⟩
      · exact .pure ht' (by simpa using ⟨hname, hattr⟩)

theorem meets_moreNames (hs : s.Stands 0) :
    Meets s (moreNames n) 0 0 fun names => ∀ name ∈ names, isName name = true := by
  induction n generalizing s with
  | zero => exact .pure hs (by simp)
  | succ n ih =>
      refine .peek ?_
      cases hk : s.peek with
      | comma =>
          refine .less <| .next hs hk (by simp) rfl fun ht _ => ?_
          refine .less <| .named ht fun name hname _ ht' _ => ?_
          refine (ih ht').follow fun names t ht'' _ hnames => .pure ht'' ?_
          simpa using ⟨hname, hnames⟩
      | _ => exact .pure hs (by simp)

/-! ## Parameters -/

theorem Parameters.written_nil : Parameters.Written {} :=
  ⟨List.nodup_nil, by simp, by simp, Nat.le_refl _⟩

/-- One more parameter under a new name. -/
theorem Parameters.Written.append {p : Parameters} {name : String} {es : List Expression}
    (hp : p.Written) (hname : isName name = true) (hnew : p.names.contains name = false)
    (hes : ∀ e ∈ es, e.Written 1) (hlength : es.length ≤ 1) :
    Parameters.Written ⟨p.names ++ [name], p.defaults ++ es⟩ := by
  refine ⟨?_, ?_, ?_, ?_⟩
  · simpa using hp.nodup.concat (by simpa using hnew)
  · simpa [or_imp, forall_and] using ⟨hp.names, hname⟩
  · simpa [or_imp, forall_and] using ⟨hp.defaults, hes⟩
  · have := hp.length
    simp
    omega

theorem meets_default {p : Parameters} {name : String} (hs : s.Stands 1) :
    Meets s (readDefault p name) 1 0 fun es => (∀ e ∈ es, e.Written 1) ∧ es.length ≤ 1 := by
  refine .peek ?_
  by_cases hk : s.peek = .equal
  · rw [if_pos ((Token.beq_iff rfl).2 hk)]
    refine .less <| .next hs hk (by simp) rfl fun ht _ => ?_
    exact (Meets.read ht).follow fun e t ht' _ he => .pure ht' (by simpa using he)
  · rw [if_neg (mt (Token.beq_iff rfl).1 hk)]
    split
    next => exact .pure hs (by simp)
    next => exact .failBehind

theorem meets_parameters {p : Parameters} (hs : s.Stands 1) (hn : s.count < n) (hp : p.Written) :
    Meets s (readParameters n p) 0 0 Parameters.Written := by
  induction n generalizing s p with
  | zero => exact absurd hn (Nat.not_lt_zero _)
  | succ n ih =>
      refine .peek (.closing (.inl rfl) hs hp fun _ => ?_)
      refine .less <| .named hs fun name hname _ ht hcount => ?_
      cases hnew : p.names.contains name with
      | true => exact .failBehind
      | false =>
          refine (meets_default ht).follow fun es t ht' hcount' hes => ?_
          have hwritten := hp.append hname hnew hes.1 hes.2
          refine .element (.inl rfl) ht' (fun t' ht'' hcount'' => ?_) fun t' ht'' => ?_
          · exact ih ht'' (by omega) hwritten
          · exact .pure ht'' hwritten

/-! ## Assignments -/

theorem meets_target {name : String} (hs : s.Stands 0) (hname : s.peek = .ident name)
    (hbinding : hasBinding 0 s.rest = true) : Meets s readTarget 0 1 Target.Written := by
  obtain ⟨used, b, rest, hrest, hb, hused⟩ := exists_binding hbinding
  have hkinds : s.kinds = used.map (·.token) ++ b.token :: rest.map (·.token) := by
    rw [Stream.kinds, hrest, List.map_append, List.map_cons]
  cases used with
  | nil =>
      rw [peek_of_kinds hkinds] at hname
      rw [hname] at hb
      cases hb
  | cons l used =>
      have hl : l.token = .ident name := (peek_of_kinds hkinds).symm.trans hname
      have hstands := hs
      rw [Stream.Stands, hrest] at hstands
      have hplain := hstands.plain (by rw [hl]; rfl)
        (by cases hk : b.token <;> rw [hk] at hb <;> first | rfl | cases hb)
        fun m hm => (hused m (List.mem_cons_of_mem _ hm)).2.2
      obtain ⟨text, d, hspans, hspells, hdepth, hremains⟩ := hstands.spells (by simp) hplain
      have hpassed : ∀ k ∈ (l :: used).map (·.token), k.isBinding = false ∧ k ≠ .eof := by
        simp only [List.forall_mem_map]
        exact fun m hm => ⟨(hused m hm).1, (hused m hm).2.1⟩
      intro t s' hrun
      rw [run_readTarget hrest hspans hpassed hb] at hrun
      cases hparse : Target.parse (String.ofList text) with
      | error e => rw [hparse] at hrun; cases hrun
      | ok t' =>
          rw [hparse] at hrun
          cases hrun
          obtain ⟨hwritten, rfl⟩ := Target.parse_written hparse
            (by rw [String.toList_ofList]; exact hspells 0) (by rw [List.map_cons, hl]; rfl) hdepth
          refine ⟨?_, ?_, hwritten⟩
          · rw [Stream.Stands, Stream.source_skip, Stream.rest_skip, hrest, List.drop_left]
            exact hremains
          · rw [Stream.count_eq, Stream.rest_skip, hrest, List.drop_left, s.count_eq, hrest]
            simp

theorem meets_operator (hs : s.Stands 0) : Meets s readOperator 0 0 fun _ => True := by
  cases hk : s.peek with
  | equal | colonEqual | lessLess | greaterGreater =>
      exact .less <| .next hs hk (by simp) rfl fun ht _ => .pure ht trivial
  | _ => exact .refuse fun b t t' h => by simp [hk] at h; cases h

theorem meets_assignment {name : String} (hs : s.Stands 0) (hname : s.peek = .ident name)
    (hbinding : hasBinding 0 s.rest = true) : Meets s readAssignment 0 1 Assignment.Written := by
  show Meets s readAssignment 0 (1 + 0) Assignment.Written
  refine .get (.bind (meets_target hs hname hbinding) fun target t ht _ htarget => ?_)
  refine (meets_operator ht).follow fun op t' ht' _ _ => ?_
  refine (Meets.read ht').follow fun value t'' ht'' _ hvalue => ?_
  exact (Meets.lineEnd ht'').follow fun _ t₃ ht₃ _ _ => .pure ht₃ ⟨htarget, hvalue⟩

/-! ## Constructs -/

/-- Items of a block that can be written. -/
def ItemsWritten (items : List (BodyItem Construct)) : Prop :=
  (∀ a, .assignment a ∈ items → a.Written) ∧ ∀ c, .child c ∈ items → c.Written

theorem ItemsWritten.nil : ItemsWritten [] :=
  ⟨by simp, by simp⟩

theorem ItemsWritten.cons {item : BodyItem Construct} {items : List (BodyItem Construct)}
    (hitem : ItemsWritten [item]) (hitems : ItemsWritten items) : ItemsWritten (item :: items) := by
  refine ⟨fun a ha => ?_, fun c hc => ?_⟩
  · rcases List.mem_cons.1 ha with rfl | ha
    · exact hitem.1 a List.mem_cons_self
    · exact hitems.1 a ha
  · rcases List.mem_cons.1 hc with rfl | hc
    · exact hitem.2 c List.mem_cons_self
    · exact hitems.2 c hc

section Blocks

variable {inner : Reader Construct} (hinner : ∀ t, t.Stands 0 → Meets t inner 0 1 Construct.Written)
include hinner

theorem meets_items (hs : s.Stands 0) : Meets s (readItems inner n) 0 0 ItemsWritten := by
  induction n generalizing s with
  | zero => exact .pure hs .nil
  | succ n ih =>
      refine .get ?_
      cases hk : s.peek with
      | dedent => exact .less <| .next hs hk (by simp) rfl fun ht _ => .pure ht .nil
      | eof => exact .pure hs .nil
      | pass =>
          refine .less <| .next hs hk (by simp) rfl fun ht _ => ?_
          exact (Meets.lineEnd ht).follow fun _ t ht' _ _ => ih ht'
      | ident name =>
          have hitem : ∀ {r : Reader (BodyItem Construct)}, Meets s r 0 1 (ItemsWritten [·]) →
              Meets s (r >>= fun item => readItems inner n >>= fun items => pure (item :: items))
                0 0 ItemsWritten := by
            intro r hr
            refine hr.follow fun item t ht _ hitem => (ih ht).follow fun items t' ht' _ hitems => ?_
            exact .pure ht' (hitem.cons hitems)
          cases hbinding : hasBinding 0 s.rest with
          | true =>
              refine hitem (r := BodyItem.assignment <$> readAssignment) ?_
              exact (meets_assignment hs hk hbinding).map fun a ha =>
                ⟨by simpa using ha, by simp⟩
          | false =>
              refine hitem (r := BodyItem.child <$> inner) ?_
              exact (hinner s hs).map fun c hc => ⟨by simp, by simpa using hc⟩
      | _ => exact .failHere

theorem meets_block (hs : s.Stands 0) : Meets s (readBlock inner) 0 0 ItemsWritten := by
  refine (Meets.exactly hs rfl (by simp) rfl).follow fun _ t ht _ _ => .peek ?_
  cases hk : t.peek with
  | indent =>
      refine .less <| .next ht hk (by simp) rfl fun ht' _ => ?_
      exact meets_items hinner ht'
  | _ => exact .failHere

theorem meets_constructWith (hs : s.Stands 0) :
    Meets s (readConstructWith inner) 0 1 Construct.Written := by
  refine .get <| .named hs fun typeName htypeName _ ht _ => ?_
  -- the arguments, if there are any
  refine Meets.follow (d := 0) (l := 0) (Q := fun as => (∀ a ∈ as, a.Written) ∧ Orderly as) ?_
    fun as t₁ ht₁ _ has => ?_
  · have hnil : Orderly [] := by rintro (_ | _) _ _ h <;> cases h
    refine .peek ?_
    cases hk : s.tail.peek with
    | leftParen =>
        refine .less <| .next ht hk (by simp) rfl fun ht' _ => .remaining ?_
        exact meets_arguments ht' (Nat.lt_succ_self _) (by simp) hnil
    | _ => exact .pure ht ⟨by simp, hnil⟩
  -- the names for what is built
  refine Meets.follow (d := 0) (l := 0) (Q := fun names => ∀ name ∈ names, isName name = true) ?_
    fun names t₂ ht₂ _ hnames => ?_
  · refine .peek ?_
    cases hk : t₁.peek with
    | arrow =>
        refine .less <| .next ht₁ hk (by simp) rfl fun ht' _ => ?_
        refine .less <| .named ht' fun name hname _ ht'' _ => .remaining ?_
        refine (meets_moreNames ht'').follow fun names t ht _ hnames => .pure ht ?_
        simpa using ⟨hname, hnames⟩
    | _ => exact .pure ht₁ (by simp)
  -- the captures
  refine Meets.follow (d := 0) (l := 0) (Q := fun ps => ∀ p ∈ ps, p.Written) ?_
    fun ps t₃ ht₃ _ hps => ?_
  · refine .peek ?_
    cases hk : t₂.peek with
    | leftBracket =>
        refine .less <| .next ht₂ hk (by simp) rfl fun ht' _ => .remaining ?_
        exact meets_captures ht' (Nat.lt_succ_self _)
    | _ => exact .pure ht₂ (by simp)
  -- the block below the line, or its end
  refine Meets.follow (d := 0) (l := 0) (Q := ItemsWritten) ?_
    fun items t₄ ht₄ _ hitems => .pure ht₄ ?_
  · refine .peek ?_
    cases hk : t₃.peek with
    | colon => exact .less <| .next ht₃ hk (by simp) rfl fun ht' _ => meets_block hinner ht'
    | _ => exact (Meets.lineEnd ht₃).follow fun _ t ht _ _ => .pure ht .nil
  exact .intro htypeName has.1 has.2 hnames hps hitems.1 hitems.2

end Blocks

theorem meets_constructTo (depth : Nat) (hs : s.Stands 0) :
    Meets s (readConstructTo depth) 0 1 Construct.Written := by
  induction depth generalizing s with
  | zero => exact .peek .failHere
  | succ depth ih => exact meets_constructWith (fun _ ht => ih ht) hs

theorem meets_construct (hs : s.Stands 0) : Meets s readConstruct 0 1 Construct.Written :=
  .remaining (meets_constructTo _ hs)

/-! ## Defines and modules -/

theorem meets_body (hs : s.Stands 0) :
    Meets s (readBody n) 0 0 fun body => ∀ c ∈ body, c.Written := by
  induction n generalizing s with
  | zero => exact .pure hs (by simp)
  | succ n ih =>
      refine .peek ?_
      cases hk : s.peek with
      | dedent => exact .less <| .next hs hk (by simp) rfl fun ht _ => .pure ht (by simp)
      | eof => exact .pure hs (by simp)
      | pass =>
          refine .less <| .next hs hk (by simp) rfl fun ht _ => ?_
          exact (Meets.lineEnd ht).follow fun _ t ht' _ _ => ih ht'
      | ident name =>
          refine (meets_construct hs).follow fun c t ht _ hc => ?_
          refine (ih ht).follow fun body t' ht' _ hbody => .pure ht' ?_
          exact List.forall_mem_cons.2 ⟨hc, hbody⟩
      | _ => exact .failHere

theorem meets_define (hs : s.Stands 0) (hk : s.peek = .define) :
    Meets s readDefine 0 0 Define.Written := by
  refine .get <| .less <| .next hs hk (by simp) rfl fun ht _ => ?_
  refine .less <| .named ht fun name hname _ ht₁ _ => ?_
  refine (Meets.exactly ht₁ rfl (by simp) rfl).follow fun _ t₂ ht₂ _ _ => .remaining ?_
  refine (meets_parameters ht₂ (Nat.lt_succ_self _) Parameters.written_nil).follow
    fun p t₃ ht₃ _ hp => ?_
  refine (Meets.exactly ht₃ rfl (by simp) rfl).follow fun _ t₄ ht₄ _ _ => ?_
  refine (Meets.exactly ht₄ rfl (by simp) rfl).follow fun _ t₅ ht₅ _ _ => ?_
  refine (Meets.exactly ht₅ rfl (by simp) rfl).follow fun _ t₆ ht₆ _ _ => .remaining ?_
  exact (meets_body ht₆).follow fun body t₇ ht₇ _ hbody => .pure ht₇ ⟨hname, hp, hbody⟩

theorem meets_module (hs : s.Stands 0) :
    Meets s (readModule n) 0 0 fun items => ∀ item ∈ items, item.Written := by
  induction n generalizing s with
  | zero => exact .pure hs (by simp)
  | succ n ih =>
      refine .peek ?_
      cases hk : s.peek with
      | eof => exact .pure hs (by simp)
      | newline => exact .less <| .next hs hk (by simp) rfl fun ht _ => ih ht
      | define =>
          refine (meets_define hs hk).follow fun d t ht _ hd => ?_
          refine (ih ht).follow fun items t' ht' _ hitems => .pure ht' ?_
          exact List.forall_mem_cons.2 ⟨hd, hitems⟩
      | ident name =>
          refine (meets_construct hs).follow fun c t ht _ hc => ?_
          refine (ih ht).follow fun items t' ht' _ hitems => .pure ht' ?_
          exact List.forall_mem_cons.2 ⟨hc, hitems⟩
      | _ => exact .failHere

/-- Every template that is read from a text can be written. -/
theorem Module.written_of_parse {source : String} {m : Module} (h : Module.parse source = .ok m) :
    m.Written := by
  obtain ⟨ls, t, htokens, hread⟩ := Module.parse_eq_ok.1 h
  have hstands : (Stream.ofLexemes source.toList ls).Stands 0 := remains_of_tokenize htokens
  have hall : Meets (.ofLexemes source.toList ls) readAll 0 0
      fun items => ∀ item ∈ items, item.Written :=
    .remaining (meets_module hstands)
  exact (hall _ _ hread).2.2

end Markup

end LiveUI
