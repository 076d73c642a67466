import LiveUI.Proofs.Expr.Blindness
import LiveUI.Proofs.Expr.Snippets
import LiveUI.Proofs.Markup.Giving
import LiveUI.Proofs.Markup.Unplaced

/-! # What the readers of templates do not see

At streams that are alike the same templates are read, up to places: a reader looks at the tokens, and at
the text of an expression or a target, which stands on one line. -/

namespace LiveUI

open Source Source.Reader

variable {s t : Stream}

/-! ## Expressions and targets -/

/-- The two expressions differ in nothing but their place. -/
theorem Expression.concur_read (h : s.Alike t) :
    Concur s t read read fun e e' => e.unplaced = e'.unplaced := by
  have hblind := Expr.blind_conditional (s.count + 1) s t h
  have htakes := Expr.conditional_parses (s.count + 1) s
  have htakes' := Expr.conditional_parses (s.count + 1) t
  refine .get ?_
  rw [h.count]
  change Agrees _ (Expr.conditional (s.count + 1) s >>= fun p =>
    .ok ((⟨p.2.textSince s.start, p.1, s.here⟩ : Expression), p.2))
      (Expr.conditional (s.count + 1) t >>= fun p =>
        .ok ((⟨p.2.textSince t.start, p.1, t.here⟩ : Expression), p.2))
  rw [Concur] at hblind
  rw [Takes] at htakes htakes'
  generalize Expr.conditional (s.count + 1) s = x at hblind htakes ⊢
  generalize Expr.conditional (s.count + 1) t = y at hblind htakes' ⊢
  cases hblind with
  | error h => exact .error h
  | @ok e _ s' t' hst he =>
      subst he
      obtain ⟨ks, hks, rfl, hderives⟩ := htakes _ _ rfl
      obtain ⟨ks', hks', rfl, -⟩ := htakes' _ _ rfl
      obtain rfl : ks' = ks := by
        rw [← hst.kinds, ← h.kinds, hks] at hks'
        exact (List.append_cancel_right hks').symm
      have hne : ks' ≠ [] := by
        obtain ⟨k, q, rfl, -⟩ := hderives.head
        exact List.cons_ne_nil _ _
      have hline : .newline ∉ ks' := fun hmem => by cases hderives.inside _ hmem
      refine .ok hst ?_
      rw [Expression.unplaced, Expression.unplaced, h.textSince_skip hks hne hline]

namespace Markup

theorem hasBinding_kinds {d : Nat} {ls ls' : List Lexeme} (h : ls.map (·.token) = ls'.map (·.token)) :
    hasBinding d ls = hasBinding d ls' := by
  induction ls generalizing d ls' with
  | nil =>
      cases ls' with
      | nil => rfl
      | cons => cases h
  | cons l ls ih =>
      cases ls' with
      | nil => cases h
      | cons l' ls' =>
          obtain ⟨hl, hls⟩ := List.cons.inj h
          simp only [hasBinding, hl, ih hls]

/-- The target of an assignment starts with a name. -/
theorem concur_readTarget (h : s.Alike t) (hbinding : hasBinding 0 s.rest = true)
    {name : String} (hname : s.peek = .ident name) : Concur s t readTarget readTarget Eq := by
  obtain ⟨used, b, rest, hrest, hb, hused⟩ := exists_binding hbinding
  have hkinds : s.kinds = used.map (·.token) ++ b.token :: rest.map (·.token) := by
    rw [Stream.kinds, hrest, List.map_append, List.map_cons]
  obtain ⟨used', b', rest', hrest', hused', hb'⟩ : ∃ used' b' rest', t.rest = used' ++ b' :: rest' ∧
      used'.map (·.token) = used.map (·.token) ∧ b'.token = b.token := by
    rw [h.kinds, Stream.kinds] at hkinds
    obtain ⟨used', tail, hrest', hused', htail⟩ := List.map_eq_append_iff.1 hkinds
    obtain ⟨b', rest', rfl, hb', -⟩ := List.map_eq_cons_iff.1 htail
    exact ⟨used', b', rest', hrest', hused', hb'⟩
  have hskip : ∀ {u : Stream} {used : List Lexeme} {b : Lexeme} {rest : List Lexeme},
      u.rest = used ++ b :: rest → (∀ k ∈ used.map (·.token), k.isBinding = false ∧ k ≠ .eof) →
        b.token.isBinding = true → skipToBinding u.count u = .ok ((), u.skip used.length) := by
    intro u used b rest hu hpassed hb
    refine skipToBinding_eq hu hpassed hb ?_
    rw [u.count_eq, hu, List.length_append]
    exact Nat.le_add_right _ _
  have hpassed : ∀ k ∈ used.map (·.token), k.isBinding = false ∧ k ≠ .eof := by
    simpa using fun l hl => ⟨(hused l hl).1, (hused l hl).2.1⟩
  have hne : used.map (·.token) ≠ [] := by
    intro hnil
    rw [List.map_eq_nil_iff] at hnil
    subst hnil
    rw [Stream.peek, hrest] at hname
    rw [show b.token = .ident name from hname] at hb
    cases hb
  have hline : .newline ∉ used.map (·.token) := by
    simpa using fun l hl => (hused l hl).2.2
  have htext := h.textSince_skip hkinds hne hline
  have hlength : used'.length = used.length := by
    simpa using congrArg List.length hused'
  rw [List.length_map] at htext
  rw [Concur, readTarget, run_get, run_get, bind_ok (hskip hrest hpassed hb),
    bind_ok (hskip hrest' (hused' ▸ hpassed) (hb'.symm ▸ hb)), run_get, run_get, hlength, htext]
  cases Target.parse ((s.skip used.length).textSince s.start) with
  | error e => exact .error rfl
  | ok target => exact .ok (h.skip _) rfl

/-! ## Lists between brackets -/

theorem blind_elementEnd (close : Token) (bracket : Char) : Blind (elementEnd close bracket) := by
  refine .bind .next fun k => ?_
  split
  · exact .pure true
  · exact .ite (.pure false) (.failBehind _)

theorem blind_readCaptures (n : Nat) : Blind (readCaptures n) := by
  induction n with
  | zero => exact .pure []
  | succ n ih =>
      refine .bind .peek fun k => .ite (.bind .next fun _ => .pure []) ?_
      refine .bind .identifier fun name => .bind (.exactly _) fun _ => .bind .identifier fun attr => ?_
      exact .bind (blind_elementEnd _ _) fun more => .ite (.bind ih fun _ => .pure _) (.pure _)

theorem blind_moreNames (n : Nat) : Blind (moreNames n) := by
  induction n with
  | zero => exact .pure []
  | succ n ih =>
      refine .bind .peek fun k => ?_
      split
      · exact .bind .next fun _ => .bind .identifier fun _ => .bind ih fun _ => .pure _
      · exact .pure []

theorem blind_atKeyword : Blind atKeyword := by
  refine fun s t h => .get ?_
  rw [h.peek, h.peekSecond]
  split
  · exact .pure h rfl
  · exact .pure h rfl

theorem blind_readOperator : Blind readOperator := by
  refine .bind .next fun k => ?_
  split
  case h_5 => exact .failBehind _
  all_goals exact .pure _

theorem concur_readArgument (h : s.Alike t) {before before' : List Argument}
    (hbefore : before.map (·.unplaced) = before'.map (·.unplaced)) :
    Concur s t (readArgument before) (readArgument before') fun a b => a.unplaced = b.unplaced := by
  refine .bind_eq (blind_atKeyword s t h) fun keyword s t h => ?_
  cases keyword with
  | true =>
      refine .bind_eq (Blind.identifier s t h) fun name s t h => .next h fun h => ?_
      refine (Expression.concur_read h).bind fun value value' s t h hvalue => ?_
      rw [any_keyword? hbefore (· == some name)]
      split
      · exact .failBehind _
      · exact .pure h (by rw [Argument.unplaced, Argument.unplaced, hvalue])
  | false =>
      rw [if_neg Bool.false_ne_true, if_neg Bool.false_ne_true, any_keyword? hbefore (·.isSome)]
      split
      · exact .failHere _
      · refine (Expression.concur_read h).bind fun value value' s t h hvalue => .pure h ?_
        rw [Argument.unplaced, Argument.unplaced, hvalue]

theorem concur_readArguments (h : s.Alike t) {before before' : List Argument} {n : Nat}
    (hbefore : before.map (·.unplaced) = before'.map (·.unplaced)) :
    Concur s t (readArguments n before) (readArguments n before')
      fun as bs => as.map (·.unplaced) = bs.map (·.unplaced) := by
  induction n generalizing s t before before' with
  | zero => exact .pure h hbefore
  | succ n ih =>
      refine .peek h ?_
      split
      · exact .next h fun h => .pure h hbefore
      refine (concur_readArgument h hbefore).bind fun a b s t h hab => ?_
      have hmore : (before ++ [a]).map (·.unplaced) = (before' ++ [b]).map (·.unplaced) := by
        rw [List.map_append, List.map_append, hbefore, List.map_singleton, hab, List.map_singleton]
      refine .bind_eq (blind_elementEnd _ _ s t h) fun more s t h => ?_
      cases more with
      | true => exact ih h hmore
      | false => exact .pure h hmore

theorem concur_default (h : s.Alike t) {p q : Parameters} (hpq : p.unplaced = q.unplaced)
    (name : String) :
    Concur s t (readDefault p name) (readDefault q name)
      fun es es' => es.map (·.unplaced) = es'.map (·.unplaced) := by
  have hempty : p.defaults.isEmpty = q.defaults.isEmpty := by
    have hlength := congrArg List.length (Parameters.mk.inj hpq).2
    rw [List.length_map, List.length_map] at hlength
    rw [Bool.eq_iff_iff, List.isEmpty_iff_length_eq_zero, List.isEmpty_iff_length_eq_zero, hlength]
  refine .peek h ?_
  rw [hempty]
  split
  · refine .next h fun h => (Expression.concur_read h).bind fun e e' s t h he => .pure h ?_
    rw [List.map_singleton, he, List.map_singleton]
  · split
    · exact .pure h rfl
    · exact .failBehind _

theorem concur_readParameters (h : s.Alike t) {p q : Parameters} {n : Nat}
    (hpq : p.unplaced = q.unplaced) :
    Concur s t (readParameters n p) (readParameters n q) fun p q => p.unplaced = q.unplaced := by
  induction n generalizing s t p q with
  | zero => exact .pure h hpq
  | succ n ih =>
      refine .peek h ?_
      split
      · exact .next h fun h => .pure h hpq
      obtain ⟨hnames, hdefaults⟩ := Parameters.mk.inj hpq
      refine .bind_eq (Blind.identifier s t h) fun name s t h => ?_
      rw [hnames]
      by_cases hnew : q.names.contains name = true
      · rw [if_pos hnew, if_pos hnew]
        exact .refuse _
      rw [if_neg hnew, if_neg hnew]
      refine (concur_default h hpq name).bind fun es es' s t h hes => ?_
      have hmore : Parameters.unplaced ⟨q.names ++ [name], p.defaults ++ es⟩ =
          Parameters.unplaced ⟨q.names ++ [name], q.defaults ++ es'⟩ := by
        simp only [Parameters.unplaced, List.map_append, hdefaults, hes]
      refine .bind_eq (blind_elementEnd _ _ s t h) fun more s t h => ?_
      cases more with
      | true => exact ih h hmore
      | false => exact .pure h hmore

/-! ## Blocks -/

theorem concur_readAssignment (h : s.Alike t) (hbinding : hasBinding 0 s.rest = true)
    {name : String} (hname : s.peek = .ident name) :
    Concur s t readAssignment readAssignment fun a b => a.unplaced = b.unplaced := by
  refine .get (.bind_eq (concur_readTarget h hbinding hname) fun target s t h => ?_)
  refine .bind_eq (blind_readOperator s t h) fun op s t h => ?_
  refine (Expression.concur_read h).bind fun value value' s t h hvalue => ?_
  refine .bind_eq (Blind.lineEnd s t h) fun _ s t h => .pure h ?_
  rw [Assignment.unplaced, Assignment.unplaced, hvalue]

theorem Construct.unplacedBody_cons {x y : BodyItem Construct} {xs ys : List (BodyItem Construct)}
    (h : unplacedItem x = unplacedItem y) (hs : unplacedBody xs = unplacedBody ys) :
    unplacedBody (x :: xs) = unplacedBody (y :: ys) := by
  rw [unplacedBody, unplacedBody, h, hs]

/-- The reader reads the same constructs at streams that are alike. -/
def Concurs (r : Reader Construct) : Prop :=
  ∀ s t, s.Alike t → Concur s t r r fun c d => c.unplaced = d.unplaced

theorem concur_readItems {inner : Reader Construct} (hinner : Concurs inner) {n : Nat}
    (h : s.Alike t) :
    Concur s t (readItems inner n) (readItems inner n)
      fun xs ys => Construct.unplacedBody xs = Construct.unplacedBody ys := by
  induction n generalizing s t with
  | zero => exact .pure h rfl
  | succ n ih =>
      refine .get ?_
      rw [h.peek, ← hasBinding_kinds h.kinds]
      cases hk : s.peek with
      | dedent => exact .next h fun h => .pure h rfl
      | eof => exact .pure h rfl
      | pass => exact .next h fun h => .bind_eq (Blind.lineEnd _ _ h) fun _ s t h => ih h
      | ident name =>
          have hitem : ∀ {r : Reader (BodyItem Construct)},
              Concur s t r r (fun x y => Construct.unplacedItem x = Construct.unplacedItem y) →
              Concur s t (r >>= fun x => readItems inner n >>= fun xs => pure (x :: xs))
                (r >>= fun x => readItems inner n >>= fun xs => pure (x :: xs))
                fun xs ys => Construct.unplacedBody xs = Construct.unplacedBody ys :=
            fun hr => hr.bind fun x y s t h hxy => (ih h).bind fun xs ys s t h hs =>
              .pure h (Construct.unplacedBody_cons hxy hs)
          by_cases hbinding : hasBinding 0 s.rest = true
          · rw [if_pos hbinding]
            refine hitem ((concur_readAssignment h hbinding hk).map fun a b hab => ?_)
            rw [Construct.unplacedItem, Construct.unplacedItem, hab]
          · rw [if_neg hbinding]
            refine hitem ((hinner s t h).map fun c d hcd => ?_)
            rw [Construct.unplacedItem, Construct.unplacedItem, hcd]
      | indent => exact .failHere _
      | _ => exact .failHere _

theorem concur_readBlock {inner : Reader Construct} (hinner : Concurs inner) (h : s.Alike t) :
    Concur s t (readBlock inner) (readBlock inner)
      fun xs ys => Construct.unplacedBody xs = Construct.unplacedBody ys := by
  refine .bind_eq (Blind.exactly _ s t h) fun _ s t h => .peek h ?_
  split
  · exact .next h fun h => .remaining h (concur_readItems hinner h)
  · exact .failHere _

/-! ## Constructs -/

theorem concurs_readConstructWith {inner : Reader Construct} (hinner : Concurs inner) :
    Concurs (readConstructWith inner) := by
  refine fun s t h => .get (.bind_eq (Blind.identifier s t h) fun typeName s t h => ?_)
  refine Concur.bind (R := fun as bs => as.map (·.unplaced) = bs.map (·.unplaced)) (.peek h ?_)
    fun arguments arguments' s t h hargs => ?_
  · split
    · exact .next h fun h => .remaining h (concur_readArguments h rfl)
    · exact .pure h rfl
  refine .bind_eq (Blind.bind .peek (fun k => ?_) s t h) fun unpack s t h => ?_
  · split
    · exact .bind .next fun _ => .bind .identifier fun _ => .bind .remaining fun _ =>
        .bind (blind_moreNames _) fun _ => .pure _
    · exact .pure []
  refine .bind_eq (Blind.bind .peek (fun k => ?_) s t h) fun captures s t h => ?_
  · split
    · exact .bind .next fun _ => .bind .remaining fun _ => blind_readCaptures _
    · exact .pure []
  refine Concur.bind (R := fun xs ys => Construct.unplacedBody xs = Construct.unplacedBody ys)
    (.peek h ?_) fun body body' s t h hbodies => .pure h ?_
  · split
    · exact .next h fun h => concur_readBlock hinner h
    · exact .bind_eq (Blind.lineEnd s t h) fun _ s t h => .pure h rfl
  rw [Construct.unplaced, Construct.unplaced, hargs, hbodies]

theorem concurs_readConstruct : Concurs readConstruct := by
  have hto : ∀ depth, Concurs (readConstructTo depth) := by
    intro depth
    induction depth with
    | zero => exact fun s t h => .peek h (.failHere _)
    | succ depth ih => exact concurs_readConstructWith ih
  exact fun s t h => .remaining h (hto _ s t h)

/-! ## Modules -/

theorem concur_readBody (h : s.Alike t) {n : Nat} :
    Concur s t (readBody n) (readBody n) fun cs ds => cs.map (·.unplaced) = ds.map (·.unplaced) := by
  induction n generalizing s t with
  | zero => exact .pure h rfl
  | succ n ih =>
      refine .peek h ?_
      split
      · exact .next h fun h => .pure h rfl
      · exact .pure h rfl
      · exact .next h fun h => .bind_eq (Blind.lineEnd _ _ h) fun _ s t h => ih h
      · refine (concurs_readConstruct s t h).bind fun c d s t h hcd => (ih h).bind
          fun cs ds s t h hs => .pure h ?_
        rw [List.map_cons, hcd, hs, List.map_cons]
      · exact .failHere _

theorem concur_readDefine (h : s.Alike t) :
    Concur s t readDefine readDefine fun d e => d.unplaced = e.unplaced := by
  refine .get (.next h fun h => .bind_eq (Blind.identifier _ _ h) fun name s t h => ?_)
  refine .bind_eq (Blind.exactly _ s t h) fun _ s t h => .remaining h ?_
  refine (concur_readParameters h rfl).bind fun p q s t h hpq => ?_
  refine .bind_eq (Blind.exactly _ s t h) fun _ s t h => .bind_eq (Blind.exactly _ s t h)
    fun _ s t h => .bind_eq (Blind.exactly _ s t h) fun _ s t h => .remaining h ?_
  refine (concur_readBody h).bind fun body body' s t h hbody => .pure h ?_
  rw [Define.unplaced, Define.unplaced, hpq, hbody]

theorem concur_readModule (h : s.Alike t) {n : Nat} :
    Concur s t (readModule n) (readModule n)
      fun xs ys => xs.map (·.unplaced) = ys.map (·.unplaced) := by
  induction n generalizing s t with
  | zero => exact .pure h rfl
  | succ n ih =>
      refine .peek h ?_
      split
      · exact .pure h rfl
      · exact .next h fun h => ih h
      · refine (concur_readDefine h).bind fun d e s t h hde => (ih h).bind
          fun xs ys s t h hs => .pure h ?_
        rw [List.map_cons, Item.unplaced, hde, hs, List.map_cons, Item.unplaced]
      · refine (concurs_readConstruct s t h).bind fun c d s t h hcd => (ih h).bind
          fun xs ys s t h hs => .pure h ?_
        rw [List.map_cons, Item.unplaced, hcd, hs, List.map_cons, Item.unplaced]
      · exact .failHere _
      · exact .failHere _

theorem concur_readAll (h : s.Alike t) :
    Concur s t readAll readAll fun xs ys => xs.map (·.unplaced) = ys.map (·.unplaced) :=
  .remaining h (concur_readModule h)

end Markup

end LiveUI
