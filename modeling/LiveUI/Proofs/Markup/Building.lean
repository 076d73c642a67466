import LiveUI.Proofs.Markup.LeftHandSides
import LiveUI.Proofs.Markup.RoundTrip
import LiveUI.Proofs.Source.Slices

/-! # Trees built by hand

The steps that build a tree check what the grammar demands, each for its own part. So a tree that was
built step by step can be written, and its text is read as the tree. -/

namespace LiveUI

open Source Source.Reader

/-- A snippet can be written at every bracket depth. -/
theorem Expression.written_of_parse {code : String} {e : Expression}
    (h : Expression.parse code = .ok e) (d : Nat) : e.Written d := by
  rw [Expression.parse] at h
  generalize Text.trimList code.toList = cs at h
  cases htokens : tokenize cs with
  | error x => simp [htokens, bind, Except.bind, Except.mapError] at h
  | ok ls =>
      have hstands : (Stream.ofLexemes cs ls).Stands 0 := remains_of_tokenize htokens
      cases hsnippet : Expression.snippet (Stream.ofLexemes cs ls) with
      | error x =>
          simp [htokens, StateT.run, hsnippet, bind, Except.bind, Except.mapError] at h
      | ok p =>
          have hp : p.1 = e := by
            simpa [htokens, StateT.run, hsnippet, bind, Except.bind, Except.mapError, pure,
              Except.pure] using h
          obtain ⟨e', s, hread, hrest⟩ := bind_eq_ok.1 (show _ = Except.ok (p.1, p.2) from hsnippet)
          obtain ⟨-, -, hwritten⟩ := Expression.read_written hstands hread
          rw [run_remaining] at hrest
          obtain ⟨-, s', -, hrest⟩ := bind_eq_ok.1 hrest
          cases hrest
          rw [← hp, ← Nat.zero_add d]
          exact hwritten d

namespace Markup

/-- A target whose text is read as the target before the operator of an assignment. -/
def Target.InText (t : Target) : Prop :=
  ∃ m c a, Module.parse ("W:\n    " ++ t.text ++ " = 1\n") = .ok m ∧ m.items = [.construct c] ∧
    c.body = [.assignment a] ∧ a.target = t

theorem Target.InText.written {t : Target} (h : t.InText) : t.Written := by
  obtain ⟨m, c, a, hparse, hitems, hbody, rfl⟩ := h
  exact written_of_line hparse hitems hbody

/-! ## Steps -/

inductive Construct.Built : Construct → Prop where
  | new {typeName : String} {c : Construct} (h : Construct.new typeName = .ok c) : Built c
  | argument {c c' : Construct} {code : String} (hc : Built c) (h : c.addArgument code = .ok c') :
      Built c'
  | keyword {c c' : Construct} {name code : String} (hc : Built c)
      (h : c.addKeyword name code = .ok c') : Built c'
  | unpack {c c' : Construct} {name : String} (hc : Built c) (h : c.addUnpack name = .ok c') :
      Built c'
  | capture {c c' : Construct} {name attr : String} (hc : Built c)
      (h : c.addCapture name attr = .ok c') : Built c'
  | child {c child : Construct} (hc : Built c) (hchild : Built child) : Built (c.addChild child)
  | assignment {c : Construct} {a : Assignment} {lhs rhs : String} {op : Operator} (hc : Built c)
      (ha : Assignment.new lhs op rhs = .ok a) (htext : a.target.InText) :
      Built (c.addAssignment a)

inductive Define.Built : Define → Prop where
  | new {name : String} {d : Define} (h : Define.new name = .ok d) : Built d
  | withParameters {name : String} {names defaults : List String} {d : Define}
      (h : Define.withParameters name names defaults = .ok d) : Built d
  | parameter {d d' : Define} {name : String} (hd : Built d) (h : d.addParameter name = .ok d') :
      Built d'
  | default {d d' : Define} {name code : String} (hd : Built d) (h : d.addDefault name code = .ok d') :
      Built d'
  | construct {d : Define} {c : Construct} (hd : Built d) (hc : c.Built) : Built (d.addConstruct c)

/-- The texts that are read as themselves are the names. -/
theorem readsAsName_iff {name : String} : readsAsName name = true ↔ isName name = true := by
  constructor
  · intro h
    unfold readsAsName at h
    split at h
    next => cases h
    next ls htokens =>
      split at h
      next id rest hkinds =>
        obtain ⟨l, ls, rfl, hl, -⟩ := List.map_eq_cons_iff.1 hkinds
        rw [Bool.and_eq_true, beq_iff_eq] at h
        exact (remains_of_tokenize htokens).isName (hl.trans (congrArg Token.ident h.1))
      next => cases h
  · intro h
    obtain ⟨c, hc, hfiller⟩ := starts_of_isName h
    obtain ⟨cs, hname⟩ := List.head?_eq_some_iff.1 hc
    have hspells := spells_word (d := 0) (Target.isWord_of_isName h)
    rw [String.ofList_toList, ofWord_of_isName h, hname] at hspells
    obtain ⟨ls, htokens, hkinds⟩ := lexes_of_spells hfiller nofun (by simp [Token.isLayout]) hspells
    have hself : (name == name) = true := beq_self_eq_true name
    simp only [readsAsName, hname, htokens, hkinds, List.cons_append, List.nil_append, hself]
    rfl

theorem checkName_eq_ok {name name' : String} (h : checkName name = .ok name') :
    name' = name ∧ isName name = true := by
  rw [checkName] at h
  split at h
  next hname => cases h; exact ⟨rfl, readsAsName_iff.1 hname⟩
  next => cases h

theorem steps_eq_ok {α β : Type} {x : Except SyntaxError α} {f : α → Except SyntaxError β} {b : β} :
    (x >>= f) = .ok b ↔ ∃ a, x = .ok a ∧ f a = .ok b := by
  cases x <;> simp [bind, Except.bind]

theorem check_eq_ok {α : Type} {p : Prop} [Decidable p] {e : SyntaxError}
    {r : Except SyntaxError α} {a : α} :
    (if p then (do throw e; r) else r) = .ok a ↔ ¬p ∧ r = .ok a := by
  by_cases hp : p <;> simp [hp, bind, Except.bind, throw, throwThe, MonadExceptOf.throw]

theorem return_eq_ok {α : Type} {a b : α} : (pure a : Except SyntaxError α) = .ok b ↔ a = b := by
  simp [pure, Except.pure]

/-- What is said of the steps that were made and of what they came to holds after all of them, if it
holds before the first and each step preserves it. -/
theorem foldlM_induction {α δ : Type} {step : δ → α → Except SyntaxError δ} {as : List α} {d d' : δ}
    {P : List α → δ → Prop}
    (hstep : ∀ before d a d', P before d → step d a = .ok d' → P (before ++ [a]) d') (hd : P [] d)
    (h : as.foldlM step d = .ok d') : P as d' := by
  suffices hbehind : ∀ before d, P before d → as.foldlM step d = .ok d' → P (before ++ as) d' from
    hbehind [] d hd h
  clear hd h
  induction as with
  | nil =>
      intro before d hd h
      simp only [List.foldlM_nil, return_eq_ok] at h
      rwa [List.append_nil, ← h]
  | cons a as ih =>
      intro before d hd h
      simp only [List.foldlM_cons, steps_eq_ok] at h
      obtain ⟨d₁, h₁, h⟩ := h
      have hrest := ih (before ++ [a]) d₁ (hstep _ _ _ _ hd h₁) h
      rwa [List.append_assoc, List.singleton_append] at hrest

namespace Construct

variable {c c' : Construct} {name attr code : String}

theorem new_eq_ok (h : Construct.new name = .ok c) :
    isName name = true ∧ c = { typeName := name } := by
  simp only [Construct.new, steps_eq_ok, return_eq_ok] at h
  obtain ⟨name', hname, rfl⟩ := h
  obtain ⟨rfl, hname⟩ := checkName_eq_ok hname
  exact ⟨hname, rfl⟩

theorem addArgument_eq_ok (h : c.addArgument code = .ok c') :
    ∃ value, Expression.parse code = .ok value ∧ (Argument.positional value).Follows c.arguments ∧
      c' = { c with arguments := c.arguments ++ [.positional value] } := by
  simp only [Construct.addArgument, check_eq_ok, steps_eq_ok, return_eq_ok] at h
  obtain ⟨hkeyword, value, hvalue, rfl⟩ := h
  exact ⟨value, hvalue, Bool.eq_false_iff.2 hkeyword, rfl⟩

theorem addKeyword_eq_ok (h : c.addKeyword name code = .ok c') :
    ∃ value, isName name = true ∧ Expression.parse code = .ok value ∧
      (Argument.keyword name value).Follows c.arguments ∧
      c' = { c with arguments := c.arguments ++ [.keyword name value] } := by
  simp only [Construct.addKeyword, check_eq_ok, steps_eq_ok, return_eq_ok] at h
  obtain ⟨name', hname, hkeyword, value, hvalue, rfl⟩ := h
  obtain ⟨rfl, hname⟩ := checkName_eq_ok hname
  exact ⟨value, hname, hvalue, Bool.eq_false_iff.2 hkeyword, rfl⟩

theorem addUnpack_eq_ok (h : c.addUnpack name = .ok c') :
    isName name = true ∧ c' = { c with unpack := c.unpack ++ [name] } := by
  simp only [Construct.addUnpack, steps_eq_ok, return_eq_ok] at h
  obtain ⟨name', hname, rfl⟩ := h
  obtain ⟨rfl, hname⟩ := checkName_eq_ok hname
  exact ⟨hname, rfl⟩

theorem addCapture_eq_ok (h : c.addCapture name attr = .ok c') :
    isName name = true ∧ isName attr = true ∧
      c' = { c with captures := c.captures ++ [⟨name, attr⟩] } := by
  simp only [Construct.addCapture, steps_eq_ok, return_eq_ok] at h
  obtain ⟨name', hname, attr', hattr, rfl⟩ := h
  obtain ⟨rfl, hname⟩ := checkName_eq_ok hname
  obtain ⟨rfl, hattr⟩ := checkName_eq_ok hattr
  exact ⟨hname, hattr, rfl⟩

theorem Written.new (h : Construct.new name = .ok c) : c.Written := by
  obtain ⟨hname, rfl⟩ := new_eq_ok h
  refine .intro hname (by simp) ?_ (by simp) (by simp) (by simp) (by simp)
  rintro (_ | _) _ _ h <;> cases h

/-- One more argument that may stand behind the others. -/
theorem Written.append {a : Argument} (hc : c.Written) (ha : a.Written)
    (hfollows : a.Follows c.arguments) : Written { c with arguments := c.arguments ++ [a] } := by
  obtain ⟨hname, harguments, horderly, hunpack, hcaptures, hassignments, hchildren⟩ := hc
  refine .intro hname ?_ (horderly.append hfollows) hunpack hcaptures hassignments hchildren
  simpa [or_imp, forall_and] using ⟨harguments, ha⟩

theorem Written.addArgument (hc : c.Written) (h : c.addArgument code = .ok c') : c'.Written := by
  obtain ⟨value, hvalue, hfollows, rfl⟩ := addArgument_eq_ok h
  exact hc.append (Expression.written_of_parse hvalue 1) hfollows

theorem Written.addKeyword (hc : c.Written) (h : c.addKeyword name code = .ok c') :
    c'.Written := by
  obtain ⟨value, hname, hvalue, hfollows, rfl⟩ := addKeyword_eq_ok h
  exact hc.append ⟨hname, Expression.written_of_parse hvalue 1⟩ hfollows

theorem Written.addUnpack (hc : c.Written) (h : c.addUnpack name = .ok c') : c'.Written := by
  obtain ⟨hname, rfl⟩ := addUnpack_eq_ok h
  obtain ⟨htype, harguments, horderly, hunpack, hcaptures, hassignments, hchildren⟩ := hc
  refine .intro htype harguments horderly ?_ hcaptures hassignments hchildren
  simpa [or_imp, forall_and] using ⟨hunpack, hname⟩

theorem Written.addCapture (hc : c.Written) (h : c.addCapture name attr = .ok c') :
    c'.Written := by
  obtain ⟨hname, hattr, rfl⟩ := addCapture_eq_ok h
  obtain ⟨htype, harguments, horderly, hunpack, hcaptures, hassignments, hchildren⟩ := hc
  refine .intro htype harguments horderly hunpack ?_ hassignments hchildren
  simpa [or_imp, forall_and] using ⟨hcaptures, hname, hattr⟩

theorem Written.addChild {child : Construct} (hc : c.Written) (hchild : child.Written) :
    (c.addChild child).Written := by
  obtain ⟨htype, harguments, horderly, hunpack, hcaptures, hassignments, hchildren⟩ := hc
  refine .intro htype harguments horderly hunpack hcaptures ?_ ?_
  · simpa [Construct.addChild] using hassignments
  · simpa [Construct.addChild, or_imp, forall_and] using ⟨hchildren, hchild⟩

theorem Written.addAssignment {a : Assignment} (hc : c.Written) (ha : a.Written) :
    (c.addAssignment a).Written := by
  obtain ⟨htype, harguments, horderly, hunpack, hcaptures, hassignments, hchildren⟩ := hc
  refine .intro htype harguments horderly hunpack hcaptures ?_ ?_
  · simpa [Construct.addAssignment, or_imp, forall_and] using ⟨hassignments, ha⟩
  · simpa [Construct.addAssignment] using hchildren

end Construct

theorem Assignment.written_of_new {lhs rhs : String} {op : Operator} {a : Assignment}
    (h : Assignment.new lhs op rhs = .ok a) (htext : a.target.InText) : a.Written := by
  simp only [Assignment.new, steps_eq_ok, return_eq_ok] at h
  obtain ⟨target, -, value, hvalue, rfl⟩ := h
  exact ⟨htext.written, Expression.written_of_parse hvalue 0⟩

/-- Whatever was built step by step can be written. -/
theorem Construct.Built.written {c : Construct} (h : c.Built) : c.Written := by
  induction h with
  | new h => exact .new h
  | argument _ h ih => exact ih.addArgument h
  | keyword _ h ih => exact ih.addKeyword h
  | unpack _ h ih => exact ih.addUnpack h
  | capture _ h ih => exact ih.addCapture h
  | child _ _ ih ihchild => exact ih.addChild ihchild
  | assignment _ ha htext ih => exact ih.addAssignment (Assignment.written_of_new ha htext)

namespace Define

variable {d d' : Define} {name code : String}

theorem new_eq_ok (h : Define.new name = .ok d) : isName name = true ∧ d = { name } := by
  simp only [Define.new, steps_eq_ok, return_eq_ok] at h
  obtain ⟨name', hname, rfl⟩ := h
  obtain ⟨rfl, hname⟩ := checkName_eq_ok hname
  exact ⟨hname, rfl⟩

theorem checkParameter_eq_ok {name' : String} (h : d.checkParameter name = .ok name') :
    name' = name ∧ isName name = true ∧ d.parameters.names.contains name = false := by
  simp only [Define.checkParameter, check_eq_ok, steps_eq_ok, return_eq_ok] at h
  obtain ⟨_, hname, hnew, rfl⟩ := h
  obtain ⟨rfl, hname⟩ := checkName_eq_ok hname
  exact ⟨rfl, hname, Bool.eq_false_iff.2 hnew⟩

theorem addParameter_eq_ok (h : d.addParameter name = .ok d') :
    isName name = true ∧ d.parameters.names.contains name = false ∧ d.parameters.defaults = [] ∧
      d' = { d with
        parameters := { d.parameters with names := d.parameters.names ++ [name] } } := by
  simp only [Define.addParameter, check_eq_ok, steps_eq_ok, return_eq_ok] at h
  obtain ⟨name', hname, hdefaults, rfl⟩ := h
  obtain ⟨rfl, hname, hnew⟩ := checkParameter_eq_ok hname
  exact ⟨hname, hnew, by simpa using hdefaults, rfl⟩

theorem addDefault_eq_ok (h : d.addDefault name code = .ok d') :
    ∃ value, isName name = true ∧ d.parameters.names.contains name = false ∧
      Expression.parse code = .ok value ∧ d' = { d with
        parameters := ⟨d.parameters.names ++ [name], d.parameters.defaults ++ [value]⟩ } := by
  simp only [Define.addDefault, steps_eq_ok, return_eq_ok] at h
  obtain ⟨name', hname, value, hvalue, rfl⟩ := h
  obtain ⟨rfl, hname, hnew⟩ := checkParameter_eq_ok hname
  exact ⟨value, hname, hnew, hvalue, rfl⟩

theorem Written.new (h : Define.new name = .ok d) : d.Written := by
  obtain ⟨hname, rfl⟩ := new_eq_ok h
  exact ⟨hname, Parameters.written_nil, by simp⟩

theorem Written.addParameter (hd : d.Written) (h : d.addParameter name = .ok d') :
    d'.Written := by
  obtain ⟨hname, hnew, -, rfl⟩ := addParameter_eq_ok h
  have hnone : ∀ e ∈ ([] : List Expression), e.Written 1 := nofun
  have hparameters := hd.parameters.append hname hnew hnone (Nat.zero_le 1)
  rw [List.append_nil] at hparameters
  exact ⟨hd.name, hparameters, hd.body⟩

theorem Written.addDefault (hd : d.Written) (h : d.addDefault name code = .ok d') :
    d'.Written := by
  obtain ⟨value, hname, hnew, hvalue, rfl⟩ := addDefault_eq_ok h
  have hwritten : ∀ e ∈ [value], e.Written 1 := by
    simpa using Expression.written_of_parse hvalue 1
  exact ⟨hd.name, hd.parameters.append hname hnew hwritten (Nat.le_refl 1), hd.body⟩

theorem Written.addConstruct {c : Construct} (hd : d.Written) (hc : c.Written) :
    (d.addConstruct c).Written := by
  refine ⟨hd.name, hd.parameters, ?_⟩
  simpa [Define.addConstruct, or_imp, forall_and] using ⟨hd.body, hc⟩

theorem Written.withParameters {names defaults : List String}
    (h : Define.withParameters name names defaults = .ok d) : d.Written := by
  simp only [Define.withParameters, check_eq_ok, steps_eq_ok] at h
  obtain ⟨-, d₀, hnew, d₁, hplain, hoptional⟩ := h
  have hd₁ := foldlM_induction (P := fun _ d => d.Written) (fun _ _ _ _ hd h => hd.addParameter h)
    (.new hnew) hplain
  exact foldlM_induction (P := fun _ d => d.Written) (fun _ _ _ _ hd h => hd.addDefault h) hd₁
    hoptional

end Define

theorem Define.Built.written {d : Define} (h : d.Built) : d.Written := by
  induction h with
  | new h => exact .new h
  | withParameters h => exact .withParameters h
  | parameter _ h ih => exact ih.addParameter h
  | default _ h ih => exact ih.addDefault h
  | construct _ hc ih => exact ih.addConstruct hc.written

/-! ## Reading a tree that was built -/

/-- The text of an item that can be written is read as this item alone. -/
theorem Item.Written.parse_text {item : Item} (h : item.Written) :
    ∃ item', Module.parse item.text = .ok ⟨[item']⟩ ∧ (item' == item) = true ∧
      item'.unplaced = item.unplaced := by
  have hmodule : Module.Written ⟨[item]⟩ := by
    intro item' hitem'
    rw [List.mem_singleton.1 hitem']
    exact h
  have htext : Module.text ⟨[item]⟩ = item.text := by
    simp [Module.text]
  obtain ⟨m', hparse, hunplaced⟩ := hmodule.parse_text
  rw [htext] at hparse
  obtain ⟨items⟩ := m'
  obtain ⟨item', rfl, hitem'⟩ : ∃ item', items = [item'] ∧ item'.unplaced = item.unplaced :=
    List.map_eq_singleton_iff.1 (congrArg Module.items hunplaced)
  refine ⟨item', hparse, ?_, hitem'⟩
  rw [← Item.beq_unplaced, hitem', Item.beq_unplaced]
  exact h.beq_self

/-- **Trees built by hand.** A construct or a define that was built step by step is what its text is
read as. -/
theorem built_read_back :
    (∀ c : Construct, c.Built → ∃ c', Module.parse c.text = .ok ⟨[.construct c']⟩ ∧
      (c' == c) = true ∧ c'.unplaced = c.unplaced) ∧
    ∀ d : Define, d.Built → ∃ d', Module.parse d.text = .ok ⟨[.define d']⟩ ∧
      (d' == d) = true ∧ d'.unplaced = d.unplaced := by
  constructor
  · intro c hc
    have hitem : Item.Written (.construct c) := hc.written
    obtain ⟨item, hparse, hbeq, hunplaced⟩ := hitem.parse_text
    cases item with
    | define d => cases hunplaced
    | construct c' => exact ⟨c', hparse, hbeq, Item.construct.inj hunplaced⟩
  · intro d hd
    have hitem : Item.Written (.define d) := hd.written
    obtain ⟨item, hparse, hbeq, hunplaced⟩ := hitem.parse_text
    cases item with
    | construct c => cases hunplaced
    | define d' => exact ⟨d', hparse, hbeq, Item.define.inj hunplaced⟩

/-- A define with a default and one construct, whose assignment has an index. -/
theorem built_read_back_form :
    ∃ d : Define, d.Built ∧
      d.text = "defn Form(n = 1):\n    W:\n        a[0].b << [1, # one\n n]\n" ∧
      ∃ d', Module.parse d.text = .ok ⟨[.define d']⟩ ∧ (d' == d) = true ∧
        d'.unplaced = d.unplaced := by
  have hnew : Define.new "Form" = .ok { name := "Form" } := by cbv
  have hdefault : Define.addDefault { name := "Form" } "n" " 1 # one" =
      .ok { name := "Form", parameters := ⟨["n"], [⟨"1", .int 1, ⟨1, 1⟩⟩]⟩ } := by cbv
  have hconstruct : Construct.new "W" = .ok { typeName := "W" } := by cbv
  have hassignment : Assignment.new "a[-0].b" .bind "[1, # one\n n]" =
      .ok ⟨.element "a" 0 "b", .bind, ⟨"[1, # one\n n]", .list [.int 1, .name "n"], ⟨1, 1⟩⟩, {}⟩ := by
    cbv
  have htext : Target.InText (.element "a" 0 "b") :=
    line_of_parse (List.all_eq_true.1 (by cbv)) (Target.parse_text ⟨by decide, by decide, by decide⟩)
      ⟨by decide, by decide, by decide⟩
  have hbuilt := Define.Built.construct (.default (.new hnew) hdefault)
    (.assignment (.new hconstruct) hassignment htext)
  exact ⟨_, hbuilt, by cbv, built_read_back.2 _ hbuilt⟩

end Markup

end LiveUI
