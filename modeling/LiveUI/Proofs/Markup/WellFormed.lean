import LiveUI.Proofs.Markup.Building
import LiveUI.Proofs.Markup.Disambiguation

/-! # Well-formed templates

A template is well-formed at every depth, whether it was read from a text or built step by step: its
names are identifiers, keywords come last and are distinct, as are parameters, and the defaults are
those of the last parameters. -/

namespace LiveUI

open Source Source.Reader

/-! ## Names -/

namespace Source

def reserved : List String :=
  ["defn", "pass", "if", "else", "and", "or", "not", "in", "True", "False", "None"]

/-- The text fits the pattern of identifiers and is not reserved. -/
def IsIdentifier (s : String) : Prop :=
  isWord s.toList = true ∧ s ∉ reserved

theorem ofWord_eq_ident_iff {s : String} : Token.ofWord s = .ident s ↔ s ∉ reserved := by
  unfold Token.ofWord
  split <;> simp_all [reserved]

theorem isName_iff {s : String} : isName s = true ↔ IsIdentifier s := by
  rw [IsIdentifier, ← ofWord_eq_ident_iff]
  constructor
  · exact fun h => ⟨Markup.Target.isWord_of_isName h, Markup.ofWord_of_isName h⟩
  · exact fun h => isName_of_ofWord h.1 h.2

end Source

namespace Markup

/-! ## Templates -/

/-- Positional arguments, and behind them keyword arguments with distinct names. -/
def Arranged (arguments : List Argument) : Prop :=
  ∃ (values : List Expression) (named : List (String × Expression)),
    arguments = values.map .positional ++ named.map (fun p => .keyword p.1 p.2) ∧
      (named.map (·.1)).Nodup

inductive Construct.WellFormed : Construct → Prop where
  | intro {c : Construct} (typeName : IsIdentifier c.typeName) (arguments : Arranged c.arguments)
      (keywords : ∀ p ∈ c.keywords, IsIdentifier p.1)
      (unpack : ∀ name ∈ c.unpack, IsIdentifier name)
      (captures : ∀ p ∈ c.captures, IsIdentifier p.name ∧ IsIdentifier p.attr)
      (children : ∀ child ∈ c.children, WellFormed child) : WellFormed c

/-- Each parameter goes with its default, and only the last ones have one. -/
structure Parameters.WellFormed (p : Parameters) : Prop where
  names : ∀ name ∈ p.names, IsIdentifier name
  nodup : p.names.Nodup
  length : p.defaults.length ≤ p.names.length
  last : p.entries = p.names.zip
    (List.replicate (p.names.length - p.defaults.length) none ++ p.defaults.map some)

structure Define.WellFormed (d : Define) : Prop where
  name : IsIdentifier d.name
  parameters : d.parameters.WellFormed
  body : ∀ c ∈ d.body, c.WellFormed

structure Module.WellFormed (m : Module) : Prop where
  defines : ∀ d ∈ m.defines, d.WellFormed
  constructs : ∀ c ∈ m.constructs, c.WellFormed

/-! ## Arguments -/

theorem Arranged.append {arguments : List Argument} {a : Argument} (h : Arranged arguments)
    (ha : a.Follows arguments) : Arranged (arguments ++ [a]) := by
  obtain ⟨values, named, rfl, hnodup⟩ := h
  cases a with
  | positional value =>
      have hnamed : named = [] := by
        cases named with
        | nil => rfl
        | cons p named => simp [Argument.Follows, Argument.keyword?] at ha
      exact ⟨values ++ [value], [], by simp [hnamed], List.nodup_nil⟩
  | keyword name value =>
      have hdistinct : ∀ other value, (other, value) ∈ named → other ≠ name := by
        simpa [Argument.Follows, Argument.keyword?] using ha
      have hname : name ∉ named.map (·.1) := by
        intro hmem
        obtain ⟨p, hp, heq⟩ := List.mem_map.1 hmem
        exact hdistinct p.1 p.2 hp heq
      exact ⟨values, named ++ [(name, value)], by simp, by simpa using hnodup.concat hname⟩

theorem Orderly.arranged {arguments : List Argument} (h : Orderly arguments) :
    Arranged arguments := by
  -- An argument follows those before it, so they are taken away from the back.
  induction arguments using List.reverseRecOn with
  | nil => exact ⟨[], [], rfl, List.nodup_nil⟩
  | append_singleton arguments a ih =>
      have hbefore : Orderly arguments := fun before b after heq =>
        h before b (after ++ [a]) (by rw [heq, List.append_assoc, List.cons_append])
      exact (ih hbefore).append (h arguments a [] rfl)

/-! ## What can be written is well-formed -/

theorem Construct.Written.wellFormed {c : Construct} (h : c.Written) : c.WellFormed := by
  induction h with
  | @intro c hname harguments horderly hunpack hcaptures _ _ ih =>
      have hunpack' := fun name h => isName_iff.1 (hunpack name h)
      have hcaptures' := fun p h => (hcaptures p h).imp isName_iff.1 isName_iff.1
      refine .intro (isName_iff.1 hname) horderly.arranged ?_ hunpack' hcaptures' ?_
      · intro p hp
        obtain ⟨a, ha, hkeyword⟩ := List.mem_filterMap.1 hp
        cases a with
        | positional value => cases hkeyword
        | keyword name value =>
            cases hkeyword
            exact isName_iff.1 (harguments _ ha).1
      · intro child hchild
        obtain ⟨item, hitem, heq⟩ := List.mem_filterMap.1 hchild
        cases item with
        | assignment a => cases heq
        | child c' =>
            cases heq
            exact ih _ hitem

theorem Parameters.entries_eq_zip {p : Parameters} (h : p.defaults.length ≤ p.names.length) :
    p.entries = p.names.zip
      (List.replicate (p.names.length - p.defaults.length) none ++ p.defaults.map some) :=
  List.zip_of_prod p.map_fst_entries (map_snd_entries h)

theorem Parameters.Written.wellFormed {p : Parameters} (h : p.Written) : p.WellFormed :=
  ⟨fun name hname => isName_iff.1 (h.names name hname), h.nodup, h.length, entries_eq_zip h.length⟩

theorem Define.Written.wellFormed {d : Define} (h : d.Written) : d.WellFormed :=
  ⟨isName_iff.1 h.name, h.parameters.wellFormed, fun c hc => (h.body c hc).wellFormed⟩

theorem Module.Written.wellFormed {m : Module} (h : m.Written) : m.WellFormed := by
  constructor
  · intro d hd
    obtain ⟨item, hitem, heq⟩ := List.mem_filterMap.1 hd
    cases item with
    | construct c => cases heq
    | define d' =>
        cases heq
        exact Define.Written.wellFormed (h _ hitem)
  · intro c hc
    obtain ⟨item, hitem, heq⟩ := List.mem_filterMap.1 hc
    cases item with
    | define d => cases heq
    | construct c' =>
        cases heq
        exact Construct.Written.wellFormed (h _ hitem)

/-! ## Building -/

/-- The steps take the identifiers for names, and no other text. -/
theorem checkName_iff {name : String} : checkName name = .ok name ↔ IsIdentifier name := by
  rw [← isName_iff, ← readsAsName_iff, checkName]
  cases readsAsName name <;> simp

namespace Construct

inductive Produced : Construct → Prop where
  | new {name : String} {c : Construct} (h : Construct.new name = .ok c) : Produced c
  | argument {c c' : Construct} {code : String} (hc : Produced c)
      (h : c.addArgument code = .ok c') : Produced c'
  | keyword {c c' : Construct} {name code : String} (hc : Produced c)
      (h : c.addKeyword name code = .ok c') : Produced c'
  | unpack {c c' : Construct} {name : String} (hc : Produced c) (h : c.addUnpack name = .ok c') :
      Produced c'
  | capture {c c' : Construct} {name attr : String} (hc : Produced c)
      (h : c.addCapture name attr = .ok c') : Produced c'
  | child {c child : Construct} (hc : Produced c) (hchild : Produced child) :
      Produced (c.addChild child)
  | assignment {c : Construct} (hc : Produced c) (a : Assignment) : Produced (c.addAssignment a)

variable {c c' : Construct} {name attr code : String}

theorem WellFormed.new (h : Construct.new name = .ok c) : c.WellFormed := by
  obtain ⟨hname, rfl⟩ := new_eq_ok h
  refine .intro (isName_iff.1 hname) ⟨[], [], rfl, List.nodup_nil⟩ ?_ ?_ ?_ ?_ <;>
    simp [keywords, children]

/-- One more argument that may stand behind the others. -/
theorem WellFormed.append {a : Argument} (hc : c.WellFormed)
    (ha : ∀ name ∈ a.keyword?, isName name = true) (hfollows : a.Follows c.arguments) :
    WellFormed { c with arguments := c.arguments ++ [a] } := by
  obtain ⟨htype, harguments, hkeywords, hunpack, hcaptures, hchildren⟩ := hc
  refine .intro htype (harguments.append hfollows) ?_ hunpack hcaptures hchildren
  cases a with
  | positional value => simpa [keywords] using hkeywords
  | keyword name value =>
      have hname : IsIdentifier name := isName_iff.1 (ha name rfl)
      simpa [keywords, or_imp, forall_and, hname] using hkeywords

theorem WellFormed.addArgument (hc : c.WellFormed) (h : c.addArgument code = .ok c') :
    c'.WellFormed := by
  obtain ⟨value, -, hfollows, rfl⟩ := addArgument_eq_ok h
  exact hc.append nofun hfollows

theorem WellFormed.addKeyword (hc : c.WellFormed) (h : c.addKeyword name code = .ok c') :
    c'.WellFormed := by
  obtain ⟨value, hname, -, hfollows, rfl⟩ := addKeyword_eq_ok h
  refine hc.append ?_ hfollows
  rintro _ ⟨⟩
  exact hname

theorem WellFormed.addUnpack (hc : c.WellFormed) (h : c.addUnpack name = .ok c') :
    c'.WellFormed := by
  obtain ⟨hname, rfl⟩ := addUnpack_eq_ok h
  obtain ⟨htype, harguments, hkeywords, hunpack, hcaptures, hchildren⟩ := hc
  refine .intro htype harguments hkeywords ?_ hcaptures hchildren
  exact List.forall_mem_append.2 ⟨hunpack, List.forall_mem_singleton.2 (isName_iff.1 hname)⟩

theorem WellFormed.addCapture (hc : c.WellFormed) (h : c.addCapture name attr = .ok c') :
    c'.WellFormed := by
  obtain ⟨hname, hattr, rfl⟩ := addCapture_eq_ok h
  obtain ⟨htype, harguments, hkeywords, hunpack, hcaptures, hchildren⟩ := hc
  refine .intro htype harguments hkeywords hunpack ?_ hchildren
  refine List.forall_mem_append.2 ⟨hcaptures, List.forall_mem_singleton.2 ?_⟩
  exact ⟨isName_iff.1 hname, isName_iff.1 hattr⟩

theorem children_addChild (c child : Construct) :
    (c.addChild child).children = c.children ++ [child] := by
  simp [Construct.addChild, children]

theorem children_addAssignment (c : Construct) (a : Assignment) :
    (c.addAssignment a).children = c.children := by
  simp [Construct.addAssignment, children]

theorem WellFormed.addChild {child : Construct} (hc : c.WellFormed) (hchild : child.WellFormed) :
    (c.addChild child).WellFormed := by
  obtain ⟨htype, harguments, hkeywords, hunpack, hcaptures, hchildren⟩ := hc
  refine .intro htype harguments hkeywords hunpack hcaptures ?_
  rw [children_addChild]
  exact List.forall_mem_append.2 ⟨hchildren, List.forall_mem_singleton.2 hchild⟩

theorem WellFormed.addAssignment (hc : c.WellFormed) (a : Assignment) :
    (c.addAssignment a).WellFormed := by
  obtain ⟨htype, harguments, hkeywords, hunpack, hcaptures, hchildren⟩ := hc
  refine .intro htype harguments hkeywords hunpack hcaptures ?_
  rwa [children_addAssignment]

theorem Produced.wellFormed (h : c.Produced) : c.WellFormed := by
  induction h with
  | new h => exact .new h
  | argument _ h ih => exact ih.addArgument h
  | keyword _ h ih => exact ih.addKeyword h
  | unpack _ h ih => exact ih.addUnpack h
  | capture _ h ih => exact ih.addCapture h
  | child _ _ ih ihchild => exact ih.addChild ihchild
  | assignment _ a ih => exact ih.addAssignment a

end Construct

/-! ### Parameters -/

/-- The text of a default was read as the value that a parameter has, where a default is given. -/
def Parameters.Gives (given : List (String × Option String)) (p : Parameters) : Prop :=
  List.Forall₂ (fun entry g => entry.1 = g.1 ∧
    Option.Rel (fun value code => Expression.parse code = .ok value) entry.2 g.2) p.entries given

theorem Parameters.length_append {p : Parameters} (h : p.defaults.length ≤ p.names.length)
    (name : String) (default? : Option Expression) :
    (p.defaults ++ default?.toList).length ≤ (p.names ++ [name]).length := by
  cases default? <;> simp <;> omega

/-- One more parameter, without a default only where there is none yet. -/
theorem Parameters.entries_append {p : Parameters} (h : p.defaults.length ≤ p.names.length)
    (name : String) {default? : Option Expression} (hdefault : default? = none → p.defaults = []) :
    Parameters.entries ⟨p.names ++ [name], p.defaults ++ default?.toList⟩ =
      p.entries ++ [(name, default?)] := by
  have hlast : List.replicate ((p.names ++ [name]).length - (p.defaults ++ default?.toList).length)
        none ++ (p.defaults ++ default?.toList).map some =
      (List.replicate (p.names.length - p.defaults.length) none ++ p.defaults.map some) ++
        [default?] := by
    cases default? with
    | none => simp [hdefault rfl, List.replicate_succ']
    | some value => simp
  rw [entries_eq_zip h, entries_eq_zip (length_append h name default?), hlast,
    List.zip_append (by simp; omega)]
  rfl

namespace Define

/-- The defines that are built step by step, with the parameters that were given and the texts of
their defaults. -/
inductive Produced : List (String × Option String) → Define → Prop where
  | new {name : String} {d : Define} (h : Define.new name = .ok d) : Produced [] d
  | withParameters {name : String} {names defaults : List String} {d : Define}
      (h : Define.withParameters name names defaults = .ok d) :
      Produced (names.zip
        (List.replicate (names.length - defaults.length) none ++ defaults.map some)) d
  | parameter {given : List (String × Option String)} {d d' : Define} {name : String}
      (hd : Produced given d) (h : d.addParameter name = .ok d') :
      Produced (given ++ [(name, none)]) d'
  | default {given : List (String × Option String)} {d d' : Define} {name code : String}
      (hd : Produced given d) (h : d.addDefault name code = .ok d') :
      Produced (given ++ [(name, some code)]) d'
  | construct {given : List (String × Option String)} {d : Define} {c : Construct}
      (hd : Produced given d) (hc : c.Produced) : Produced given (d.addConstruct c)

/-- A well-formed define with the parameters that were given. -/
structure Holds (given : List (String × Option String)) (d : Define) : Prop where
  wellFormed : d.WellFormed
  gives : d.parameters.Gives given

variable {given : List (String × Option String)} {d d' : Define} {name code : String}

theorem Holds.new (h : Define.new name = .ok d) : Holds [] d := by
  obtain ⟨hname, rfl⟩ := new_eq_ok h
  exact ⟨⟨isName_iff.1 hname, Parameters.written_nil.wellFormed, by simp⟩, .nil⟩

/-- One more parameter under a new name. -/
theorem Holds.append {code? : Option String} (hd : Holds given d) (hname : isName name = true)
    (hnew : d.parameters.names.contains name = false) (default? : Option Expression)
    (hdefault : default? = none → d.parameters.defaults = [])
    (hcode : Option.Rel (fun value code => Expression.parse code = .ok value) default? code?) :
    Holds (given ++ [(name, code?)]) { d with
      parameters := ⟨d.parameters.names ++ [name], d.parameters.defaults ++ default?.toList⟩ } := by
  obtain ⟨⟨hdname, ⟨hnames, hnodup, hlength, -⟩, hbody⟩, hgives⟩ := hd
  have hlength' := Parameters.length_append hlength name default?
  refine ⟨⟨hdname, ⟨?_, ?_, hlength', Parameters.entries_eq_zip hlength'⟩, hbody⟩, ?_⟩
  · exact List.forall_mem_append.2 ⟨hnames, List.forall_mem_singleton.2 (isName_iff.1 hname)⟩
  · simpa using hnodup.concat (by simpa using hnew)
  · rw [Parameters.Gives, Parameters.entries_append hlength name hdefault]
    exact List.rel_append hgives (.cons ⟨rfl, hcode⟩ .nil)

theorem Holds.addParameter (hd : Holds given d) (h : d.addParameter name = .ok d') :
    Holds (given ++ [(name, none)]) d' := by
  obtain ⟨hname, hnew, hdefaults, rfl⟩ := addParameter_eq_ok h
  have happend := hd.append hname hnew none (fun _ => hdefaults) .none
  rwa [Option.toList_none, List.append_nil] at happend

theorem Holds.addDefault (hd : Holds given d) (h : d.addDefault name code = .ok d') :
    Holds (given ++ [(name, some code)]) d' := by
  obtain ⟨value, hname, hnew, hvalue, rfl⟩ := addDefault_eq_ok h
  exact hd.append hname hnew (some value) nofun (.some hvalue)

theorem Holds.addConstruct {c : Construct} (hd : Holds given d) (hc : c.WellFormed) :
    Holds given (d.addConstruct c) := by
  refine ⟨⟨hd.wellFormed.name, hd.wellFormed.parameters, ?_⟩, hd.gives⟩
  exact List.forall_mem_append.2 ⟨hd.wellFormed.body, List.forall_mem_singleton.2 hc⟩

/-- The defaults are given to the last names. -/
theorem zip_last {names defaults : List String} (h : defaults.length ≤ names.length) :
    names.zip (List.replicate (names.length - defaults.length) none ++ defaults.map some) =
      (names.take (names.length - defaults.length)).map (fun name => (name, none)) ++
        ((names.drop (names.length - defaults.length)).zip defaults).map
          fun p => (p.1, some p.2) := by
  generalize hm : names.length - defaults.length = m
  have hplain : (names.take m).zip (List.replicate m none) =
      (names.take m).map fun name => (name, (none : Option String)) :=
    List.ext_getElem (by simp) (by simp)
  have hoptional : (names.drop m).zip (defaults.map some) =
      ((names.drop m).zip defaults).map fun p => (p.1, some p.2) :=
    List.zip_map_right
  rw [← hplain, ← hoptional, ← List.zip_append (by simp; omega), List.take_append_drop]

theorem Holds.withParameters {names defaults : List String}
    (h : Define.withParameters name names defaults = .ok d) :
    Holds (names.zip (List.replicate (names.length - defaults.length) none ++ defaults.map some))
      d := by
  simp only [Define.withParameters, check_eq_ok, steps_eq_ok] at h
  obtain ⟨hlength, d₀, hnew, d₁, hplain, hoptional⟩ := h
  have hd₁ := foldlM_induction (P := fun before d => Holds (before.map (·, none)) d)
    (fun before d name d' hd h => ?plain) (Holds.new hnew) hplain
  case plain =>
    rw [List.map_append]
    exact hd.addParameter h
  rw [zip_last (by omega)]
  generalize (names.take _).map _ = given at hd₁ ⊢
  refine foldlM_induction
    (P := fun before d => Holds (given ++ before.map fun p => (p.1, some p.2)) d)
    ?optional (by simpa using hd₁) hoptional
  case optional =>
    rintro before d ⟨name, code⟩ d' hd h
    rw [List.map_append, ← List.append_assoc]
    exact hd.addDefault h

theorem Produced.holds (h : Produced given d) : Holds given d := by
  induction h with
  | new h => exact .new h
  | withParameters h => exact .withParameters h
  | parameter _ h ih => exact ih.addParameter h
  | default _ h ih => exact ih.addDefault h
  | construct _ hc ih => exact ih.addConstruct hc.wellFormed

end Define

/-! ## Reading -/

/-- The tokens of a parameter. -/
def Declares : String × Option Expression → List Token → Prop
  | (name, none), ks => ks = [.ident name]
  | (name, some value), ks =>
      ∃ ks', ks = .ident name :: .equal :: ks' ∧ Expr.Derives (.tree .conditional value.expr) ks'

/-- The tokens of parameters up to the parenthesis that ends them. A comma may stand before it. -/
inductive Lists : List (String × Option Expression) → List Token → Prop where
  | nil : Lists [] [.rightParen]
  | last {entry : String × Option Expression} {ks : List Token} (h : Declares entry ks) :
      Lists [entry] (ks ++ [.rightParen])
  | cons {entry : String × Option Expression} {entries : List (String × Option Expression)}
      {ks ks' : List Token} (h : Declares entry ks) (hrest : Lists entries ks') :
      Lists (entry :: entries) (ks ++ .comma :: ks')

variable {s t : Stream} {n : Nat}

theorem default_takes {p : Parameters} (name : String) :
    Takes s (readDefault p name) fun es ks =>
      ∃ default? : Option Expression, es = default?.toList ∧ (default? = none → p.defaults = []) ∧
        Declares (name, default?) (.ident name :: ks) := by
  refine .peek ?_
  by_cases hk : s.peek = .equal
  · rw [if_pos ((Token.beq_iff rfl).2 hk)]
    refine .next hk (by simp) (.bind .read fun value s' ks hvalue => .pure ?_)
    exact ⟨some value, rfl, nofun, ks, by simp, hvalue⟩
  · rw [if_neg (mt (Token.beq_iff rfl).1 hk)]
    cases hdefaults : p.defaults with
    | nil => exact .pure ⟨none, rfl, fun _ => rfl, rfl⟩
    | cons _ _ => exact .failBehind

/-- The parameters that are read are the ones before and those that the tokens list. -/
theorem parameters_takes {p : Parameters} (hp : p.defaults.length ≤ p.names.length) :
    Takes s (readParameters n p) fun q ks =>
      (∃ entries, q.entries = p.entries ++ entries ∧ Lists entries ks) ∨ n ≤ ks.length := by
  -- Where the turns run out, as many tokens have been taken as there were turns.
  induction n generalizing s p with
  | zero => exact .pure (.inr (Nat.zero_le _))
  | succ n ih =>
      refine .closing rfl (by simp) (.inl ⟨[], by simp, .nil⟩) (.bind .identifier ?_)
      rintro name s₁ _ rfl
      cases hnew : p.names.contains name with
      | true => exact .failBehind
      | false =>
          refine .bind (default_takes name) ?_
          rintro _ s₂ ks ⟨default?, rfl, hdefault, hdeclares⟩
          have happend := Parameters.entries_append hp name hdefault
          refine .bind (elementEnd_takes rfl (by simp)) ?_
          rintro more s₃ _ rfl
          cases more with
          | true =>
              refine (ih (Parameters.length_append hp name default?)).imp fun q ks' hq => ?_
              rcases hq with ⟨entries, hentries, hlists⟩ | hq
              · left
                refine ⟨(name, default?) :: entries, ?_, ?_⟩
                · rw [hentries, happend, List.append_assoc, List.singleton_append]
                · simpa using Lists.cons hdeclares hlists
              · right
                simp only [List.length_append, List.length_cons]
                omega
          | false =>
              refine .pure (.inl ⟨_, happend, ?_⟩)
              simpa using Lists.last hdeclares

/-! ### Where the reader comes to -/

theorem lineEnd_takes : Takes s Reader.lineEnd fun _ _ => True := by
  refine .peek ?_
  cases hk : s.peek with
  | newline => exact .next hk (by simp) (.pure trivial)
  | eof => exact .pure trivial
  | _ => exact .failHere

theorem assignment_takes : Takes s readAssignment fun _ _ => True := by
  have htarget : Takes s readTarget fun _ _ => True := by
    intro target s' h
    obtain ⟨used, hrest, hs', -, -⟩ := readTarget_eq_ok h
    refine ⟨used.map (·.token), ?_, by rwa [List.length_map], trivial⟩
    rw [Stream.kinds, hrest, List.map_append, Stream.kinds]
  have hoperator : ∀ s, Takes s readOperator fun _ _ => True := by
    intro s
    cases hk : s.peek with
    | equal | colonEqual | lessLess | greaterGreater => exact .next hk (by simp) (.pure trivial)
    | _ => exact .refuse fun b t t' h => by simp [hk] at h; cases h
  refine .get (.bind htarget fun _ _ _ _ => .bind (hoperator _) fun _ _ _ _ => ?_)
  exact .bind .read fun _ _ _ _ => .bind lineEnd_takes fun _ _ _ _ => .pure trivial

section Blocks

variable {inner : Reader Construct} (hinner : ∀ t, Takes t inner fun _ _ => True)
include hinner

theorem items_takes : Takes s (readItems inner n) fun _ _ => True := by
  induction n generalizing s with
  | zero => exact .pure trivial
  | succ n ih =>
      refine .get ?_
      cases hk : s.peek with
      | dedent => exact .next hk (by simp) (.pure trivial)
      | eof => exact .pure trivial
      | pass => exact .next hk (by simp) (.bind lineEnd_takes fun _ _ _ _ => ih)
      | ident name =>
          have hitem : ∀ {r : Reader (BodyItem Construct)}, Takes s r (fun _ _ => True) →
              Takes s (r >>= fun item => readItems inner n >>= fun items => pure (item :: items))
                fun _ _ => True :=
            fun hr => .bind hr fun _ _ _ _ => .bind ih fun _ _ _ _ => .pure trivial
          cases hasBinding 0 s.rest with
          | true => exact hitem (.map assignment_takes fun _ _ _ => trivial)
          | false => exact hitem (.map (hinner s) fun _ _ _ => trivial)
      | _ => exact .failHere

theorem constructWith_takes : Takes s (readConstructWith inner) fun _ _ => True := by
  refine .get (.bind .identifier fun _ t _ _ => ?_)
  refine .bind (P := fun _ _ => True) (.peek ?_) fun _ t _ _ => ?_
  · cases hk : t.peek with
    | leftParen =>
        exact .next hk (by simp) (.remaining ((arguments_takes (i := 0)).imp fun _ _ _ => trivial))
    | _ => exact .pure trivial
  refine .bind (P := fun _ _ => True) (.peek ?_) fun _ t _ _ => ?_
  · cases hk : t.peek with
    | arrow =>
        refine .next hk (by simp) (.bind .identifier fun _ _ _ _ => .remaining ?_)
        exact .bind (moreNames_takes (i := 0)) fun _ _ _ _ => .pure trivial
    | _ => exact .pure trivial
  refine .bind (P := fun _ _ => True) (.peek ?_) fun _ t _ _ => ?_
  · cases hk : t.peek with
    | leftBracket =>
        exact .next hk (by simp) (.remaining ((captures_takes (i := 0)).imp fun _ _ _ => trivial))
    | _ => exact .pure trivial
  refine .bind (P := fun _ _ => True) (.peek ?_) fun _ _ _ _ => .pure trivial
  cases hk : t.peek with
  | colon =>
      refine .next hk (by simp) (.bind (.exactly rfl (by simp)) fun _ t _ _ => .peek ?_)
      cases hk : t.peek with
      | indent => exact .next hk (by simp) (.remaining (items_takes hinner))
      | _ => exact .failHere
  | _ => exact .bind lineEnd_takes fun _ _ _ _ => .pure trivial

end Blocks

theorem construct_takes : Takes s readConstruct fun _ _ => True := by
  have hdepth : ∀ depth s, Takes s (readConstructTo depth) fun _ _ => True := by
    intro depth
    induction depth with
    | zero => exact fun s => .peek .failHere
    | succ depth ih => exact fun s => constructWith_takes ih
  exact .remaining (hdepth _ s)

theorem body_takes : Takes s (readBody n) fun _ _ => True := by
  induction n generalizing s with
  | zero => exact .pure trivial
  | succ n ih =>
      refine .peek ?_
      cases hk : s.peek with
      | dedent => exact .next hk (by simp) (.pure trivial)
      | eof => exact .pure trivial
      | pass => exact .next hk (by simp) (.bind lineEnd_takes fun _ _ _ _ => ih)
      | ident name =>
          exact .bind construct_takes fun _ _ _ _ => .bind ih fun _ _ _ _ => .pure trivial
      | _ => exact .failHere

/-- Tokens of a define: its name, the list of its parameters and what follows. -/
def Define.Begins (d : Define) (ks : List Token) : Prop :=
  ∃ list rest, ks = .define :: .ident d.name :: .leftParen :: (list ++ rest) ∧
    Lists d.parameters.entries list

theorem Define.Begins.append {d : Define} {ks : List Token} (h : d.Begins ks) (ks' : List Token) :
    d.Begins (ks ++ ks') := by
  obtain ⟨list, rest, rfl, hlists⟩ := h
  exact ⟨list, rest ++ ks', by simp, hlists⟩

theorem define_takes (hk : s.peek = .define) :
    Takes s readDefine fun d ks => d.pos = s.here ∧ d.Begins ks := by
  refine .get (.next hk (by simp) (.bind .identifier ?_))
  rintro name s₁ _ rfl
  refine .bind (.exactly rfl (by simp)) ?_
  rintro _ s₂ _ rfl
  have hlists : Takes s₂ (readParameters (s₂.count + 1) {}) fun p ks => Lists p.entries ks := by
    have hnone : ({} : Parameters).defaults.length ≤ ({} : Parameters).names.length := Nat.le_refl 0
    refine .within ((parameters_takes hnone).imp fun p ks hp => ?_)
    rcases hp with ⟨entries, hentries, hlists⟩ | hlong
    · left
      rw [hentries]
      exact hlists
    · exact .inr hlong
  refine .remaining (.bind hlists fun p s₃ list hlist => ?_)
  refine .bind (.exactly rfl (by simp)) fun _ _ _ _ => ?_
  refine .bind (.exactly rfl (by simp)) fun _ _ _ _ => ?_
  refine .bind (.exactly rfl (by simp)) fun _ _ _ _ => .remaining ?_
  exact .bind body_takes fun _ _ _ _ => .pure ⟨rfl, list, _, rfl, hlist⟩

/-- At the place of the define, its tokens are found in the stream. -/
def Define.StandsIn (d : Define) (s : Stream) : Prop :=
  ∃ k, (s.skip k).here = d.pos ∧ d.Begins (s.skip k).kinds

theorem Define.StandsIn.of_skip {d : Define} {m : Nat} (h : d.StandsIn (s.skip m)) :
    d.StandsIn s := by
  obtain ⟨k, hk⟩ := h
  rw [← Stream.skip_add] at hk
  exact ⟨m + k, hk⟩

/-- Each define that is read stands among the tokens. -/
theorem standsIn_of_module {items : List Item} (h : readModule n s = .ok (items, t)) :
    ∀ d, .define d ∈ items → d.StandsIn s := by
  induction n generalizing s items with
  | zero =>
      cases h
      simp
  | succ n ih =>
      rw [readModule, run_peek] at h
      intro d hd
      cases hk : s.peek with
      | eof =>
          rw [hk] at h
          cases h
          cases hd
      | newline =>
          simp only [hk, run_next] at h
          exact .of_skip (m := 1) (ih h d hd)
      | define =>
          simp only [hk] at h
          obtain ⟨d', s₁, hdefine, h⟩ := bind_eq_ok.1 h
          obtain ⟨items', s₂, hitems, h⟩ := bind_eq_ok.1 h
          cases h
          obtain ⟨ks, hks, rfl, hpos, hbegins⟩ := define_takes hk _ _ hdefine
          rcases List.mem_cons.1 hd with hd | hd
          · cases hd
            exact ⟨0, hpos.symm, hks ▸ hbegins.append _⟩
          · exact .of_skip (ih hitems d hd)
      | ident name =>
          simp only [hk] at h
          obtain ⟨c, s₁, hconstruct, h⟩ := bind_eq_ok.1 h
          obtain ⟨items', s₂, hitems, h⟩ := bind_eq_ok.1 h
          cases h
          obtain ⟨ks, -, rfl, -⟩ := construct_takes _ _ hconstruct
          exact .of_skip (ih hitems d (by simpa using hd))
      | _ =>
          rw [hk] at h
          cases h

/-- Every template is well-formed, and the defaults in it are those that were given to its
parameters: by the tokens of the text that it was read from, or by the steps that built it. These
take every identifier for a name. -/
theorem trees_wellFormed :
    (∀ source m, Module.parse source = .ok m → m.WellFormed ∧
      ∃ ls, tokenize source.toList = .ok ls ∧
        ∀ d ∈ m.defines, d.StandsIn (.ofLexemes source.toList ls)) ∧
    (∀ c : Construct, c.Produced → c.WellFormed) ∧
    (∀ given d, Define.Produced given d → d.WellFormed ∧ d.parameters.Gives given) ∧
    ∀ name, checkName name = .ok name ↔ IsIdentifier name := by
  refine ⟨fun source m h => ⟨(Module.written_of_parse h).wellFormed, ?_⟩, fun c hc => hc.wellFormed,
    fun given d hd => ⟨hd.holds.wellFormed, hd.holds.gives⟩, fun name => checkName_iff⟩
  obtain ⟨ls, t, htokens, hread⟩ := Module.parse_eq_ok.1 h
  refine ⟨ls, htokens, fun d hd => ?_⟩
  obtain ⟨item, hitem, heq⟩ := List.mem_filterMap.1 hd
  cases item with
  | construct c => cases heq
  | define d' =>
      cases heq
      rw [readAll, run_remaining] at hread
      exact standsIn_of_module hread d hitem

/-- A define with a default is read and built, and a construct with a keyword argument is built. A
reserved word is no name. -/
theorem trees_wellFormed_form :
    (∃ m, Module.parse "defn F(a, b = 1):\n W(a, k = b) -> x [y = z]:\n  V\n" = .ok m ∧
      m.WellFormed) ∧
    (∃ c, Construct.new "W" = .ok { typeName := "W" } ∧
      Construct.addKeyword { typeName := "W" } "k" "1" = .ok c ∧ c.WellFormed) ∧
    (∃ d, Define.withParameters "F" ["a", "b"] ["1"] = .ok d ∧ d.WellFormed ∧
      d.parameters.Gives [("a", none), ("b", some "1")]) ∧
    checkName "in" ≠ .ok "in" := by
  have hnew : Construct.new "W" = .ok { typeName := "W" } := by cbv
  have hkeyword : Construct.addKeyword { typeName := "W" } "k" "1" =
      .ok { typeName := "W", arguments := [.keyword "k" ⟨"1", .int 1, ⟨1, 1⟩⟩] } := by
    cbv
  have hdefine : Define.withParameters "F" ["a", "b"] ["1"] =
      .ok { name := "F", parameters := ⟨["a", "b"], [⟨"1", .int 1, ⟨1, 1⟩⟩]⟩ } := by
    cbv
  have hread : (Module.parse
      "defn F(a, b = 1):\n W(a, k = b) -> x [y = z]:\n  V\n").isOk = true := by
    cbv
  refine ⟨?_, ⟨_, hnew, hkeyword, ?_⟩, ⟨_, hdefine, ?_⟩, fun h => ?_⟩
  · cases hm : Module.parse "defn F(a, b = 1):\n W(a, k = b) -> x [y = z]:\n  V\n" with
    | error e => rw [hm] at hread; cases hread
    | ok m => exact ⟨m, rfl, (trees_wellFormed.1 _ m hm).1⟩
  · exact trees_wellFormed.2.1 _ (.keyword (.new hnew) hkeyword)
  · exact trees_wellFormed.2.2.1 [("a", none), ("b", some "1")] _ (.withParameters hdefine)
  · exact ((trees_wellFormed.2.2.2 "in").1 h).2 (by decide)

end Markup

end LiveUI
