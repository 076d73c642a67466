import LiveUI.Proofs.Expr.SelfEquality
import LiveUI.Proofs.Markup.Accepting

/-! # Texts and trees

A template that is read from a text is written back as a text that is read as the same template. -/

namespace LiveUI.Markup

open LiveUI.Source

/-! ## Templates equal themselves -/

theorem beq_self_of_forall {α : Type} [BEq α] {as : List α} (h : ∀ a ∈ as, (a == a) = true) :
    (as == as) = true := by
  induction as with
  | nil => rfl
  | cons a as ih =>
      obtain ⟨ha, has⟩ := List.forall_mem_cons.1 h
      rw [List.cons_beq_cons, ha, ih has]
      rfl

theorem Assignment.Written.beq_self {a : Assignment} (h : a.Written) : (a == a) = true := by
  have hself : (a.target == a.target && a.op == a.op && a.value == a.value) = true := by
    rw [h.2.beq_self]
    simp
  exact hself

theorem Argument.Written.beq_self {a : Argument} (h : a.Written) : (a == a) = true := by
  cases a with
  | positional value => exact Expression.Written.beq_self h
  | keyword name value =>
      have hself : (name == name && value == value) = true := by
        rw [h.2.beq_self]
        simp
      exact hself

namespace Construct

theorem beqBody_self {items : List (BodyItem Construct)}
    (ha : ∀ a, .assignment a ∈ items → (a == a) = true)
    (hc : ∀ c, .child c ∈ items → beq c c = true) : beqBody items items = true := by
  induction items with
  | nil => rfl
  | cons item items ih =>
      have hitems := ih (fun a h => ha a (List.mem_cons_of_mem _ h))
        (fun c h => hc c (List.mem_cons_of_mem _ h))
      have hitem : beqItem item item = true := by
        cases item with
        | assignment a => exact ha a List.mem_cons_self
        | child c => exact hc c List.mem_cons_self
      rw [beqBody, hitem, hitems]
      rfl

theorem Written.beq_self {c : Construct} (h : c.Written) : beq c c = true := by
  induction h with
  | @intro c hname harguments horderly hunpack hcaptures hassignments hchildren ih =>
      obtain ⟨typeName, arguments, unpack, captures, body, pos⟩ := c
      have hbody : beqBody body body = true :=
        beqBody_self (fun a ha => (hassignments a ha).beq_self) ih
      have harguments' : (arguments == arguments) = true :=
        beq_self_of_forall fun a ha => (harguments a ha).beq_self
      rw [beq, hbody, harguments']
      simp

end Construct

theorem Define.Written.beq_self {d : Define} (h : d.Written) : (d == d) = true := by
  have hdefaults : (d.parameters.defaults == d.parameters.defaults) = true :=
    beq_self_of_forall fun e he => (h.parameters.defaults e he).beq_self
  have hbody : (d.body == d.body) = true :=
    beq_self_of_forall fun c hc => (h.body c hc).beq_self
  have hself : (d.name == d.name &&
      (d.parameters.names == d.parameters.names &&
        d.parameters.defaults == d.parameters.defaults) && d.body == d.body) = true := by
    rw [hdefaults, hbody]
    simp
  exact hself

theorem Item.Written.beq_self {item : Item} (h : item.Written) : (item == item) = true := by
  cases item with
  | define d => exact Define.Written.beq_self h
  | construct c => exact Construct.Written.beq_self h

theorem Module.Written.beq_self {m : Module} (h : m.Written) : (m == m) = true := by
  have hself : (m.items == m.items) = true :=
    beq_self_of_forall fun item hitem => (h item hitem).beq_self
  exact hself

/-! ## There and back -/

/-- **Round trip.** The text of a template that was read from a text is read as an equal template:
up to places it is the same one, the texts of its expressions included. So it is written as the
same text again. -/
theorem Module.round_trip {source : String} {m : Module} (h : Module.parse source = .ok m) :
    ∃ m', Module.parse m.text = .ok m' ∧ (m' == m) = true ∧ m'.unplaced = m.unplaced ∧
      m'.text = m.text := by
  have hwritten := Module.written_of_parse h
  obtain ⟨m', hm', hunplaced⟩ := hwritten.parse_text
  refine ⟨m', hm', ?_, hunplaced, ?_⟩
  · rw [← Module.beq_unplaced, hunplaced, Module.beq_unplaced]
    exact hwritten.beq_self
  · rw [← Module.text_unplaced, hunplaced, Module.text_unplaced]

/-- The block is written with blanks and the index without its sign; the value keeps its comment and
its line feed. -/
theorem Module.round_trip_comment :
    ∃ m, Module.parse "W(1):\n\ta[-0].b = (2 # two\n  + c)\n" = .ok m ∧
      m.text = "W(1):\n    a[0].b = (2 # two\n  + c)\n" ∧
      ∃ m', Module.parse m.text = .ok m' ∧ (m' == m) = true ∧ m'.unplaced = m.unplaced ∧
        m'.text = m.text := by
  have htext : (Module.parse "W(1):\n\ta[-0].b = (2 # two\n  + c)\n").toOption.map (·.text) =
      some "W(1):\n    a[0].b = (2 # two\n  + c)\n" := by cbv
  cases hparse : Module.parse "W(1):\n\ta[-0].b = (2 # two\n  + c)\n" with
  | error e => rw [hparse] at htext; cases htext
  | ok m =>
      rw [hparse] at htext
      exact ⟨m, rfl, Option.some.inj htext, Module.round_trip hparse⟩

end LiveUI.Markup
