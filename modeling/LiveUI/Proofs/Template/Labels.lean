import LiveUI.Proofs.Template.Likeness

/-! # Labels have no part in what happens

The text of a statement becomes the label of its binding, and notices name bindings by their labels.
Behind a veil over the labels, programs that differ in their places run alike. So templates that are
the same when bare are interchangeable: they compile to the same program but for the places, and the
programs build the same trees and the same values, or fail with errors that differ in the place. -/

namespace LiveUI

theorem Notice.relabel_relabel (f g : String → String) (n : Notice) :
    (n.relabel g).relabel f = n.relabel fun label => f (g label) := by
  cases n <;> rfl

/-- Labels are hidden, except that a delegate without a path keeps the one that it fails with. -/
def Veil.labels : Veil where
  code c _ := c
  frame f := f
  label kind c l := if kind = .delegate ∧ c.attrPath? = none then l else ""
  keepsRuns := true
  entry e := e.relabel fun _ => ""
  journal := List.map fun e => e.relabel fun _ => ""
  journal_cons _ _ := rfl
  evaluate_eq _ _ _ _ _ := rfl
  attrPath?_eq c _ := by simp
  label_of_pathless h _ := if_pos ⟨rfl, h⟩
  entry_relabel _ _ e := by
    cases e with
    | notice n => exact congrArg Entry.notice (n.relabel_relabel _ _)
    | _ => rfl
  entry_of_plain h _ := h _

namespace Template

open Markup Building

theorem Op.Alike.likened {op op' : Op} (h : op.Alike op') :
    op.Likened .labels (fun _ => .none) op' := by
  cases h with
  | build b _ => exact .build b rfl
  | @assign target op value place place' h =>
      refine .assign target op value rfl fun kind hkind => ?_
      simp only [Veil.labels]
      split
      next hpathless => exact h (hkind.mpr hpathless.1) hpathless.2
      next => rfl
  | close => exact .close

section Views

variable {limits : Limits} {registry : Registry} (hr : registry.Veiled .labels fun _ => .none)

include hr

theorem call_concurs {d d' : CompiledDefine} (h : d.Alike d') (args : List Value)
    (keywords : List (String × Value)) :
    Concurs .labels (fun _ => .none) Eq (d.call limits registry args keywords)
      (d'.call limits registry args keywords) := by
  have ha := Veil.announce_respects (V := .labels) limits.announcements
  simp only [CompiledDefine.call, h.name]
  refine Concurs.bind_eq (.lift (Veil.notice_respects _)) fun _ => ?_
  refine (instantiate_concurs ha (hr.build ha limits.factories) h.name h.params
    (h.program.ops.imp fun _ _ hop => hop.likened) h.program.slots h.program.exports args
    keywords).bind_eq fun built => ?_
  exact finish_concurs ha built

theorem view_concurs {c c' : CompiledConstruct} (h : c.program.Alike c'.program) :
    Concurs .labels (fun _ => .none) Eq (c.view limits registry) (c'.view limits registry) := by
  have ha := Veil.announce_respects (V := .labels) limits.announcements
  simp only [CompiledConstruct.view, h.slots]
  refine (Program.run_concurs ha (hr.build ha limits.factories)
    (h.ops.imp fun _ _ hop => hop.likened) h.exports _).bind_eq fun built => ?_
  exact finish_concurs ha built

end Views

/-- Templates that differ in places and exact texts only are interchangeable. Whatever the globals,
they compile to the same but for the places, or fail alike. From worlds that differ in labels only,
what they compile to builds the same trees with the same exports, and leaves all objects with the
same attributes, or fails with errors that differ in the place. -/
theorem bare_templates_interchangeable (limits : Limits) {registry : Registry}
    (hr : registry.Veiled .labels fun _ => .none) (announcing : Announce) (globals : Globals) :
    (∀ {d d' : Define}, d.bare = d'.bare →
      Compiling.Concurs
        (fun compiled compiled' => compiled.unplaced = compiled'.unplaced ∧
          ∀ args keywords, Concurs .labels (fun _ => .none) Eq
            (compiled.call limits registry args keywords)
            (compiled'.call limits registry args keywords))
        (compileDefine announcing globals d) (compileDefine announcing globals d')) ∧
    (∀ {c c' : Construct}, c.bare = c'.bare →
      Compiling.Concurs
        (fun compiled compiled' => compiled.unplaced = compiled'.unplaced ∧
          Concurs .labels (fun _ => .none) Eq (compiled.view limits registry)
            (compiled'.view limits registry))
        (compileConstruct globals c) (compileConstruct globals c')) := by
  constructor
  · intro d d' h
    refine (compileDefine_concurs h).imp fun compiled compiled' hlike => ?_
    exact ⟨hlike.unplaced_eq, call_concurs hr hlike⟩
  · intro c c' h
    refine (compileConstruct_concurs h).imp fun compiled compiled' hlike => ?_
    exact ⟨congrArg CompiledConstruct.mk hlike.unplaced_eq, view_concurs hr hlike⟩

/-- The card further down in a file, with parentheses around its titles. -/
def cardBelow : Define where
  name := "Card"
  parameters := { names := ["title"] }
  body :=
    let title : Expression := ⟨"(title)", .name "title", ⟨9, 20⟩⟩
    [{ typeName := "Box"
       unpack := ["box"]
       body := [
        .assignment { target := .own "title", op := .bind, value := title, pos := ⟨8, 5⟩ },
        .child { typeName := "Label", arguments := [.positional title], pos := ⟨9, 5⟩ }]
       pos := ⟨7, 3⟩ }]
  pos := ⟨6, 1⟩

theorem bare_templates_interchangeable_card :
    cardRegistry.Veiled .labels (fun _ => .none) ∧ card.bare = cardBelow.bare ∧
    (∃ compiled compiled' w, (compileDefine (announce 8) [] card).run {} = some (.ok compiled, w) ∧
      (compileDefine (announce 8) [] cardBelow).run {} = some (.ok compiled', w) ∧
      compiled.unplaced = compiled'.unplaced ∧
      ∀ args keywords, Concurs .labels (fun _ => .none) Eq
        (compiled.call ⟨8, 2⟩ cardRegistry args keywords)
        (compiled'.call ⟨8, 2⟩ cardRegistry args keywords)) ∧
    Compiling.Concurs
      (fun compiled compiled' => compiled.unplaced = compiled'.unplaced ∧
        Concurs .labels (fun _ => .none) Eq (compiled.view ⟨8, 2⟩ cardRegistry)
          (compiled'.view ⟨8, 2⟩ cardRegistry))
      (compileConstruct [] { typeName := "Label" })
      (compileConstruct [] { typeName := "Label", pos := ⟨3, 1⟩ }) := by
  have hr : cardRegistry.Veiled .labels fun _ => .none := by
    intro typeName f keeps hlookup
    have hmem := Registry.mem_of_lookup hlookup
    simp [cardRegistry] at hmem
  have hbare : card.bare = cardBelow.bare := by
    simp [card, cardBelow, Define.bare, Parameters.bare, Construct.bare, Construct.bareBody,
      Construct.bareItem, Assignment.bare, Argument.bare, Expression.bare]
  have hlabel : Construct.bare { typeName := "Label" } =
      Construct.bare { typeName := "Label", pos := ⟨3, 1⟩ } := by
    simp [Construct.bare]
  have h := bare_templates_interchangeable ⟨8, 2⟩ hr (announce 8) []
  refine ⟨hr, hbare, ?_, h.2 hlabel⟩
  have hcompile : ∃ compiled w, (compileDefine (announce 8) [] card).run {} =
      some (.ok compiled, w) := ⟨_, _, rfl⟩
  obtain ⟨compiled, w, hcompile⟩ := hcompile
  have hrel := h.1 hbare {}
  rw [hcompile] at hrel
  generalize (compileDefine (announce 8) [] cardBelow).run {} = r at hrel ⊢
  cases hrel with
  | @some _ q hrel =>
      obtain ⟨r, w'⟩ := q
      obtain ⟨hconcur, rfl⟩ := hrel
      cases hconcur with
      | @ok _ compiled' hlike => exact ⟨compiled, compiled', w, hcompile, rfl, hlike⟩

end Template

end LiveUI
