import LiveUI.Proofs.Template.Walk

/-! # Looking up names

Lowering looks up the names of an expression from left to right and fails with the first one that
has no meaning. What resolving does with the names and slots of a scope is what the walk through the
template says of these names. -/

namespace LiveUI

/-- Lowering that looks up `names`: it fails with the first of them that is unknown, and without one
it has a result as `post` says. -/
def Lowering.Looks {α : Type} (unknown : String → Bool) (names : List String) (post : α → Prop)
    (lowering : Lowering α) : Prop :=
  ∀ n, match names.find? unknown with
    | some name => lowering.run n = .error name
    | none => ∃ a n', lowering.run n = .ok (a, n') ∧ post a

namespace Lowering.Looks

variable {α β : Type} {unknown : String → Bool} {names names' : List String} {post : α → Prop}
  {post' : β → Prop} {lowering : Lowering α}

theorem pure {a : α} (h : post a) : Looks unknown [] post (Pure.pure a) :=
  fun n => ⟨a, n, rfl, h⟩

theorem bind {f : α → Lowering β} (h : Looks unknown names post lowering)
    (hf : ∀ a, post a → Looks unknown names' post' (f a)) :
    Looks unknown (names ++ names') post' (lowering >>= f) := by
  intro n
  have hfirst := h n
  rw [List.find?_append]
  cases hnames : names.find? unknown with
  | some name =>
      rw [hnames] at hfirst
      simp only [Option.some_or, StateT.run_bind, hfirst]
      rfl
  | none =>
      rw [hnames] at hfirst
      obtain ⟨a, n', hrun, hpost⟩ := hfirst
      have hrest := hf a hpost n'
      simp only [Option.none_or, StateT.run_bind, hrun]
      exact hrest

theorem map {f : α → β} (h : Looks unknown names post lowering) (hf : ∀ a, post a → post' (f a)) :
    Looks unknown names post' (do return f (← lowering)) := by
  have hreturn : ∀ a, post a → Looks unknown [] post' (Pure.pure (f a)) :=
    fun a ha => pure (hf a ha)
  have hbind := h.bind hreturn
  rwa [List.append_nil] at hbind

end Lowering.Looks

namespace Code

open Lowering (Looks)

variable {unknown : String → Bool} {Means : String → Code → Prop}
  {resolve : String → Lowering Code}

mutual

/-- An expression is lowered as its names are resolved, one occurrence after another. -/
theorem lower_looks (h : ∀ name, Looks unknown [name] (Means name) (resolve name)) : ∀ e : Expr,
    Looks unknown e.occurrences (Lowers Means e) (lower resolve e)
  | .int n => .pure (.int n)
  | .float x => .pure (.float x)
  | .str s => .pure (.str s)
  | .bool b => .pure (.bool b)
  | .nil => .pure .nil
  | .name name => fun n => by
      have hname := h name n
      revert hname
      simp only [Expr.occurrences, lower]
      cases [name].find? unknown with
      | some _ => exact id
      | none => exact fun ⟨code, n', hrun, hmeans⟩ => ⟨code, n', hrun, .name hmeans⟩
  | .list items => (lowerAll_looks h items).map fun _ => .list
  | .attr value _ => (lower_looks h value).map fun _ => .attr
  | .index value i => (lower_looks h value).bind fun _ hvalue =>
      (lower_looks h i).map fun _ => .index hvalue
  | .call func args => (lower_looks h func).bind fun _ hfunc =>
      (lowerAll_looks h args).map fun _ => .call hfunc
  | .unary _ operand => (lower_looks h operand).map fun _ => .unary
  | .binary _ left right => (lower_looks h left).bind fun _ hleft =>
      (lower_looks h right).map fun _ => .binary hleft
  | .boolOp _ left right => (lower_looks h left).bind fun _ hleft =>
      (lower_looks h right).map fun _ => .boolOp hleft
  | .ifElse body condition otherwise => by
      simp only [Expr.occurrences, List.append_assoc]
      exact (lower_looks h body).bind fun _ hbody =>
        (lower_looks h condition).bind fun _ hcondition =>
          (lower_looks h otherwise).map fun _ => .ifElse hbody hcondition

theorem lowerAll_looks (h : ∀ name, Looks unknown [name] (Means name) (resolve name)) :
    ∀ es : List Expr, Looks unknown (Expr.occurrencesList es) (List.Forall₂ (Lowers Means) es)
      (lowerAll resolve es)
  | [] => .pure .nil
  | e :: es => (lower_looks h e).bind fun _ hcode =>
      (lowerAll_looks h es).map fun _ => .cons hcode

end

end Code

namespace Template

open Lowering (Looks)

variable {globals : Globals} {past : List Mark} {notify : Bool} {name : String}

/-- A name that no scope gives a meaning. -/
theorem constantNamed_run (globals : Globals) (name : String) (n : Nat) :
    match ((globals.reverse.find? (·.1 == name)).map fun p => Meaning.constant p.2) <|>
        (Builtin.ofName? name).map .builtin with
    | none => (constantNamed globals name).run n = .error name
    | some m => ∃ code n', (constantNamed globals name).run n = .ok (code, n') ∧ m.Is code := by
  simp only [constantNamed]
  cases globals.reverse.find? (·.1 == name) with
  | some p => exact ⟨_, _, rfl, rfl⟩
  | none =>
      simp only [Code.builtinNamed]
      cases Builtin.ofName? name with
      | some b => exact ⟨_, _, rfl, n, rfl⟩
      | none => rfl

theorem resolve_run (globals : Globals) (past : List Mark) (notify : Bool) (name : String)
    (n : Nat) :
    match meaning? globals past notify name with
    | none =>
        (resolve globals (Mark.introduced past) (Mark.owner past) notify name).run n = .error name
    | some m => ∃ code n',
        (resolve globals (Mark.introduced past) (Mark.owner past) notify name).run n =
          .ok (code, n') ∧ m.Is code := by
  have hconstant := constantNamed_run globals name n
  simp only [meaning?, resolve]
  cases (Mark.introduced past).find? (·.1 == name) with
  | some p => exact ⟨_, _, rfl, rfl⟩
  | none =>
      by_cases hargs : name = "args"
      · subst hargs
        cases notify with
        | true => cases Mark.owner past <;> exact ⟨_, _, rfl, rfl⟩
        | false => cases Mark.owner past <;> exact hconstant
      · cases howner : Mark.owner past with
        | none =>
            simpa [hargs] using hconstant
        | some slot =>
            by_cases hself : name = "self"
            · subst hself
              exact ⟨_, _, rfl, rfl⟩
            · simpa [hargs, hself] using hconstant

/-- Resolving a name finds its meaning or fails with it. -/
theorem resolve_looks (globals : Globals) (past : List Mark) (notify : Bool) (name : String) :
    Looks (fun name => (meaning? globals past notify name).isNone) [name]
      (Means globals past notify name)
      (resolve globals (Mark.introduced past) (Mark.owner past) notify name) := by
  intro n
  have hrun := resolve_run globals past notify name n
  cases hmeaning : meaning? globals past notify name with
  | none =>
      rw [hmeaning] at hrun
      simpa [hmeaning] using hrun
  | some m =>
      rw [hmeaning] at hrun
      obtain ⟨code, n', hrun, his⟩ := hrun
      simpa [hmeaning] using ⟨code, ⟨n', hrun⟩, m, hmeaning, his⟩

/-- The names of an expression are looked up behind `past`. -/
theorem lower_resolve (globals : Globals) (past : List Mark) (notify : Bool) (e : Expr) :
    Looks (fun name => (meaning? globals past notify name).isNone) e.occurrences
      (Code.Lowers (Means globals past notify) e)
      (Code.lower (resolve globals (Mark.introduced past) (Mark.owner past) notify) e) :=
  Code.lower_looks (resolve_looks globals past notify) e

end Template

end LiveUI
