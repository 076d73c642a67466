import LiveUI.Proofs.World.Step
import LiveUI.Proofs.World.Layers

/-! # Propagation over a world

As long as no earlier observer is called, an announcement reaches later bindings only. What they do is
laid over the world as it was, and so is what the functions of the host do that they call. Whether an
earlier observer was called is known at the end only, so that everything here is said of the worlds
before on the condition that none was called by then. The journal grows in any case, and carries the
condition back. -/

namespace LiveUI

namespace World

variable {w₀ w w' w'' : World}

/-- All that has come since `w₀` is laid over it, unless one of its observers has been called. -/
def Spared (w₀ w : World) : Prop :=
  w₀.Undisturbed w → Overlaid w₀ w

/-- A binding is a later one, unless an earlier observer has been called. -/
def Late (w₀ w : World) (b : Nat) : Prop :=
  w₀.Undisturbed w → w₀.nextBinding ≤ b

/-- What was done between the two worlds is laid over `w₀`, unless an earlier observer was called. -/
structure Spares (w₀ w w' : World) : Prop where
  journal : w.journal <:+ w'.journal
  overlays : w₀.Undisturbed w' → Overlays w₀ w w'

theorem Spared.spares (h : w₀.Spared w) (hjournal : w.journal <:+ w'.journal)
    (hstep : w₀.Undisturbed w → Overlaid w₀ w → Overlays w₀ w w') : Spares w₀ w w' :=
  ⟨hjournal, fun hun =>
    have hun := hun.of_suffix hjournal
    hstep hun (h hun)⟩

namespace Spares

theorem refl (h : w₀.Spared w) : Spares w₀ w w :=
  h.spares (List.suffix_refl _) fun _ h => h.refl

theorem trans (h : Spares w₀ w w') (h' : Spares w₀ w' w'') : Spares w₀ w w'' :=
  ⟨h.journal.trans h'.journal, fun hun =>
    (h.overlays (hun.of_suffix h'.journal)).trans (h'.overlays hun)⟩

instance : Trans (Spares w₀) (Spares w₀) (Spares w₀) :=
  ⟨trans⟩

theorem spared (h : Spares w₀ w w') : w₀.Spared w' :=
  fun hun => (h.overlays hun).overlaid

theorem late {b : Nat} (h : Spares w₀ w w') (hb : w₀.Late w b) : w₀.Late w' b :=
  fun hun => hb (hun.of_suffix h.journal)

theorem log (h : w₀.Spared w) (e : Entry) : Spares w₀ w (w.log e) :=
  h.spares (List.suffix_cons e _) fun _ h => h.log e

theorem write (h : w₀.Spared w) (o : Handle) (attr : String) (v : Value) :
    Spares w₀ w (w.write o attr v) :=
  h.spares (List.suffix_cons _ _) fun _ h => h.write o attr v

theorem create (h : w₀.Spared w) (typeName : String) (attrs : List (String × Value)) :
    Spares w₀ w (w.create typeName attrs).2 :=
  h.spares (List.suffix_refl _) fun _ h => h.create typeName attrs

theorem setBusy (h : w₀.Spared w) (b : Nat) (busy : Bool) : Spares w₀ w (w.setBusy b busy) :=
  h.spares (List.suffix_refl _) fun _ h => h.setBusy b busy

theorem disconnect (h : w₀.Spared w) (hw : Regular w₀) {b : Nat} (hb : w₀.Late w b) :
    Spares w₀ w (w.disconnect b) :=
  h.spares (journal_disconnect w b ▸ List.suffix_refl _) fun hun h => (h.disconnect hw (hb hun)).1

theorem release (h : w₀.Spared w) (hw : Regular w₀) {b : Nat} (hb : w₀.Late w b) :
    Spares w₀ w (w.release b) :=
  h.spares (journal_release w b ▸ List.suffix_refl _) fun hun h => h.release hw (hb hun)

end Spares

end World

open World

/-! ## Steps over a world -/

namespace Step

variable {β : Type} {w : World}

/-- What the step does is laid over `w₀`, unless an earlier observer is called. -/
abbrev Spares (w₀ w : World) (m : Step α) : Prop :=
  Along (World.Spares w₀) w m fun _ _ => True

end Step

/-! ## Evaluation -/

/-- Announcements are laid over `w₀`, unless they reach an earlier observer. -/
def Announce.Spares (w₀ : World) (announce : Announce) : Prop :=
  ∀ w c, w₀.Spared w → Step.Spares w₀ w (announce c)

namespace Evaluation

variable {α β : Type} {w₀ : World}

/-- What the evaluation does is laid over `w₀`, unless an earlier observer is called. -/
def Spares (w₀ : World) (m : Evaluation α) : Prop :=
  ∀ (s : Reads) w, w₀.Spared w → Step.Spares w₀ w (m.run.run s)

namespace Spares

theorem pure (a : α) : Spares w₀ (Pure.pure a) :=
  fun _ _ h => Step.Along.pure (.refl h) trivial

theorem throw (e : EvalError) : Spares w₀ (MonadExcept.throw e : Evaluation α) :=
  fun _ _ h => Step.Along.pure (.refl h) trivial

theorem bind {m : Evaluation α} {f : α → Evaluation β} (hm : Spares w₀ m)
    (hf : ∀ a, Spares w₀ (f a)) : Spares w₀ (m >>= f) := by
  intro s w h
  rw [run_bind]
  refine (hm s w h).bind fun p w₁ hin _ => ?_
  cases p.1 with
  | ok a => exact hf a p.2 w₁ hin.spared
  | error e => exact .pure (.refl hin.spared) trivial

theorem readAttr (base : Value) (attr : String) : Spares w₀ (readAttr base attr) := by
  cases base with
  | object o =>
      intro s w h p w' hrun
      change outcome (Evaluation.readAttr (.object o) attr) s w = some (p, w') at hrun
      rw [outcome_readAttr] at hrun
      obtain ⟨-, rfl⟩ := by simpa using hrun
      exact ⟨.refl h, trivial⟩
  | _ => exact throw _

theorem call {apply : Apply}
    (happly : ∀ f args w, w₀.Spared w → Step.Spares w₀ w (apply f args)) (callee : Value)
    (args : List Value) : Spares w₀ (call apply callee args) := by
  cases callee with
  | func f =>
      intro s w h
      have hcall : Step.Spares w₀ w (apply f args >>= fun r => Pure.pure (r, s)) :=
        (happly f args w h).bind fun _ _ hin _ => .pure (.refl hin.spared) trivial
      exact hcall
  | _ => exact throw _

end Spares

end Evaluation

namespace Code

variable {w₀ w : World} {apply : Apply}

end Code

/-! ## Writes, routines and functions -/

section Announcing

variable {w₀ w : World} {announce : Announce}

section Writing

variable (ha : announce.Spares w₀)

include ha

end Writing

section Working

variable (hw : Regular w₀)

include hw

variable (ha : announce.Spares w₀)

include ha

end Working

end Announcing

namespace World

variable {w₀ w w' : World}

/-- A binding has been entered with its target, and it does not listen to it yet. -/
def Entered (w : World) (b : Nat) (o : Handle) : Prop :=
  ∃ x, w.binding? b = some x ∧ x.target = o ∧ x.targetListener = none

theorem Entered.retains {b : Nat} {o : Handle} (h : Entered w b o) (hretains : Retains w w') :
    Entered w' b o := by
  obtain ⟨x, hx, rfl, hnone⟩ := h
  obtain ⟨y, hy, htarget, hlistener⟩ := hretains.bindings b x hx
  exact ⟨y, hy, htarget, hlistener hnone⟩

namespace Spares

theorem addBinding (h : w₀.Spared w) (site : Site) (kind : BindingKind) (code : Code) :
    Spares w₀ w (w.addBinding (site.record kind code w.nextBinding)) :=
  h.spares (List.suffix_refl _) fun _ h => h.addBinding rfl rfl rfl

/-- The target takes a binding that has been made. -/
theorem own (h : w₀.Spared w) {b : Nat} (hb : w₀.Late w b) {o : Handle}
    (hentered : w₀.Undisturbed w → Entered w b o) : Spares w₀ w (w.own o b) := by
  refine h.spares (List.suffix_refl _) fun hun h => ?_
  obtain ⟨x, hx, rfl, -⟩ := hentered hun
  exact h.own (hb hun) hx x.target rfl

/-- The binding that has been made since also listens to its target. -/
theorem listen_own (h : w₀.Spared w) (hin : Spares w₀ w w') {o : Handle} (attr : String)
    (hentered : w₀.Undisturbed w' → Entered w' w.nextBinding o) :
    Spares w₀ w ((w'.listen o attr w.nextBinding).own o w.nextBinding) := by
  refine ⟨hin.journal, fun hun => ?_⟩
  have hover := h (hun.of_suffix hin.journal)
  have hlistens : Retains w (w'.listen o attr w.nextBinding) :=
    (hin.overlays hun).retains.listen (binding?_next_of_lt hover.bindings) o attr
  obtain ⟨x, hx, rfl, hnone⟩ := hentered hun
  obtain ⟨y, hy, htarget⟩ : ∃ y, (w'.listen x.target attr w.nextBinding).binding? w.nextBinding =
      some y ∧ y.target = x.target := by
    rw [World.listen, binding?_modifyBinding _ _ _ (f := fun y => { y with
      targetListener := some (w'.observe x.target attr (.target w.nextBinding)).1 }) fun _ => rfl,
      if_pos rfl]
    exact ⟨_, congrArg (Option.map _) hx, rfl⟩
  have howns := ((hin.overlays hun).overlaid.listen hover.nextBinding hx hnone x.target attr).own
    hover.nextBinding hy x.target (congrArg _ htarget)
  exact ⟨howns.overlaid, hlistens.trans howns.retains⟩

end Spares

end World

namespace Site

variable {w₀ w : World} {announce : Announce} {site : Site} {code : Code}

variable (ha : announce.Spares w₀)

include ha

variable (hw : Regular w₀)

include hw

end Site

end LiveUI
