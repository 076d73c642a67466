import LiveUI.Proofs.World.Closing
import LiveUI.Proofs.World.VeiledSteps

/-! # Worlds that resemble each other

Two worlds resemble each other when they are the same once their bindings are closed. Closing is a
veil: what code comes to is left of it. So nothing that is done in a world tells it from one that
resembles it, and making a binding over a frame has the same outcome as making one with the values of
the frame put into its code. -/

namespace LiveUI

namespace Step

variable {α β γ δ : Type}

/-- From worlds that resemble each other the steps come to related results, and to worlds that
resemble each other. -/
def Agrees (R : α → β → Prop) (m : Step α) (m' : Step β) : Prop :=
  ∀ w w' : World, w.closed = w'.closed →
    Option.Rel (fun p q => R p.1 q.1 ∧ p.2.closed = q.2.closed) (m w) (m' w')

/-- The step cannot tell such worlds apart. -/
abbrev Respects (m : Step α) : Prop :=
  Agrees Eq m m

end Step

/-- Code is closed over its frame; frames and runs are hidden. -/
def Veil.closing : Veil where
  code := fun c f => c.close f
  frame _ := {}
  label _ _ l := l
  keepsRuns := false
  entry := id
  journal := id
  journal_cons _ _ := rfl
  evaluate_eq apply c f change recording := c.evaluate_close apply f change recording
  attrPath?_eq c f := c.attrPath?_close f
  label_of_pathless _ _ := rfl
  entry_relabel _ _ e := by
    cases e with
    | notice n => cases n <;> rfl
    | _ => rfl
  entry_of_plain _ _ := rfl

namespace Step

variable {α β γ δ : Type} {R : α → β → Prop} {S : γ → δ → Prop}

theorem agrees_iff {m : Step α} {m' : Step β} : Agrees R m m' ↔ Veil.closing.Agrees R m m' :=
  Iff.rfl

namespace Agrees

theorem pure {a : α} {b : β} (h : R a b) : Agrees R (Pure.pure a) (Pure.pure b) :=
  Veil.Agrees.pure (V := .closing) h

theorem imp {R' : α → β → Prop} {m : Step α} {m' : Step β} (h : Agrees R m m')
    (himp : ∀ a b, R a b → R' a b) : Agrees R' m m' :=
  Veil.Agrees.imp (agrees_iff.mp h) himp

theorem bind {m : Step α} {m' : Step β} {f : α → Step γ} {f' : β → Step δ} (hm : Agrees R m m')
    (hf : ∀ a b, R a b → Agrees S (f a) (f' b)) : Agrees S (m >>= f) (m' >>= f') :=
  Veil.Agrees.bind (agrees_iff.mp hm) hf

end Agrees

end Step

theorem World.attr?_of_closed {w w' : World} (h : w.closed = w'.closed) (o : Handle)
    (attr : String) : w.attr? o attr = w'.attr? o attr :=
  Veil.attr?_eq (V := .closing) h o attr

theorem notice_respects (n : Notice) : Step.Respects (Step.notice n) :=
  fun _ _ hw => .some ⟨rfl, congrArg (·.notice n) hw⟩

theorem announce_respects (n : Nat) (c : Change) : Step.Respects (announce n c) :=
  Veil.announce_respects (V := .closing) n c

/-- A site at which code has no frame. -/
def Site.closed (site : Site) : Site :=
  { site with frame := {}, run := none }

/-- Behind the veil a site is the same as the closed one. -/
theorem Site.alike_closed (site : Site) (kind : BindingKind) (code : Code) :
    Veil.closing.SitesAlike kind site site.closed code (code.close site.frame) :=
  ⟨rfl, rfl, (code.close_close site.frame {}).symm, rfl, nofun, rfl⟩

end LiveUI
