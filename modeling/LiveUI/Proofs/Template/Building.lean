import LiveUI.Proofs.Template.Interpreter
import LiveUI.Proofs.Template.VeiledRuns
import LiveUI.Proofs.World.Resemblance

/-! # Building in worlds that resemble each other

What a run does in one statement agrees with what the interpreter does with the values of the slots
put in. Both come to the same result or to the same error. -/

namespace LiveUI.Template

open Step

/-- Related values, or the same error. -/
inductive Outcomes {α β : Type} (R : α → β → Prop) :
    Except RuntimeError α → Except RuntimeError β → Prop where
  | ok {a : α} {b : β} (h : R a b) : Outcomes R (.ok a) (.ok b)
  | error (e : RuntimeError) : Outcomes R (.error e) (.error e)

namespace Building

variable {α β γ δ : Type}

/-- From worlds that resemble each other, building comes to related results or to the same error,
and to worlds that resemble each other. -/
def Agrees (R : α → β → Prop) (m : Building α) (m' : Building β) : Prop :=
  Step.Agrees (Outcomes R) m.run m'.run

/-- Building cannot tell such worlds apart. -/
abbrev Respects (m : Building α) : Prop :=
  Agrees Eq m m

variable {R : α → β → Prop} {S : γ → δ → Prop}

/-- It is to concur behind the veil with the places kept. -/
theorem agrees_iff {m : Building α} {m' : Building β} :
    Agrees R m m' ↔ Concurs .closing id R m m' := by
  have hsame {e e' : RuntimeError} (h : e.replace id = e'.replace id) : e = e' := by
    simpa only [RuntimeError.replace_id] using h
  constructor
  · refine fun h => Veil.Agrees.imp (V := .closing) h fun r r' hr => ?_
    cases hr with
    | ok h => exact .ok h
    | error e => exact .error rfl
  · refine fun h => Veil.Agrees.imp (V := .closing) h fun r r' hr => ?_
    cases hr with
    | ok h => exact .ok h
    | error h => exact hsame h ▸ .error _

namespace Agrees

theorem pure {a : α} {b : β} (h : R a b) : Agrees R (Pure.pure a) (Pure.pure b) :=
  Step.Agrees.pure (.ok h)

theorem throw (e : RuntimeError) :
    Agrees R (MonadExcept.throw e : Building α) (MonadExcept.throw e) :=
  Step.Agrees.pure (.error e)

theorem imp {R' : α → β → Prop} {m : Building α} {m' : Building β} (h : Agrees R m m')
    (himp : ∀ a b, R a b → R' a b) : Agrees R' m m' := by
  refine Step.Agrees.imp h fun a b hab => ?_
  cases hab with
  | ok h => exact .ok (himp _ _ h)
  | error e => exact .error e

theorem bind {m : Building α} {m' : Building β} {f : α → Building γ} {f' : β → Building δ}
    (hm : Agrees R m m') (hf : ∀ a b, R a b → Agrees S (f a) (f' b)) :
    Agrees S (m >>= f) (m' >>= f') :=
  agrees_iff.mpr ((agrees_iff.mp hm).bind fun a b hab => agrees_iff.mp (hf a b hab))

theorem bind_same {m : Building α} {f : α → Building γ} {f' : α → Building δ} (hm : Respects m)
    (hf : ∀ a, Agrees S (f a) (f' a)) : Agrees S (m >>= f) (m >>= f') :=
  hm.bind fun a _ hab => hab ▸ hf a

theorem lift {m : Step α} {m' : Step β} (h : Step.Agrees R m m') :
    Agrees R (ExceptT.lift m) (ExceptT.lift m') :=
  agrees_iff.mpr (.lift (Step.agrees_iff.mp h))

theorem ofExcept_bind {r : Except RuntimeError α} {f : α → Building γ} {f' : α → Building δ}
    (hf : ∀ a, r = .ok a → Agrees S (f a) (f' a)) :
    Agrees S (ExceptT.mk (Pure.pure r) >>= f) (ExceptT.mk (Pure.pure r) >>= f') :=
  agrees_iff.mpr (Concurs.ofExcept_bind fun a ha => agrees_iff.mp (hf a ha))

theorem get_bind {f : World → Building γ} {f' : World → Building δ}
    (hf : ∀ w w' : World, w.closed = w'.closed → Agrees S (f w) (f' w')) :
    Agrees S (getThe World >>= f) (getThe World >>= f') :=
  fun w w' hw => hf w w' hw w w' hw

end Agrees

end Building

open Building

/-! ## Statements -/

section Statements

variable {announce : Announce}

theorem evalAt_close (frame : Frame) (place : Location) (code : Code) :
    evalAt announce {} place (code.close frame) = evalAt announce frame place code := by
  simp only [evalAt, Code.value_close]

/-- What a target writes to, with the values of the slots put in. -/
def TargetCode.closed (frame : Frame) (t : TargetCode) : TargetCode :=
  { t with base := t.base.close frame }

theorem targetObject_closed (frame : Frame) (t : TargetCode) (place : Location) :
    targetObject announce {} (t.closed frame) place = targetObject announce frame t place := by
  simp only [targetObject, TargetCode.closed, evalAt_close]

variable (ha : ∀ c, Step.Respects (announce c))

include ha

theorem evalAt_respects (frame : Frame) (place : Location) (code : Code) :
    Building.Respects (evalAt announce frame place code) :=
  Building.agrees_iff.mpr (evalAt_concurs (V := .closing) ha frame rfl code)

theorem targetObject_respects (frame : Frame) (t : TargetCode) (place : Location) :
    Building.Respects (targetObject announce frame t place) :=
  Building.agrees_iff.mpr (targetObject_concurs (V := .closing) ha frame t rfl)

theorem applyOperator_agrees (site : Site) (op : Markup.Operator) (code : Code) :
    Step.Agrees Eq (applyOperator announce site op code)
      (applyOperator announce site.closed op (code.close site.frame)) :=
  applyOperator_veiled (V := .closing) ha fun kind _ => site.alike_closed kind code

end Statements

theorem addChildren_respects (parent : Handle) (children : List Instance) :
    Step.Respects (children.forM fun child => modify (·.addChild parent child.object)) :=
  addChildren_veiled (V := .closing) parent children

end LiveUI.Template
