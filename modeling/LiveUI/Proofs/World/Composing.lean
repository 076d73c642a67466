import LiveUI.Proofs.World.Playing

/-! # Scripts that are put together

Routines of the host, evaluations and writes are made of looks at the world, of plain deeds and of
announcements, one after another. What is true of these, and of two scripts in a row if it is true of
both, is true of all of them. -/

namespace LiveUI

/-- Routines of the host do such deeds, and the machinery takes notice by them. They are no work of a
binding, and what they log tells of no phase. -/
def Deed.isPlain : Deed → Bool
  | log (.notice (.destroyed _)) => false
  | log (.notice _) | log (.report _) => true
  | log _ | release _ | resubscribe .. => false
  | _ => true

namespace Script

variable {α β : Type}

/-- A property that scripts have if their parts have it. -/
structure Composes (Q : {α : Type} → Script α → Prop) : Prop where
  pure {α : Type} (a : α) : Q (Pure.pure a)
  bind {α β : Type} {p : Script α} {k : α → Script β} (hp : Q p) (hk : ∀ a, Q (k a)) : Q (p >>= k)
  look {β : Type} {k : World → Script β} (hk : ∀ w, Q (k w)) : Q (world >>= k)
  perform {d : Deed} (hd : d.isPlain = true) : Q (perform d)

namespace Composes

variable {Q : {α : Type} → Script α → Prop} (h : Composes Q)

include h

theorem perform_bind {d : Deed} {k : Unit → Script β} (hd : d.isPlain = true) (hk : Q (k ())) :
    Q (Script.perform d >>= k) :=
  h.bind (h.perform hd) fun _ => hk

theorem bring_bind {view : World → α} {d : Deed} {k : α → Script β} (hd : d.isPlain = true)
    (hk : ∀ a, Q (k a)) : Q (bring view d >>= k) :=
  h.look (k := fun w => Script.perform d >>= fun _ => k (view w)) fun w =>
    h.perform_bind hd (hk (view w))

theorem noteFailure (label : String) (r : Except EvalError Unit) : Q (noteFailure label r) := by
  cases r with
  | ok _ => exact h.pure _
  | error e => exact h.perform rfl

/-! ## Evaluations -/

section Evaluations

variable {apply : Func → List Value → Script (Except EvalError Value)}
  (happly : ∀ f args, Q (apply f args)) (scope : Scope)

include happly

/-- An evaluation has the property, whatever has been read before. -/
theorem evaluate (recording : Bool) (code : Code) : Q (evaluate apply scope recording code) := by
  have hbind {α β : Type} {p : Evaluating α} {k : α → Evaluating β} (hp : ∀ reads, Q (p.run.run reads))
      (hk : ∀ a reads, Q ((k a).run.run reads)) (reads : Reads) : Q ((p >>= k).run.run reads) := by
    rw [run_evaluating_bind]
    refine h.bind (hp reads) fun q => ?_
    obtain ⟨r, reads'⟩ := q
    cases r with
    | ok a => exact hk a reads'
    | error e => exact h.pure _
  -- How a step would evaluate the code is of no consequence, so that one without functions will do.
  have hpairing : Pairing apply (fun _ _ => failure) fun p _ => ∀ reads, Q (p.run.run reads) := by
    refine ⟨fun a reads => h.pure _, fun e reads => h.pure _, fun hp hk => hbind hp hk,
      fun base attr => ?_, fun callee args => ?_⟩
    · cases base with
      | object o =>
          refine hbind (fun _ => h.pure _) fun _ =>
            hbind (fun _ => h.look fun _ => h.pure _) fun w => ?_
          cases w.attr? o attr <;> exact fun _ => h.pure _
      | _ => exact fun _ => h.pure _
    · cases callee with
      | func f => exact fun reads => h.bind (happly f args) fun _ => h.pure _
      | _ => exact fun _ => h.pure _
  exact h.bind (hpairing.eval scope code _) fun p => h.pure _

theorem value (code : Code) : Q (value apply scope code) :=
  h.bind (h.evaluate happly scope false code) fun _ => h.pure _

end Evaluations

/-! ## Writes and routines -/

section Announcing

variable {announce : Change → Script Unit} (ha : ∀ c, Q (announce c))

include ha

theorem setAttr (o : Handle) (attr : String) (v : Value) : Q (setAttr announce o attr v) := by
  have announced (old : Value) : Q (do
      Script.perform (.write o attr v)
      announce ⟨o, attr, old, v⟩
      return true) :=
    h.perform_bind rfl (h.bind (ha _) fun _ => h.pure true)
  refine h.look fun w => ?_
  cases w.attr? o attr with
  | none => exact announced .nil
  | some old =>
      dsimp only
      split
      · exact h.pure false
      · exact announced old

theorem emitAttr (o : Handle) (attr : String) (v : Value) : Q (emitAttr announce o attr v) :=
  h.look fun _ => h.perform_bind rfl (ha _)

theorem routine (r : Host) : Q (routine announce r) := by
  induction r with
  | done result => exact h.pure _
  | read o attr next ih => exact h.look fun w => ih _
  | write o attr v next ih => exact h.bind (h.setAttr ha o attr v) ih
  | emit o attr v next ih => exact h.bind (h.emitAttr ha o attr v) fun _ => ih
  | observe o attr callback next _ ih => exact h.bring_bind rfl ih
  | unobserve s next ih => exact h.perform_bind rfl ih
  | inFlight o attr next ih => exact h.look fun w => ih _
  | phase o next ih => exact h.look fun w => ih _
  | create typeName attrs next ih => exact h.bring_bind rfl ih
  | function name body next _ ih => exact h.bring_bind rfl ih
  | builtin f next ih => exact h.bring_bind rfl ih
  | destroy o next ih => exact h.perform_bind rfl ih
  | disconnect c next ih => exact h.perform_bind rfl ih
  | report r next ih => exact h.perform_bind rfl ih
  | «recall» next ih => exact h.look fun w => ih _
  | remember m next ih => exact h.perform_bind rfl ih

theorem applyFunc (f : Func) (args : List Value) : Q (applyFunc announce f args) := by
  simp only [Script.applyFunc]
  cases f.kind with
  | builtin c => exact h.pure _
  | host =>
      refine h.look fun w => ?_
      cases w.enterFunction? f args with
      | none => exact h.pure _
      | some p => exact h.perform_bind rfl (h.routine ha p.1)

theorem sourceOf (x : Binding) : Q (sourceOf announce x) := by
  unfold Script.sourceOf
  cases x.code.attrPath? with
  | none => exact h.pure _
  | some p =>
      refine h.bind (h.value (h.applyFunc ha) _ p.1) fun r => ?_
      cases r with
      | error e => exact h.pure _
      | ok v => cases v <;> exact h.pure _

theorem storeValue (x : Binding) (v : Value) : Q (storeValue announce x v) := by
  refine h.bind (h.setAttr ha x.target x.attr v) fun _ => ?_
  split
  · exact h.pure _
  · refine h.look fun w => ?_
    dsimp only
    split
    · exact h.pure _
    · refine h.bind (h.sourceOf ha x) fun r => ?_
      cases r with
      | error e => exact h.pure _
      | ok p => exact h.bind (h.setAttr ha p.1 p.2 _) fun _ => h.pure _

end Announcing

end Composes

end Script

end LiveUI
