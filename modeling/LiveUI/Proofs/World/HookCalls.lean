import LiveUI.Proofs.World.Step
import LiveUI.Proofs.World.Composing
import LiveUI.Proofs.World.Phases

/-! # The calls of lifecycle hooks

The journal tells which hooks of a toolkit were called, and in which order. Only the lifecycle calls
them: whatever goes on when an attribute is written, a routine of the host runs or a binding is made,
no hook is among it, and the objects that come are new ones. Nor does any object enter a phase
meanwhile, but for those that are destroyed. -/

namespace LiveUI

/-- A call of a hook: the phase that is entered, the object that enters it and the parent that goes
with it. -/
structure HookCall where
  phase : Phase
  object : Handle
  parent : Option Handle
deriving DecidableEq, Repr

/-- The call of a hook that an entry tells of. -/
def Entry.hookCall? : Entry → Option HookCall
  | .hooked phase o parent => some ⟨phase, o, parent⟩
  | _ => none

theorem Entry.hookCall?_of_phase? {e : Entry} (h : e.phase? = none) : e.hookCall? = none := by
  cases e with
  | hooked phase o parent => cases h
  | _ => rfl

namespace World

/-- All calls of hooks so far, the first one first. -/
def hookCalls (w : World) : List HookCall :=
  w.journal.reverse.filterMap Entry.hookCall?

theorem hookCalls_log (w : World) (e : Entry) :
    (w.log e).hookCalls = w.hookCalls ++ e.hookCall?.toList := by
  rw [hookCalls, log, List.reverse_cons, List.filterMap_append]
  rfl

/-- Exactly these hooks have been called in between, in this order. -/
def Hooked (calls : List HookCall) (w w' : World) : Prop :=
  w'.hookCalls = w.hookCalls ++ calls

theorem Hooked.append {calls calls' : List HookCall} {w w₁ w' : World} (h : Hooked calls w w₁)
    (h' : Hooked calls' w₁ w') : Hooked (calls ++ calls') w w' := by
  rw [Hooked, h', h, List.append_assoc]

/-- No hook has been called in between, and the numbers of objects have gone on. -/
structure Unhooked (w w' : World) : Prop where
  hookCalls : w'.hookCalls = w.hookCalls
  nextObject : w.nextObject ≤ w'.nextObject

namespace Unhooked

variable {w w' w'' : World}

theorem refl (w : World) : Unhooked w w :=
  ⟨rfl, Nat.le_refl _⟩

theorem trans (h : Unhooked w w') (h' : Unhooked w' w'') : Unhooked w w'' :=
  ⟨h'.hookCalls.trans h.hookCalls, Nat.le_trans h.nextObject h'.nextObject⟩

instance : Trans Unhooked Unhooked Unhooked := ⟨trans⟩

theorem of_same (hjournal : w'.journal = w.journal) (hnext : w'.nextObject = w.nextObject) :
    Unhooked w w' :=
  ⟨by rw [World.hookCalls, hjournal, World.hookCalls], Nat.le_of_eq hnext.symm⟩

theorem log (w : World) {e : Entry} (he : e.hookCall? = none) : Unhooked w (w.log e) :=
  ⟨by rw [hookCalls_log, he, Option.toList_none, List.append_nil], Nat.le_refl _⟩

theorem hooked (h : Unhooked w w') : Hooked [] w w' :=
  h.hookCalls.trans (List.append_nil _).symm

theorem modifyObject (w : World) (o : Handle) (f : Object → Object) :
    Unhooked w (w.modifyObject o f) :=
  of_same rfl rfl

theorem create (w : World) (typeName : String) (attrs : List (String × Value)) :
    Unhooked w (w.create typeName attrs).2 :=
  ⟨rfl, Nat.le_succ _⟩

theorem mild : Mild Unhooked where
  trans := .trans
  same _ hnext hjournal := .of_same hjournal hnext
  modifyObject w o f _ _ := modifyObject w o f
  log w _ he := .log w (Entry.hookCall?_of_phase? he)
  create := create

theorem destroyTo (depth : Nat) (w : World) (o : Handle) : Unhooked w (w.destroyTo depth o) := by
  induction depth generalizing w o with
  | zero => exact refl w
  | succ depth ih =>
      unfold World.destroyTo
      split
      · exact refl w
      · split
        · exact refl w
        · obtain ⟨v, hin, heq⟩ := mild.exists_dismantle (List.foldl (World.destroyTo depth) _ _) o
          rw [heq]
          exact (((modifyObject w o _).trans (mild.foldl ih _ _)).trans hin).trans (log v rfl)

theorem everyday : Everyday Unhooked where
  toMild := mild
  destroy w o := destroyTo _ w o

end Unhooked

end World

open World

/-! ## Scripts without hooks -/

namespace Script

variable {α β : Type}

/-- No deed of the script is an entry that tells of a phase. -/
def Untold : {α : Type} → Script α → Prop
  | _, done _ => True
  | _, fail => True
  | _, look next => ∀ w, (next w).Untold
  | _, act d next => d.Untold ∧ next.Untold
  | _, within _ body next => body.Untold ∧ ∀ r, (next r).Untold

theorem Untold.run {T : World → World → Prop} (hT : Everyday T) {p : Script α} (h : p.Untold)
    {w w' : World} {a : α} (hrun : p.run w = some (a, w')) : T w w' := by
  induction p generalizing w w' with
  | done b =>
      obtain ⟨-, rfl⟩ := by simpa [Script.run] using hrun
      exact hT.refl w
  | fail => cases hrun
  | look next ih => exact ih w (h w) hrun
  | act d next ih => exact hT.trans (hT.deed h.1 w) (ih h.2 (run_act_eq_some.mp hrun).2)
  | within t body next ihBody ih =>
      obtain ⟨-, r, w₁, hbody, hrun⟩ := run_within_eq_some.mp hrun
      have hwithin := hT.trans (hT.trans (hT.begin t w) (ihBody h.1 hbody)) (hT.finish t w₁)
      exact hT.trans hwithin (ih r (h.2 r) hrun)

theorem Untold.bind {p : Script α} {k : α → Script β} (hp : p.Untold)
    (hk : ∀ a, (k a).Untold) : (p >>= k).Untold := by
  change (p.bind k).Untold
  induction p with
  | done a => exact hk a
  | fail => trivial
  | look next ih => exact fun w => ih w (hp w) hk
  | act d next ih => exact ⟨hp.1, ih hp.2 hk⟩
  | within t body next _ ih => exact ⟨hp.1, fun r => ih r (hp.2 r) hk⟩

/-- Whatever routines of the host and evaluations are made of calls no hooks. -/
theorem Untold.composes : Composes fun p => p.Untold where
  pure _ := trivial
  bind := .bind
  look hk := hk
  perform {d} hd := by
    refine ⟨?_, trivial⟩
    cases d with
    | log e =>
        cases e with
        | notice n => cases n <;> first | rfl | cases hd
        | report r => rfl
        | _ => cases hd
    | _ => trivial

namespace Untold

theorem look {k : World → Script β} (h : ∀ w, (k w).Untold) : (world >>= k).Untold := h

theorem perform {d : Deed} (h : d.Untold) : (Script.perform d).Untold := ⟨h, trivial⟩

theorem perform_bind {d : Deed} {k : Unit → Script β} (hd : d.Untold) (h : (k ()).Untold) :
    (Script.perform d >>= k).Untold := ⟨hd, h⟩

theorem inside {t : Stretch} {body : Script α} (h : body.Untold) :
    (Script.inside t body).Untold := ⟨h, fun _ => trivial⟩

end Untold

/-! ## Propagation -/

theorem guarded_untold {b : Nat} {work : Binding → Script (Except EvalError Unit)}
    (hwork : ∀ x, (work x).Untold) : (guarded b work).Untold := by
  refine .look fun w => ?_
  split
  · trivial
  · split
    · trivial
    · exact .inside (hwork _)

section Announcing

variable {announce : Change → Script Unit} (ha : ∀ c, (announce c).Untold)

include ha

theorem refresh_untold (b : Nat) : (refresh announce b).Untold := by
  refine guarded_untold fun x => .look fun w => ?_
  split
  · trivial
  · refine Untold.bind (.inside ?_) fun p => .perform_bind rfl ?_
    · exact (Untold.composes.evaluate (Untold.composes.applyFunc ha) _ true x.code).bind fun p =>
        .perform_bind rfl (.perform_bind trivial trivial)
    split
    · trivial
    · exact Untold.composes.storeValue ha x _

theorem writeBack_untold (b : Nat) (c : Change) : (writeBack announce b c).Untold := by
  refine guarded_untold fun x => (Untold.composes.sourceOf ha x).bind fun r => ?_
  split
  · trivial
  · refine .look fun w => ?_
    split
    · exact .perform_bind rfl trivial
    · refine .perform_bind rfl ((Untold.composes.setAttr ha _ _ _).bind fun _ => .look fun w => ?_)
      dsimp only
      split
      · trivial
      · exact (Untold.composes.setAttr ha _ _ _).bind fun _ => trivial

theorem fire_untold (b : Nat) (c : Change) : (fire announce b c).Untold := by
  refine guarded_untold fun x => Untold.composes.bring_bind rfl fun record => ?_
  have hvalue := Untold.composes.value (Untold.composes.applyFunc ha)
  refine .perform_bind rfl ((hvalue _ x.code).bind fun r => .perform_bind rfl ?_)
  split <;> trivial

theorem onSource_untold (x : Binding) : (onSource announce x).Untold := by
  refine .look fun w => ?_
  split
  · trivial
  · split
    · exact .perform rfl
    · split
      · exact .perform rfl
      · exact .perform_bind rfl ((refresh_untold ha x.id).bind (Untold.composes.noteFailure x.label))

theorem onTarget_untold (x : Binding) (c : Change) : (onTarget announce x c).Untold := by
  have hnote := Untold.composes.noteFailure x.label
  unfold onTarget
  cases x.kind with
  | bind => exact Untold.bind (p := pure _) trivial hnote
  | delegate => exact (writeBack_untold ha x.id c).bind hnote
  | notify => exact (fire_untold ha x.id c).bind hnote

theorem react_untold (callback : Callback) (c : Change) : (react announce callback c).Untold := by
  cases callback with
  | host h => exact (Untold.composes.routine ha (h c)).bind fun _ => trivial
  | source b =>
      refine .look fun w => ?_
      split
      · trivial
      · exact (onSource_untold ha _).bind fun _ => .perform trivial
  | target b =>
      refine .look fun w => ?_
      split
      · trivial
      · exact (onTarget_untold ha _ c).bind fun _ => .perform trivial

theorem deliver_untold (c : Change) (observers : List Observer) :
    (deliver announce c observers).Untold := by
  induction observers with
  | nil => trivial
  | cons x xs ih =>
      refine .look fun w => ?_
      split
      · exact .perform_bind rfl ((react_untold ha x.callback c).bind fun _ => ih)
      · exact ih

end Announcing

/-- No hook is called while a change is announced. -/
theorem announce_untold (n : Nat) (c : Change) : (announce n c).Untold := by
  induction n generalizing c with
  | zero => trivial
  | succ n ih =>
      refine .look fun w => ?_
      dsimp only
      split
      · trivial
      · exact .inside (deliver_untold ih c _)

end Script

/-! ## Steps without hooks -/

section Steps

variable {T : World → World → Prop} (hT : Everyday T) (n : Nat) (w : World)

include hT

/-- A step that follows a script of untold deeds goes along. -/
theorem Script.Untold.along {α : Type} {p : Script α} (h : p.Untold) {m : Step α}
    (hplays : Script.PlaysAll p m) : Step.Along T w m fun _ _ => True :=
  fun _ _ hrun => ⟨h.run hT ((hplays w).trans hrun), trivial⟩

theorem setAttr_everyday (o : Handle) (attr : String) (v : Value) :
    Step.Along T w (setAttr (announce n) o attr v) fun _ _ => True :=
  (Script.Untold.composes.setAttr (Script.announce_untold n) o attr v).along hT w
    (Script.setAttr_plays (Script.announce_plays n) o attr v)

theorem Host.run_everyday (h : Host) : Step.Along T w (h.run (announce n)) fun _ _ => True :=
  (Script.Untold.composes.routine (Script.announce_untold n) h).along hT w
    (Script.routine_plays (Script.announce_plays n) h)

theorem Code.value_everyday (scope : Scope) (code : Code) :
    Step.Along T w (code.value (applyFunc (announce n)) scope) fun _ _ => True :=
  (Script.Untold.composes.value (Script.Untold.composes.applyFunc (Script.announce_untold n))
    scope code).along hT w
    (Script.value_plays (Script.applyFunc_plays (Script.announce_plays n)) scope code)

theorem refresh_everyday (b : Nat) : Step.Along T w (refresh (announce n) b) fun _ _ => True :=
  (Script.refresh_untold (Script.announce_untold n) b).along hT w
    (Script.refresh_plays (Script.announce_plays n) b)

namespace Site

variable [Trans T T T] (site : Site) (code : Code)

theorem assign_everyday : Step.Along T w (site.assign (announce n) code) fun _ _ => True := by
  refine (code.value_everyday hT n w _).bind fun r w₁ _ _ => ?_
  split
  · exact .pure (hT.refl w₁) trivial
  · exact (setAttr_everyday hT n w₁ _ _ _).bind fun _ w₂ _ _ => .pure (hT.refl w₂) trivial

theorem newBinding_everyday (kind : BindingKind) :
    Step.Along T w (site.newBinding kind code) fun _ _ => True :=
  .get_bind (.set_bind (hT.same rfl rfl rfl) (.pure (hT.refl _) trivial))

theorem listenToTarget_everyday (b : Nat) : Step.Along T w (site.listenToTarget b) fun _ _ => True :=
  .modifyGet_bind (hT.observe w _ _ _) ((Step.Along.of_modify (hT.modifyBinding _ b _)).imp
    fun _ _ _ => trivial)

theorem own_everyday (b : Nat) : Step.Along T w (site.own b) fun _ _ => True :=
  .modify_bind (hT.modifyBinding w b _) ((Step.Along.of_modify (hT.modifyObject _ _
    (f := fun x => { x with bindings := x.bindings ++ [b] }) (fun _ => rfl) fun _ => rfl)).imp
    fun _ _ _ => trivial)

theorem bind_everyday : Step.Along T w (site.bind (announce n) code) fun _ _ => True := by
  refine (site.newBinding_everyday hT w code .bind).bind fun b w₁ _ _ => ?_
  refine (refresh_everyday hT n w₁ b).bind fun r w₂ _ _ => ?_
  split
  · exact .modify_bind (hT.disconnect w₂ b) (.pure (hT.refl _) trivial)
  · exact (site.own_everyday hT w₂ b).bind fun _ w₃ _ _ => .pure (hT.refl w₃) trivial

theorem delegate_everyday : Step.Along T w (site.delegate (announce n) code) fun _ _ => True := by
  unfold Site.delegate
  split
  · exact .pure (hT.refl w) trivial
  · refine (site.newBinding_everyday hT w code .delegate).bind fun b w₁ _ _ => ?_
    refine (refresh_everyday hT n w₁ b).bind fun r w₂ _ _ => ?_
    split
    · exact .modify_bind (hT.disconnect w₂ b) (.pure (hT.refl _) trivial)
    · refine (site.listenToTarget_everyday hT w₂ b).bind fun _ w₃ _ _ => ?_
      exact (site.own_everyday hT w₃ b).bind fun _ w₄ _ _ => .pure (hT.refl w₄) trivial

theorem notify_everyday : Step.Along T w (site.notify code) fun _ _ => True := by
  refine (site.newBinding_everyday hT w code .notify).bind fun b w₁ _ _ => ?_
  refine (site.listenToTarget_everyday hT w₁ b).bind fun _ w₂ _ _ => ?_
  exact (site.own_everyday hT w₂ b).bind fun _ w₃ _ _ => .pure (hT.refl w₃) trivial

end Site

end Steps

end LiveUI
