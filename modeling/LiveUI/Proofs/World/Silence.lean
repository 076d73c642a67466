import LiveUI.Proofs.World.Composing
import LiveUI.Proofs.World.Reached
import LiveUI.Proofs.World.Removal
import LiveUI.Proofs.World.Turns

/-! # Silence that lasts

A binding without observers is not called, and without being called it does not come by observers. So
once it is silent it stays so, but for one case: a binding that loses its observers while it evaluates
its expression observes, right after that, what it has read. -/

namespace LiveUI

open World

/-- The binding is at work, or it evaluates, during the stretch. -/
def Stretch.IsOf (b : Nat) : Stretch → Prop
  | work c | evaluation c => c = b
  | dispatch _ => False

/-- The binding comes by observers. -/
def Deed.Rouses (b : Nat) : Deed → Prop
  | resubscribe c _ => c = b
  | _ => False

/-- An evaluation of the binding's expression has come to its end. -/
def Deed.Evaluates (b : Nat) : Deed → Prop
  | log (.evaluated c _ _) => c = b
  | _ => False

namespace World

variable {w : World} {b : Nat}

theorem Silent.deed (h : w.Silent b) {d : Deed} (hd : ¬d.Rouses b) : (d.apply w).Silent b := by
  have hwanes : ∀ {w'}, Wanes w w' → w'.Silent b := h.wanes
  cases d with
  | log e => exact h
  | write o attr v =>
      exact fun p obs hobs => h p obs (observers_write w o p attr v ▸ hobs)
  | create typeName attrs => exact fun o obs hobs => h o obs (observers_create w typeName attrs o ▸ hobs)
  | observe o attr routine =>
      intro p obs hobs
      change obs ∈ (w.observe o attr (.host routine)).2.observers p at hobs
      obtain hobs | ⟨-, -, rfl⟩ := mem_observers_observe.mp hobs
      · exact h p obs hobs
      · nofun
  | unobserve s =>
      exact fun o obs hobs => h o obs (mem_observers_unobserve.mp hobs).1
  | function name body => exact h
  | builtin b => exact h
  | enter f args =>
      obtain ⟨functions, heq⟩ := Deed.apply_enter f args w
      rw [heq]
      exact h
  | remember m => exact h
  | destroy p => exact hwanes (destroyTo_fells _ w p p).toWanes
  | disconnect c => exact hwanes (.disconnect w c)
  | release c =>
      change (w.release c).Silent b
      obtain heq | heq := w.release_cases c
      · rwa [heq]
      · rw [heq]
        exact hwanes (.disconnect w c)
  | resubscribe c reads =>
      intro o obs hobs
      obtain ⟨hobs, -⟩ := mem_observers_unobserveAll.mp hobs
      rcases Heard.mem_observeAll hobs with hold | ⟨hcall, -⟩
      · exact h o obs hold
      · rw [hcall]
        exact fun heq => hd (Option.some.inj heq)

theorem Silent.begin (h : w.Silent b) (t : Stretch) : (t.begin w).Silent b :=
  fun o obs hobs => h o obs ((mem_observers_begin t w).mp hobs)

theorem Silent.finish (h : w.Silent b) (t : Stretch) : (t.finish w).Silent b :=
  fun o obs hobs => h o obs ((mem_observers_finish t w).mp hobs)

end World

namespace Script

variable {α β : Type} {b : Nat} {busy : Prop} {w : World}

/-- What silence the script comes upon lasts to its end, unless the binding is evaluating. While there
is silence, the binding does nothing, and what it does otherwise it does at work. -/
structure KeepsSilence (b : Nat) (busy : Prop) (p : Script α) (w : World) : Prop where
  lasts : ∀ a w', p.run w = some (a, w') → ∀ s v, p.Passes w s v → .evaluation b ∉ s → v.Silent b →
    w'.Silent b
  idle : w.Silent b → ∀ s v, p.Passes w s v → ∀ t ∈ s, ¬t.IsOf b
  atWork : ¬busy → ∀ s d v, p.Does w s d v → d.Evaluates b → .work b ∈ s

namespace KeepsSilence

theorem pure (a : α) : KeepsSilence b busy (Pure.pure a) w := by
  refine ⟨fun _ w' hrun s v hpass _ hsilent => ?_, fun _ s v hpass => ?_,
    fun _ s d v hdoes heval => ?_⟩
  · obtain ⟨-, rfl⟩ := Prod.mk.inj (Option.some.inj hrun)
    cases hpass
    exact hsilent
  · cases hpass
    simp
  · cases hdoes

theorem of_fail : KeepsSilence b busy (.fail : Script α) w := by
  refine ⟨fun _ w' hrun => (by cases hrun), fun _ s v hpass => ?_, fun _ s d v hdoes heval => ?_⟩
  · cases hpass
    simp
  · cases hdoes

theorem bind {p : Script α} {k : α → Script β} (hp : KeepsSilence b busy p w)
    (hk : ∀ a w₁, p.run w = some (a, w₁) → KeepsSilence b busy (k a) w₁) :
    KeepsSilence b busy (p >>= k) w := by
  refine ⟨fun a w' hrun s v hpass hnot hsilent => ?_, fun hsilent s v hpass => ?_,
    fun hidle s d v hdoes heval => ?_⟩
  · rw [run_bind] at hrun
    obtain ⟨⟨a₁, w₁⟩, hrun₁, hrun⟩ := Option.bind_eq_some_iff.mp hrun
    rcases passes_bind hpass with hpass | ⟨a₂, w₂, hrun₂, hpass⟩
    · have hmiddle := hp.lasts a₁ w₁ hrun₁ s v hpass hnot hsilent
      exact (hk a₁ w₁ hrun₁).lasts a w' hrun [] w₁ .now List.not_mem_nil hmiddle
    · obtain ⟨rfl, rfl⟩ := Prod.mk.inj (Option.some.inj (hrun₁.symm.trans hrun₂))
      exact (hk a₁ w₁ hrun₁).lasts a w' hrun s v hpass hnot hsilent
  · rcases passes_bind hpass with hpass | ⟨a₁, w₁, hrun₁, hpass⟩
    · exact hp.idle hsilent s v hpass
    · exact (hk a₁ w₁ hrun₁).idle (hp.lasts a₁ w₁ hrun₁ [] w .now List.not_mem_nil hsilent) s v hpass
  · rcases does_bind hdoes with hdoes | ⟨a₁, w₁, hrun₁, hdoes⟩
    · exact hp.atWork hidle s d v hdoes heval
    · exact (hk a₁ w₁ hrun₁).atWork hidle s d v hdoes heval

theorem look {k : World → Script β} (h : KeepsSilence b busy (k w) w) :
    KeepsSilence b busy (world >>= k) w := by
  change KeepsSilence b busy (.look k) w
  refine ⟨fun a w' hrun s v hpass hnot hsilent => ?_, fun hsilent s v hpass => ?_,
    fun hidle s d v hdoes heval => ?_⟩
  · cases hpass with
    | now => exact h.lasts a w' hrun [] w .now List.not_mem_nil hsilent
    | look hpass => exact h.lasts a w' hrun s v hpass hnot hsilent
  · cases hpass with
    | now => simp
    | look hpass => exact h.idle hsilent s v hpass
  · cases hdoes with
    | look hdoes => exact h.atWork hidle s d v hdoes heval

theorem perform {d : Deed} (hd : ¬d.Rouses b)
    (hatWork : ¬busy → ¬d.Evaluates b) :
    KeepsSilence b busy (perform d) w := by
  change KeepsSilence b busy (.act d (.done ())) w
  refine ⟨fun a w' hrun s v hpass _ hsilent => ?_, fun _ s v hpass => ?_,
    fun hidle s d' v hdoes heval => ?_⟩
  · obtain ⟨-, hrun⟩ := run_act_eq_some.mp hrun
    obtain ⟨-, rfl⟩ := Prod.mk.inj (Option.some.inj hrun)
    cases hpass with
    | now => exact hsilent.deed hd
    | act _ hpass =>
        cases hpass
        exact hsilent
  · cases hpass with
    | now => simp
    | act _ hpass =>
        cases hpass
        simp
  · cases hdoes with
    | now => exact absurd heval (hatWork hidle)
    | act _ hdoes => cases hdoes

theorem inside {t : Stretch} {p : Script α} (hsilent : t.IsOf b → ¬w.Silent b)
    (hp : t.canBegin w = true → KeepsSilence b (busy ∨ t = .work b) p (t.begin w)) :
    KeepsSilence b busy (inside t p) w := by
  change KeepsSilence b busy (.within t p .done) w
  refine ⟨fun a w' hrun s v hpass hnot hsilentNow => ?_, fun hsilentNow s v hpass => ?_,
    fun hidle s d v hdoes heval => ?_⟩
  · obtain ⟨hbegin, a₁, w₁, hbody, hrun⟩ := run_within_eq_some.mp hrun
    obtain ⟨-, rfl⟩ := Prod.mk.inj (Option.some.inj hrun)
    have hlasts := (hp hbegin).lasts a₁ w₁ hbody
    cases hpass with
    | now => exact (hlasts [] _ .now List.not_mem_nil (hsilentNow.begin t)).finish t
    | inside _ hpass =>
        exact (hlasts _ v hpass (fun hmem => hnot (List.mem_append_left _ hmem)) hsilentNow).finish t
    | after _ hbody' hpass =>
        obtain ⟨rfl, rfl⟩ := Prod.mk.inj (Option.some.inj (hbody.symm.trans hbody'))
        cases hpass
        exact hsilentNow
  · cases hpass with
    | now => simp
    | inside hbegin hpass =>
        intro t' ht'
        rcases List.mem_append.mp ht' with ht' | ht'
        · exact (hp hbegin).idle (hsilentNow.begin t) _ v hpass t' ht'
        · rw [List.mem_singleton.mp ht']
          exact fun hof => hsilent hof hsilentNow
    | after _ _ hpass =>
        cases hpass
        simp
  · cases hdoes with
    | inside hbegin hdoes =>
        by_cases hwork : t = .work b
        · exact List.mem_append_right _ (List.mem_singleton.mpr hwork.symm)
        · exact List.mem_append_left _
            ((hp hbegin).atWork (fun h => h.elim hidle hwork) _ d v hdoes heval)
    | after _ _ hdoes => cases hdoes

/-- What happens while the binding evaluates is nothing to go by. -/
theorem evaluation {p : Script α} (hbusy : busy) (hsilent : ¬w.Silent b) :
    KeepsSilence b busy (Script.inside (.evaluation b) p) w := by
  change KeepsSilence b busy (.within (.evaluation b) p .done) w
  refine ⟨fun a w' hrun s v hpass hnot hsilentNow => ?_, fun hsilentNow => absurd hsilentNow hsilent,
    fun hidle => absurd hbusy hidle⟩
  obtain ⟨hbegin, a₁, w₁, hbody, hrun⟩ := run_within_eq_some.mp hrun
  obtain ⟨-, rfl⟩ := Prod.mk.inj (Option.some.inj hrun)
  cases hpass with
  | now => exact absurd hsilentNow hsilent
  | inside _ hpass => exact absurd (List.mem_append_right _ List.mem_cons_self) hnot
  | after _ hbody' hpass =>
      obtain ⟨rfl, rfl⟩ := Prod.mk.inj (Option.some.inj (hbody.symm.trans hbody'))
      cases hpass
      exact hsilentNow

end KeepsSilence

/-- From each orderly world. -/
abbrev KeepsSilenceAll (b : Nat) (busy : Prop) (p : Script α) : Prop :=
  ∀ w, w.Orderly → KeepsSilence b busy p w

namespace KeepsSilenceAll

theorem pure (a : α) : KeepsSilenceAll b busy (Pure.pure a) :=
  fun _ _ => .pure a

theorem bind {p : Script α} {k : α → Script β} (hp : KeepsSilenceAll b busy p)
    (hk : ∀ a, KeepsSilenceAll b busy (k a)) : KeepsSilenceAll b busy (p >>= k) :=
  fun w hw => (hp w hw).bind fun a w₁ hrun => hk a w₁ ((Upholds.run hrun).orderly hw)

theorem look {k : World → Script β} (hk : ∀ v, KeepsSilenceAll b busy (k v)) :
    KeepsSilenceAll b busy (world >>= k) :=
  fun w hw => .look (hk w w hw)

theorem perform_bind {d : Deed} {k : Unit → Script β} (hd : ¬d.Rouses b)
    (hatWork : ¬busy → ¬d.Evaluates b) (hk : KeepsSilenceAll b busy (k ())) :
    KeepsSilenceAll b busy (perform d >>= k) :=
  .bind (fun _ _ => .perform hd hatWork) fun _ => hk

theorem bring_bind {d : Deed} {view : World → α} {k : α → Script β} (hd : ¬d.Rouses b)
    (hatWork : ¬busy → ¬d.Evaluates b) (hk : ∀ a, KeepsSilenceAll b busy (k a)) :
    KeepsSilenceAll b busy (bring view d >>= k) :=
  fun w hw => .look (perform_bind (k := fun _ => k (view w)) hd hatWork (hk (view w)) w hw)

end KeepsSilenceAll

/-- Routines of the host and evaluations provide no binding with observers, and are no evaluations of
bindings. -/
theorem KeepsSilenceAll.composes (b : Nat) (busy : Prop) :
    Composes fun p => KeepsSilenceAll b busy p where
  pure := .pure
  bind := .bind
  look := .look
  perform {d} hd := by
    refine fun _ _ => .perform (fun hrouses => ?_) fun _ heval => ?_
    · cases d with
      | resubscribe c reads => cases hd
      | _ => exact hrouses
    · cases d with
      | log e => cases e <;> first | exact heval | cases hd
      | _ => exact heval

/-! ## Propagation -/

section Announcing

variable {announce : Change → Script Unit} (ha : ∀ busy c, KeepsSilenceAll b busy (announce c))

include ha

theorem setAttr_keepsSilence (o : Handle) (attr : String) (v : Value) :
    KeepsSilenceAll b busy (setAttr announce o attr v) :=
  (KeepsSilenceAll.composes b busy).setAttr (ha busy) o attr v

theorem emitAttr_keepsSilence (o : Handle) (attr : String) (v : Value) :
    KeepsSilenceAll b busy (emitAttr announce o attr v) :=
  (KeepsSilenceAll.composes b busy).emitAttr (ha busy) o attr v

theorem routine_keepsSilence (h : Host) : KeepsSilenceAll b busy (routine announce h) :=
  (KeepsSilenceAll.composes b busy).routine (ha busy) h

theorem applyFunc_keepsSilence (f : Func) (args : List Value) :
    KeepsSilenceAll b busy (applyFunc announce f args) :=
  (KeepsSilenceAll.composes b busy).applyFunc (ha busy) f args

theorem value_keepsSilence (scope : Scope) (code : Code) :
    KeepsSilenceAll b busy (value (applyFunc announce) scope code) :=
  (KeepsSilenceAll.composes b busy).value (applyFunc_keepsSilence ha) scope code

/-! ## Bindings at work -/

omit ha in
/-- A silent binding is not set to work. -/
theorem guarded_keepsSilence {c : Nat} {work : Binding → Script (Except EvalError Unit)} (hw : w.Orderly)
    (hcalled : c = b → ¬w.Silent b)
    (hwork : ∀ x v, v.Orderly → (c = b → ¬v.Silent b) →
      KeepsSilence b (busy ∨ Stretch.work c = .work b) (work x) v) :
    KeepsSilence b busy (guarded c work) w := by
  refine .look ?_
  cases w.binding? c with
  | none => exact .pure _
  | some x =>
      dsimp only
      split
      · exact .pure _
      · refine .inside hcalled fun _ => hwork x _ (hw.begin _) fun hc hsilent => hcalled hc ?_
        exact fun o obs hobs => hsilent o obs ((mem_observers_begin _ w).mpr hobs)

theorem sourceOf_keepsSilence (x : Binding) : KeepsSilenceAll b busy (sourceOf announce x) :=
  (KeepsSilenceAll.composes b busy).sourceOf (ha busy) x

theorem storeValue_keepsSilence (x : Binding) (v : Value) :
    KeepsSilenceAll b busy (storeValue announce x v) :=
  (KeepsSilenceAll.composes b busy).storeValue (ha busy) x v

omit ha in
theorem notice_keepsSilence (n : Notice) : KeepsSilenceAll b busy (notice n) :=
  fun _ _ => .perform id fun _ => id

theorem refresh_keepsSilence {c : Nat} (hw : w.Orderly) (hcalled : c = b → ¬w.Silent b) :
    KeepsSilence b busy (refresh announce c) w := by
  refine guarded_keepsSilence hw hcalled fun x v hv hcalled => .look ?_
  split
  · exact .pure _
  · refine KeepsSilence.bind ?_ fun p w₁ hrun => ?_
    · -- Only its own evaluation provides the binding with observers, and it had some before.
      by_cases hc : c = b
      · subst hc
        exact .evaluation (.inr rfl) (hcalled rfl)
      · refine .inside (fun hof => absurd hof hc) fun _ => ?_
        refine (((KeepsSilenceAll.composes b _).evaluate (applyFunc_keepsSilence ha) _ true x.code).bind
          fun p => ?_) v hv
        exact .perform_bind id (fun _ => hc) (.perform_bind hc (fun _ => id) (.pure p))
    · obtain ⟨r, reads⟩ := p
      refine (KeepsSilenceAll.bind (notice_keepsSilence _) fun _ => ?_) w₁
        ((Upholds.run hrun).orderly hv)
      cases r with
      | error e => exact .pure _
      | ok v => exact storeValue_keepsSilence ha x v

omit ha in
theorem noteFailure_keepsSilence (label : String) (r : Except EvalError Unit) :
    KeepsSilenceAll b busy (noteFailure label r) :=
  (KeepsSilenceAll.composes b busy).noteFailure label r

theorem onSource_keepsSilence {x : Binding} (hw : w.Orderly) (hcalled : x.id = b → ¬w.Silent b) :
    KeepsSilence b busy (onSource announce x) w := by
  refine .look ?_
  split
  · exact .pure _
  · split
    · exact notice_keepsSilence _ w hw
    · split
      · exact notice_keepsSilence _ w hw
      · refine KeepsSilence.bind (notice_keepsSilence _ w hw) fun _ w₁ hrun => ?_
        have hw₁ := (Upholds.run hrun).orderly hw
        obtain ⟨-, rfl⟩ := Prod.mk.inj (Option.some.inj hrun)
        exact (refresh_keepsSilence ha hw₁ hcalled).bind fun r w₂ hrun₂ =>
          noteFailure_keepsSilence x.label r w₂ ((Upholds.run hrun₂).orderly hw₁)

theorem writeBack_keepsSilence {c : Nat} (change : Change) (hw : w.Orderly)
    (hcalled : c = b → ¬w.Silent b) : KeepsSilence b busy (writeBack announce c change) w := by
  refine guarded_keepsSilence hw hcalled fun x v hv _ => ?_
  refine ((sourceOf_keepsSilence ha x).bind fun r => ?_) v hv
  cases r with
  | error e => exact .pure _
  | ok p =>
      refine .look fun w => ?_
      split
      · exact (notice_keepsSilence _).bind fun _ => .pure _
      · refine (notice_keepsSilence _).bind fun _ => (setAttr_keepsSilence ha p.1 p.2 _).bind fun _ =>
          .look fun w => ?_
        dsimp only
        split
        · exact .pure _
        · exact (setAttr_keepsSilence ha _ _ _).bind fun _ => .pure _

theorem fire_keepsSilence {c : Nat} (change : Change) (hw : w.Orderly)
    (hcalled : c = b → ¬w.Silent b) : KeepsSilence b busy (fire announce c change) w := by
  refine guarded_keepsSilence hw hcalled fun x v hv _ => ?_
  refine (KeepsSilenceAll.bring_bind id (fun _ => id) fun record => ?_) v hv
  refine .perform_bind id (fun _ => id) ?_
  refine (value_keepsSilence ha _ x.code).bind fun r => ?_
  refine .perform_bind id (fun hidle hc => hidle (.inr (congrArg Stretch.work hc))) ?_
  cases r <;> exact .pure _

theorem onTarget_keepsSilence {x : Binding} (c : Change) (hw : w.Orderly)
    (hcalled : x.id = b → ¬w.Silent b) : KeepsSilence b busy (onTarget announce x c) w := by
  have hnoted {p : Script (Except EvalError Unit)} (hp : KeepsSilence b busy p w) :
      KeepsSilence b busy (p >>= noteFailure x.label) w :=
    hp.bind fun r w₁ hrun => noteFailure_keepsSilence x.label r w₁ ((Upholds.run hrun).orderly hw)
  unfold onTarget
  cases x.kind with
  | bind => exact hnoted (.pure _)
  | delegate => exact hnoted (writeBack_keepsSilence ha c hw hcalled)
  | notify => exact hnoted (fire_keepsSilence ha c hw hcalled)

/-- A callback that belongs to the binding is called while the binding has observers. -/
theorem react_keepsSilence {callback : Callback} (c : Change) (hw : w.Orderly)
    (hcalled : callback.binding? = some b → ¬w.Silent b) :
    KeepsSilence b busy (react announce callback c) w := by
  have hreleased {d : Nat} {p : Script Unit} (hp : KeepsSilence b busy p w) :
      KeepsSilence b busy (p >>= fun _ => perform (.release d)) w :=
    hp.bind fun _ w₁ _ => .perform id fun _ => id
  have hserves {d : Nat} {x : Binding} (hx : w.binding? d = some x) (hid : x.id = b) : some d = some b :=
    congrArg some ((id_of_binding? w hx).symm.trans hid)
  cases callback with
  | host h => exact ((routine_keepsSilence ha (h c)).bind fun _ => .pure ()) w hw
  | source d =>
      refine .look ?_
      cases hx : w.binding? d with
      | none => exact .pure _
      | some x =>
          exact hreleased (onSource_keepsSilence ha hw fun hid => hcalled (hserves hx hid))
  | target d =>
      refine .look ?_
      cases hx : w.binding? d with
      | none => exact .pure _
      | some x =>
          exact hreleased (onTarget_keepsSilence ha c hw fun hid => hcalled (hserves hx hid))

/-- The observers of a snapshot are called only as long as they are there. -/
theorem deliver_keepsSilence {w₀ : World} (hw₀ : w₀.Tidy) (c : Change) {xs : List Observer}
    (hxs : ∀ obs ∈ xs, obs ∈ w₀.observers c.object) (hw : w.Orderly) (hlater : StaysTidy w₀ w) :
    KeepsSilence b busy (deliver announce c xs) w := by
  induction xs generalizing w with
  | nil => exact .pure _
  | cons x xs ih =>
      obtain ⟨hx, hxs⟩ := List.forall_mem_cons.mp hxs
      refine .look ?_
      split
      next hregistered =>
        have hthere := (isRegistered_iff_mem hw₀ (hlater hw₀).2 hx).mp hregistered
        refine KeepsSilence.bind (.perform id fun _ => id) fun _ w₁ hrun => ?_
        have hw₁ := (Upholds.run hrun).orderly hw
        have hlater₁ := hlater.trans (StaysTidy.enduring.run hrun)
        obtain ⟨-, rfl⟩ := Prod.mk.inj (Option.some.inj hrun)
        have hcalled (hcall : x.callback.binding? = some b) : ¬w.Silent b :=
          fun hsilent => hsilent c.object x hthere hcall
        exact (react_keepsSilence ha c hw₁ hcalled).bind fun _ w₂ hrun₂ =>
          ih hxs ((Upholds.run hrun₂).orderly hw₁) (hlater₁.trans (StaysTidy.enduring.run hrun₂))
      next => exact ih hxs hw hlater

end Announcing

/-- Wherever changes are announced, silence lasts. -/
theorem announce_keepsSilence (n : Nat) (c : Change) : KeepsSilenceAll b busy (announce n c) := by
  induction n generalizing busy c with
  | zero => exact fun _ _ => .of_fail
  | succ n ih =>
      intro w hw
      refine .look ?_
      dsimp only
      split
      · exact .pure _
      · have hsnapshot : ∀ obs ∈ w.observersOf c.object c.attr,
            obs ∈ (w.beginFlight c).observers c.object := fun obs hobs =>
          (mem_observers_begin (.dispatch c) w).mpr ((w.observersOf_sublist _ _).subset hobs)
        have hbegun : (w.beginFlight c).Orderly := hw.begin (.dispatch c)
        exact .inside False.elim fun _ =>
          deliver_keepsSilence (fun _ c => ih c) hbegun.tidy c hsnapshot hbegun (.refl _)

end Script

end LiveUI
