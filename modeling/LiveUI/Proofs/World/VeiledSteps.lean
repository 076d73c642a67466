import LiveUI.Proofs.World.Veils

/-! # Nothing sees through a veil

Evaluations, routines of the host, bindings at work, announcements and the making of bindings go on
alike in worlds that look the same behind a veil. -/

namespace LiveUI

namespace Veil

variable {V : Veil}

/-! ## Evaluations -/

variable (V) in
def EvaluationRespects {α : Type} (m : Evaluation α) : Prop :=
  ∀ s : Reads, V.Respects (m.run.run s)

namespace EvaluationRespects

open Evaluation

variable {α β : Type}

theorem pure (a : α) : V.EvaluationRespects (Pure.pure a) :=
  fun _ => Agrees.pure rfl

theorem throw (e : EvalError) : V.EvaluationRespects (MonadExcept.throw e : Evaluation α) :=
  fun _ => Agrees.pure rfl

theorem bind {m : Evaluation α} {f : α → Evaluation β} (hm : V.EvaluationRespects m)
    (hf : ∀ a, V.EvaluationRespects (f a)) : V.EvaluationRespects (m >>= f) := by
  intro s w w' hw
  have hrel := hm s w w' hw
  change Option.Rel _ (outcome (m >>= f) s w) (outcome (m >>= f) s w')
  rw [outcome_bind, outcome_bind]
  change Option.Rel _ (outcome m s w) (outcome m s w') at hrel
  generalize outcome m s w = r, outcome m s w' = r' at hrel ⊢
  cases hrel with
  | none => exact .none
  | @some p q h =>
      obtain ⟨⟨r, s₁⟩, w₁⟩ := p
      obtain ⟨⟨r', s₁'⟩, w₁'⟩ := q
      obtain ⟨heq, hw₁⟩ := h
      obtain ⟨rfl, rfl⟩ := by simpa using heq
      cases r with
      | ok a => exact hf a s₁ w₁ w₁' hw₁
      | error e => exact .some ⟨rfl, hw₁⟩

theorem readAttr (base : Value) (attr : String) :
    V.EvaluationRespects (readAttr base attr) := by
  cases base with
  | object o =>
      intro s w w' hw
      change Option.Rel _ (outcome (Evaluation.readAttr (.object o) attr) s w)
        (outcome (Evaluation.readAttr (.object o) attr) s w')
      rw [outcome_readAttr, outcome_readAttr, attr?_eq hw]
      exact .some ⟨rfl, hw⟩
  | _ => exact throw _

theorem call {apply : Apply} (happly : ∀ f args, V.Respects (apply f args)) (callee : Value)
    (args : List Value) : V.EvaluationRespects (Evaluation.call apply callee args) := by
  cases callee with
  | func f =>
      intro s w w' hw
      have hrun : ∀ v, outcome (Evaluation.call apply (.func f) args) s v =
          (apply f args v).map fun p => ((p.1, s), p.2) := by
        intro v
        change (apply f args v).bind _ = _
        cases apply f args v <;> rfl
      have hrel := happly f args w w' hw
      change Option.Rel _ (outcome _ s w) (outcome _ s w')
      rw [hrun, hrun]
      simp only [AgreesFrom] at hrel
      generalize apply f args w = r, apply f args w' = r' at hrel ⊢
      cases hrel with
      | none => exact .none
      | some h => exact .some ⟨congrArg (·, s) h.1, h.2⟩
  | _ => exact throw _

end EvaluationRespects

section Evaluate

variable {apply : Apply} (happly : ∀ f args, V.Respects (apply f args))

include happly

theorem eval_respects (scope : Scope) (code : Code) :
    V.EvaluationRespects (code.eval apply scope) := by
  have congruence : Evaluation.Congruence apply apply fun m _ => V.EvaluationRespects m :=
    ⟨.pure, .throw, .bind, .readAttr, .call happly⟩
  exact Code.eval_congr congruence scope code

theorem evaluate_respects (scope : Scope) (recording : Bool) (code : Code) :
    V.Respects (code.evaluate apply scope recording) :=
  (eval_respects happly scope code _).bind_same fun _ => Agrees.pure rfl

theorem value_respects (scope : Scope) (code : Code) : V.Respects (code.value apply scope) :=
  (evaluate_respects happly scope false code).bind_same fun _ => Agrees.pure rfl

variable {c c' : Code} {f f' : Frame} (hcode : V.code c f = V.code c' f')
  (hframe : V.frame f = V.frame f')

include hcode hframe

/-- Code of which the same is left comes to the same. -/
theorem evaluate_agrees (change : Value) (recording : Bool) :
    V.Agrees Eq (c.evaluate apply ⟨f, change⟩ recording)
      (c'.evaluate apply ⟨f', change⟩ recording) := by
  rw [← V.evaluate_eq apply c f, ← V.evaluate_eq apply c' f', hcode, hframe]
  exact evaluate_respects happly _ _ _

theorem value_agrees (change : Value) :
    V.Agrees Eq (c.value apply ⟨f, change⟩) (c'.value apply ⟨f', change⟩) :=
  (evaluate_agrees happly hcode hframe change false).bind fun _ _ h => Agrees.pure (h ▸ rfl)

end Evaluate

/-! ## Writes, routines and functions -/

/-- A notice tells of the label of a binding no more than the veil leaves of it. -/
theorem notice_agrees (mk : String → Notice) (hmk : ∀ f l, (mk l).relabel f = mk (f l))
    {k k' : BindingKind} {c c' : Code} {l l' : String} (h : V.label k c l = V.label k' c' l') :
    V.Agrees Eq (Step.notice (mk l)) (Step.notice (mk l')) := by
  have hentry : V.entry (.notice (mk l)) = V.entry (.notice (mk l')) := by
    rw [← V.entry_relabel k c, ← V.entry_relabel k' c' (.notice (mk l'))]
    simp only [Entry.relabel, hmk, h]
  intro w w' hw
  refine .some ⟨rfl, ?_⟩
  simp only [World.notice, world_log, hentry, hw]

theorem notice_respects (n : Notice) : V.Respects (Step.notice n) :=
  .log _

section Announce

variable {announce : Announce} (ha : ∀ c, V.Respects (announce c))

include ha

theorem setAttr_respects (o : Handle) (attr : String) (v : Value) :
    V.Respects (setAttr announce o attr v) := by
  have hwrite : V.Respects (modify (·.write o attr v) : Step PUnit) :=
    .of_modify fun _ => V.world_log_plain _ (fun _ => rfl) rfl
  refine Agrees.get_bind fun w w' hw => ?_
  rw [attr?_eq hw]
  cases w'.attr? o attr with
  | none =>
      exact hwrite.bind_same (fun _ => (ha _).bind_same fun _ => .pure rfl) w w' hw
  | some old =>
      dsimp only
      split
      · exact .pure rfl hw
      · exact hwrite.bind_same (fun _ => (ha _).bind_same fun _ => .pure rfl) w w' hw

theorem emitAttr_respects (o : Handle) (attr : String) (v : Value) :
    V.Respects (emitAttr announce o attr v) := by
  have hwrite : V.Respects (modify (·.write o attr v) : Step PUnit) :=
    .of_modify fun _ => V.world_log_plain _ (fun _ => rfl) rfl
  refine Agrees.get_bind fun w w' hw => ?_
  rw [attr?_eq hw]
  exact hwrite.bind_same (fun _ => ha _) w w' hw

theorem run_respects (h : Host) : V.Respects (h.run announce) := by
  induction h with
  | done result => exact .pure rfl
  | read o attr next ih =>
      refine Agrees.get_bind fun w w' hw => ?_
      rw [attr?_eq hw]
      exact ih _ w w' hw
  | write o attr v next ih => exact (setAttr_respects ha o attr v).bind_same fun b => ih b
  | emit o attr v next ih => exact (emitAttr_respects ha o attr v).bind_same fun _ => ih
  | observe o attr callback next _ ih =>
      exact Agrees.bind_same (.of_modifyGet fun _ => rfl) fun s => ih s
  | unobserve s next ih => exact Agrees.bind_same (.of_modify fun _ => rfl) fun _ => ih
  | inFlight o attr next ih =>
      refine Agrees.get_bind fun w w' hw => ?_
      rw [isInFlight_eq hw]
      exact ih _ w w' hw
  | phase o next ih =>
      refine Agrees.get_bind fun w w' hw => ?_
      have heq : w.phase o = w'.phase o := congr (·.phase o) hw
      rw [heq]
      exact ih _ w w' hw
  | create typeName attrs next ih =>
      exact Agrees.bind_same (.of_modifyGet fun _ => rfl) fun o => ih o
  | function name body next _ ih =>
      exact Agrees.bind_same (.of_modifyGet fun _ => rfl) fun f => ih f
  | builtin b next ih => exact Agrees.bind_same (.of_modifyGet fun _ => rfl) fun f => ih f
  | destroy o next ih =>
      exact Agrees.bind_same (.of_modify fun w => V.world_destroy w o) fun _ => ih
  | disconnect b next ih =>
      exact Agrees.bind_same (.of_modify fun w => V.world_disconnect w b) fun _ => ih
  | report r next ih => exact Agrees.bind_same (.log _) fun _ => ih
  | «recall» next ih =>
      refine Agrees.get_bind fun w w' hw => ?_
      have heq : w.memory = w'.memory := congr (·.memory) hw
      rw [heq]
      exact ih _ w w' hw
  | remember m next ih => exact Agrees.bind_same (.of_modify fun _ => rfl) fun _ => ih

theorem applyFunc_respects (f : Func) (args : List Value) :
    V.Respects (applyFunc announce f args) := by
  simp only [applyFunc]
  cases f.kind with
  | builtin b => exact .pure rfl
  | host =>
      dsimp only
      refine Agrees.get_bind fun w w' hw => ?_
      have hcommutes (v : World) : (v.enterFunction? f args).map (Prod.map id V.world) =
          (V.world v).enterFunction? f args := by
        simp only [World.enterFunction?, Option.map_map]
        rfl
      have henter : (w.enterFunction? f args).map (Prod.map id V.world) =
          (w'.enterFunction? f args).map (Prod.map id V.world) := by
        rw [hcommutes, hcommutes, hw]
      generalize w.enterFunction? f args = r, w'.enterFunction? f args = r' at henter
      cases r with
      | none =>
          cases r' with
          | none => exact .pure rfl hw
          | some p' => simp at henter
      | some p =>
          cases r' with
          | none => simp at henter
          | some p' =>
              obtain ⟨routine, v⟩ := p
              obtain ⟨routine', v'⟩ := p'
              obtain ⟨rfl, hv⟩ := by simpa using henter
              exact run_respects ha routine v v' hv

/-! ## Bindings at work -/

omit ha in
/-- Under its busy mark a binding does its work in both worlds. -/
theorem guarded_agrees {b : Nat} {work : Binding → Step (Except EvalError Unit)} {w w' : World}
    (hw : V.world w = V.world w')
    (hwork : ∀ x x', w.binding? b = some x → V.binding x = V.binding x' →
      V.Agrees Eq (work x) (work x')) :
    V.AgreesFrom Eq (guarded b work) (guarded b work) w w' := by
  refine AgreesFrom.get_bind ?_
  have hrel := binding?_rel hw b
  generalize hfind : w.binding? b = r, w'.binding? b = r' at hrel ⊢
  cases hrel with
  | none => exact .pure rfl hw
  | @some x x' hx =>
      have hbusy : x.busy = x'.busy := binding_congr (·.busy) hx
      dsimp only
      rw [hbusy]
      split
      · exact .pure rfl hw
      · have hset (busy : Bool) : V.Respects (modify (·.setBusy b busy) : Step PUnit) :=
          .of_modify fun v => V.world_modifyBinding v b (f := fun y => { y with busy }) fun _ => rfl
        refine (hset true w w' hw).bind_same fun _ => ?_
        refine (hwork x x' hfind hx).bind fun result _ heq => ?_
        subst heq
        exact (hset false).bind_same fun _ => .pure rfl

/-- Only a delegate can fail with its label here. -/
theorem sourceOf_agrees {x x' : Binding} (hx : V.binding x = V.binding x')
    (hkind : x.kind = .delegate) :
    V.Agrees Eq (sourceOf announce x) (sourceOf announce x') := by
  have hkind' : x'.kind = .delegate := (binding_congr (·.kind) hx).symm.trans hkind
  have hlabel : V.label .delegate x.code x.label = V.label .delegate x'.code x'.label := by
    simpa only [binding, hkind, hkind'] using binding_congr (·.label) hx
  have hcode : V.code x.code x.frame = V.code x'.code x'.frame := binding_congr (·.code) hx
  have hframe : V.frame x.frame = V.frame x'.frame := binding_congr (·.frame) hx
  have hpath := congrArg Code.attrPath? hcode
  rw [V.attrPath?_eq, V.attrPath?_eq] at hpath
  simp only [sourceOf]
  generalize hr : x.code.attrPath? = r, hr' : x'.code.attrPath? = r' at hpath ⊢
  cases r with
  | none =>
      cases r' with
      | none =>
          rw [V.label_of_pathless hr, V.label_of_pathless hr'] at hlabel
          dsimp only
          rw [hlabel]
          exact .pure rfl
      | some p' => simp at hpath
  | some p =>
      cases r' with
      | none => simp at hpath
      | some p' =>
          obtain ⟨base, attr⟩ := p
          obtain ⟨base', attr'⟩ := p'
          obtain ⟨hbase, rfl⟩ := by simpa using hpath
          dsimp only
          refine (value_agrees (applyFunc_respects ha) hbase hframe .nil).bind fun r _ heq => ?_
          subst heq
          split <;> exact .pure rfl

omit ha in
theorem resubscribe_respects (b : Nat) (reads : List (Handle × String)) :
    V.Respects (resubscribe b reads) := by
  have hobserve : V.Respects (reads.mapM fun p =>
      (modifyGet (·.observe p.1 p.2 (.source b)) : Step Subscription)) := by
    induction reads with
    | nil => exact .pure rfl
    | cons p reads ih =>
        rw [List.mapM_cons]
        refine Agrees.bind_same (.of_modifyGet fun _ => rfl) fun s => ?_
        exact ih.bind_same fun _ => .pure rfl
  refine hobserve.bind_same fun fresh => Agrees.get_bind fun w w' hw => ?_
  have hstale : (w.binding? b).elim [] (·.sources) = (w'.binding? b).elim [] (·.sources) := by
    have hrel := binding?_rel hw b
    generalize w.binding? b = r, w'.binding? b = r' at hrel ⊢
    cases hrel with
    | none => rfl
    | some hx => exact binding_congr (·.sources) hx
  rw [hstale]
  refine Agrees.bind_same (.of_modify fun v => ?_) (fun _ => .of_modify fun v => ?_) w w' hw
  · exact V.world_modifyBinding v b (f := fun x => { x with sources := fresh }) fun _ => rfl
  · exact V.world_foldl (fun _ _ => rfl) _ v

theorem storeValue_agrees {x x' : Binding} (hx : V.binding x = V.binding x') (v : Value) :
    V.Agrees Eq (storeValue announce x v) (storeValue announce x' v) := by
  have htarget : x.target = x'.target := binding_congr (·.target) hx
  have hattr : x.attr = x'.attr := binding_congr (·.attr) hx
  have hkind : x.kind = x'.kind := binding_congr (·.kind) hx
  simp only [storeValue]
  rw [← htarget, ← hattr, ← hkind]
  refine (setAttr_respects ha _ _ v).bind_same fun _ => ?_
  split
  · exact .pure rfl
  next hdelegate =>
    refine Agrees.get_bind fun w w' hw => ?_
    rw [attr?_eq hw]
    split
    · exact .pure rfl hw
    · refine (sourceOf_agrees ha hx (Decidable.not_not.mp hdelegate) w w' hw).bind
        fun result _ heq => ?_
      subst heq
      split
      · exact .pure rfl
      · exact (setAttr_respects ha _ _ _).bind_same fun _ => .pure rfl

theorem refresh_respects (b : Nat) : V.Respects (refresh announce b) := by
  refine fun w w' hw => guarded_agrees hw fun x x' _ hx => Agrees.get_bind fun v v' hv => ?_
  have htarget : x.target = x'.target := binding_congr (·.target) hx
  have hlabel : V.label x.kind x.code x.label = V.label x'.kind x'.code x'.label :=
    binding_congr (·.label) hx
  rw [htarget, isAlive_eq hv]
  split
  · exact .pure rfl hv
  · refine (evaluate_agrees (applyFunc_respects ha) (binding_congr (·.code) hx)
      (binding_congr (·.frame) hx) .nil true v v' hv).bind fun r _ heq => ?_
    subst heq
    obtain ⟨result, reads⟩ := r
    refine Agrees.bind_same (.log _) fun _ => ?_
    refine (resubscribe_respects b reads).bind_same fun _ => ?_
    refine (notice_agrees (.dependsOn · reads.length) (fun _ _ => rfl) hlabel).bind fun _ _ _ => ?_
    cases result with
    | error e => exact .pure rfl
    | ok value => exact storeValue_agrees ha hx value

omit ha in
theorem noteFailure_agrees {x x' : Binding} (hx : V.binding x = V.binding x')
    (result : Except EvalError Unit) :
    V.Agrees Eq (noteFailure x.label result) (noteFailure x'.label result) := by
  cases result with
  | ok _ => exact .pure rfl
  | error e =>
      exact notice_agrees (.bindingFailed · e) (fun _ _ => rfl) (binding_congr (·.label) hx)

theorem onSource_agrees {x x' : Binding} (hx : V.binding x = V.binding x') :
    V.Agrees Eq (onSource announce x) (onSource announce x') := by
  have hid : x.id = x'.id := binding_congr (·.id) hx
  have hbusy : x.busy = x'.busy := binding_congr (·.busy) hx
  have htarget : x.target = x'.target := binding_congr (·.target) hx
  have hattr : x.attr = x'.attr := binding_congr (·.attr) hx
  have hlabel : V.label x.kind x.code x.label = V.label x'.kind x'.code x'.label :=
    binding_congr (·.label) hx
  refine Agrees.get_bind fun w w' hw => ?_
  rw [hid, hbusy, htarget, hattr, isAlive_eq hw, isInFlight_eq hw]
  split
  · exact .pure rfl hw
  · split
    · exact notice_agrees .alreadyUpdating (fun _ _ => rfl) hlabel w w' hw
    · split
      · exact notice_agrees .targetNotifying (fun _ _ => rfl) hlabel w w' hw
      · refine (notice_agrees .reevaluating (fun _ _ => rfl) hlabel w w' hw).bind fun _ _ _ => ?_
        exact (refresh_respects ha _).bind_same (noteFailure_agrees hx)

theorem writeBack_agrees {b : Nat} (c : Change) {w w' : World} (hw : V.world w = V.world w')
    (hdelegate : ∀ x, w.binding? b = some x → x.kind = .delegate) :
    V.AgreesFrom Eq (writeBack announce b c) (writeBack announce b c) w w' := by
  refine guarded_agrees hw fun x x' hfind hx => ?_
  have hattr : x.attr = x'.attr := binding_congr (·.attr) hx
  have hlabel : V.label x.kind x.code x.label = V.label x'.kind x'.code x'.label :=
    binding_congr (·.label) hx
  rw [hattr]
  refine (sourceOf_agrees ha hx (hdelegate x hfind)).bind fun result _ heq => ?_
  subst heq
  cases result with
  | error e => exact .pure rfl
  | ok p =>
      obtain ⟨source, attr⟩ := p
      refine Agrees.get_bind fun w w' hw => ?_
      rw [isInFlight_eq hw]
      split
      · refine (notice_agrees .sourceNotifying (fun _ _ => rfl) hlabel w w' hw).bind fun _ _ _ => ?_
        exact .pure rfl
      · refine (notice_agrees .writingBack (fun _ _ => rfl) hlabel w w' hw).bind fun _ _ _ => ?_
        refine (setAttr_respects ha _ _ _).bind_same fun _ => ?_
        refine Agrees.get_bind fun v v' hv => ?_
        rw [attr?_eq hv]
        dsimp only
        split
        · exact .pure rfl hv
        · exact (setAttr_respects ha _ _ _).bind_same (fun _ => .pure rfl) v v' hv

theorem fire_respects (b : Nat) (c : Change) : V.Respects (fire announce b c) := by
  refine fun w w' hw => guarded_agrees hw fun x x' _ hx => ?_
  refine Agrees.bind_same (.of_modifyGet fun _ => rfl) fun record => ?_
  refine (notice_agrees .notifying (fun _ _ => rfl) (binding_congr (·.label) hx)).bind
    fun _ _ _ => ?_
  refine (value_agrees (applyFunc_respects ha) (binding_congr (·.code) hx)
    (binding_congr (·.frame) hx) (.object record)).bind fun result _ heq => ?_
  subst heq
  refine Agrees.bind_same (.log _) fun _ => ?_
  split <;> exact .pure rfl

theorem onTarget_agrees {x x' : Binding} (hx : V.binding x = V.binding x') (c : Change)
    {w w' : World} (hw : V.world w = V.world w') (hfind : w.binding? x.id = some x) :
    V.AgreesFrom Eq (onTarget announce x c) (onTarget announce x' c) w w' := by
  have hid : x.id = x'.id := binding_congr (·.id) hx
  have hkind : x.kind = x'.kind := binding_congr (·.kind) hx
  simp only [onTarget]
  rw [← hid, ← hkind]
  cases hk : x.kind with
  | delegate =>
      have hdelegate : ∀ y, w.binding? x.id = some y → y.kind = .delegate := by
        intro y hy
        obtain rfl := Option.some.inj (hfind.symm.trans hy)
        exact hk
      exact (writeBack_agrees ha c hw hdelegate).bind_same (noteFailure_agrees hx)
  | notify => exact (fire_respects ha _ c).bind_same (noteFailure_agrees hx) w w' hw
  | bind => exact (Agrees.pure rfl).bind_same (noteFailure_agrees hx) w w' hw

/-! ## Announcements -/

theorem react_respects (callback : Callback) (c : Change) :
    V.Respects (react announce callback c) := by
  cases callback with
  | source b =>
      refine Agrees.get_bind fun w w' hw => ?_
      have hrel := binding?_rel hw b
      generalize w.binding? b = r, w'.binding? b = r' at hrel ⊢
      cases hrel with
      | none => exact .pure rfl hw
      | some hx =>
          refine (onSource_agrees ha hx).bind (fun _ _ _ => ?_) w w' hw
          exact .of_modify fun v => V.world_release v b
  | target b =>
      refine Agrees.get_bind fun w w' hw => ?_
      have hrel := binding?_rel hw b
      generalize hfind : w.binding? b = r, w'.binding? b = r' at hrel ⊢
      cases hrel with
      | none => exact .pure rfl hw
      | @some x x' hx =>
          have hid : x.id = b := by simpa using List.find?_some hfind
          refine (onTarget_agrees ha hx c hw (hid ▸ hfind)).bind fun _ _ _ => ?_
          exact .of_modify fun v => V.world_release v b
  | host routine => exact (run_respects ha (routine c)).bind_same fun _ => .pure rfl

theorem deliver_respects (c : Change) (observers : List Observer) :
    V.Respects (deliver announce c observers) := by
  induction observers with
  | nil => exact .pure rfl
  | cons x xs ih =>
      refine Agrees.get_bind fun w w' hw => ?_
      have heq : w.isRegistered ⟨c.object, x.id⟩ = w'.isRegistered ⟨c.object, x.id⟩ :=
        congr (·.isRegistered ⟨c.object, x.id⟩) hw
      rw [heq]
      split
      · refine Agrees.bind_same (.log _) (fun _ => ?_) w w' hw
        exact (react_respects ha x.callback c).bind_same fun _ => ih
      · exact ih w w' hw

end Announce

theorem announce_respects (n : Nat) (c : Change) : V.Respects (announce n c) := by
  induction n generalizing c with
  | zero => exact .failure
  | succ n ih =>
      refine Agrees.get_bind fun w w' hw => ?_
      have heq : w.observersOf c.object c.attr = w'.observersOf c.object c.attr :=
        congr (·.observersOf c.object c.attr) hw
      rw [heq]
      dsimp only
      split
      · exact .pure rfl hw
      · have hbegin : V.Respects (modify (·.beginFlight c) : Step PUnit) :=
          .of_modify fun _ => V.world_log_plain _ (fun _ => rfl) rfl
        refine hbegin.bind_same (fun _ => ?_) w w' hw
        refine (deliver_respects ih c _).bind_same fun _ => ?_
        exact .of_modify fun _ => V.world_log_plain _ (fun _ => rfl) rfl

/-! ## Making bindings -/

variable (V) in
/-- Sites at which the bindings of a kind look the same. -/
structure SitesAlike (kind : BindingKind) (site site' : Site) (c c' : Code) : Prop where
  target : site.target = site'.target
  attr : site.attr = site'.attr
  code : V.code c site.frame = V.code c' site'.frame
  frame : V.frame site.frame = V.frame site'.frame
  run : V.keepsRuns → site.run = site'.run
  label : V.label kind c site.label = V.label kind c' site'.label

section Sites

variable {announce : Announce} {kind : BindingKind} {site site' : Site} {c c' : Code}

theorem newBinding_agrees (h : V.SitesAlike kind site site' c c') :
    V.Agrees Eq (site.newBinding kind c) (site'.newBinding kind c') := by
  have happend (w : World) (x : Binding) :
      V.world { w with bindings := w.bindings ++ [x], nextBinding := w.nextBinding + 1 } =
        { V.world w with
          bindings := (V.world w).bindings ++ [V.binding x]
          nextBinding := (V.world w).nextBinding + 1 } := by
    simp [world]
  refine Agrees.get_bind fun w w' hw => ?_
  have hnext : w.nextBinding = w'.nextBinding := congr (·.nextBinding) hw
  refine .some ⟨hnext, ?_⟩
  rw [happend, happend, hw, hnext]
  have hrun : (bif V.keepsRuns then site.run else none) =
      bif V.keepsRuns then site'.run else none := by
    cases hkeeps : V.keepsRuns with
    | true => exact h.run hkeeps
    | false => rfl
  simp only [binding, h.target, h.attr, h.code, h.frame, hrun, h.label]

theorem listenToTarget_agrees (h : V.SitesAlike kind site site' c c') (b : Nat) :
    V.Agrees Eq (site.listenToTarget b) (site'.listenToTarget b) := by
  simp only [Site.listenToTarget, h.target, h.attr]
  refine Agrees.bind_same (.of_modifyGet fun _ => rfl) fun s => .of_modify fun v => ?_
  exact V.world_modifyBinding v b (f := fun x => { x with targetListener := some s }) fun _ => rfl

theorem own_agrees (h : V.SitesAlike kind site site' c c') (b : Nat) :
    V.Agrees Eq (site.own b) (site'.own b) := by
  simp only [Site.own, h.target]
  refine Agrees.bind_same (.of_modify fun v => ?_) fun _ => .of_modify fun _ => rfl
  exact V.world_modifyBinding v b (f := fun x => { x with owned := true }) fun _ => rfl

variable (ha : ∀ c, V.Respects (announce c))

include ha

theorem assign_agrees (h : V.SitesAlike kind site site' c c') :
    V.Agrees Eq (site.assign announce c) (site'.assign announce c') := by
  simp only [Site.assign, h.target, h.attr]
  refine (value_agrees (applyFunc_respects ha) h.code h.frame .nil).bind fun result _ heq => ?_
  subst heq
  cases result with
  | error e => exact .pure rfl
  | ok v => exact (setAttr_respects ha _ _ v).bind_same fun _ => .pure rfl

theorem bind_agrees (h : V.SitesAlike .bind site site' c c') :
    V.Agrees Eq (site.bind announce c) (site'.bind announce c') := by
  refine (newBinding_agrees h).bind fun b _ heq => ?_
  subst heq
  refine (refresh_respects ha b).bind_same fun result => ?_
  cases result with
  | error e => exact Agrees.bind_same (.of_modify fun v => V.world_disconnect v b) fun _ => .pure rfl
  | ok _ => exact (own_agrees h b).bind fun _ _ _ => .pure rfl

theorem delegate_agrees (h : V.SitesAlike .delegate site site' c c') :
    V.Agrees Eq (site.delegate announce c) (site'.delegate announce c') := by
  have hpath : c.attrPath?.isNone = c'.attrPath?.isNone := by
    have hpath := congrArg (Option.isNone ∘ Code.attrPath?) h.code
    simpa only [Function.comp, V.attrPath?_eq, Option.isNone_map] using hpath
  simp only [Site.delegate, ← hpath]
  split
  next hnone =>
    have hlabel := h.label
    rw [V.label_of_pathless (Option.isNone_iff_eq_none.mp hnone),
      V.label_of_pathless (Option.isNone_iff_eq_none.mp (hpath ▸ hnone))] at hlabel
    exact .pure (by rw [hlabel])
  next =>
    refine (newBinding_agrees h).bind fun b _ heq => ?_
    subst heq
    refine (refresh_respects ha b).bind_same fun result => ?_
    cases result with
    | error e =>
        exact Agrees.bind_same (.of_modify fun v => V.world_disconnect v b) fun _ => .pure rfl
    | ok _ =>
        refine (listenToTarget_agrees h b).bind fun _ _ _ => ?_
        exact (own_agrees h b).bind fun _ _ _ => .pure rfl

omit ha in
theorem notify_agrees (h : V.SitesAlike .notify site site' c c') :
    V.Agrees Eq (site.notify c) (site'.notify c') := by
  refine (newBinding_agrees h).bind fun b _ heq => ?_
  subst heq
  refine (listenToTarget_agrees h b).bind fun _ _ _ => ?_
  exact (own_agrees h b).bind fun _ _ _ => .pure rfl

end Sites

end Veil

end LiveUI
