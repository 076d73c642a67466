import LiveUI.Proofs.World.Scripted
import LiveUI.Proofs.World.Reading
import LiveUI.Proofs.World.Step

/-! # Steps that follow a script

Each step of propagation does what its script says. So what is true of the scripts is true of the
steps. -/

namespace LiveUI

namespace Script

variable {α β γ : Type}

/-- From the world, the step does what the script says. -/
def Plays (w : World) (p : Script α) (m : Step α) : Prop :=
  p.run w = m w

/-- From any world. -/
abbrev PlaysAll (p : Script α) (m : Step α) : Prop :=
  ∀ w, Plays w p m

namespace Plays

variable {w : World} {p : Script α} {m : Step α}

theorem pure (a : α) : Plays w (Pure.pure a) (Pure.pure a) := rfl

theorem bind {k : α → Script β} {f : α → Step β} (hp : Plays w p m)
    (hk : ∀ a w', p.run w = some (a, w') → Plays w' (k a) (f a)) :
    Plays w (p >>= k) (m >>= f) := by
  change (p >>= k).run w = (m w).bind _
  rw [run_bind, hp]
  cases hm : m w with
  | none => rfl
  | some q => exact hk q.1 q.2 (hp.trans hm)

theorem look {k : World → Script β} {f : World → Step β} (h : Plays w (k w) (f w)) :
    Plays w (world >>= k) (get >>= f) := h

theorem perform {d : Deed} {f : World → World} (hready : d.ready w = true)
    (hf : d.apply w = f w) : Plays w (perform d) (modify f : Step PUnit) := by
  change (if d.ready w = true then some ((), d.apply w) else none) = some (⟨⟩, f w)
  rw [if_pos hready, hf]

theorem perform_bind {d : Deed} {f : World → World} {k : Unit → Script β} {g : PUnit → Step β}
    (hready : d.ready w = true) (hf : d.apply w = f w) (h : Plays (f w) (k ()) (g ⟨⟩)) :
    Plays w (Script.perform d >>= k) (modify f >>= g) := by
  refine (perform hready hf).bind fun a w' hrun => ?_
  obtain rfl : w' = f w := by
    rw [perform hready hf] at hrun
    exact (Prod.mk.inj (Option.some.inj hrun)).2.symm
  exact h

theorem bring {f : World → α × World} {d : Deed} (hready : d.ready w = true)
    (hf : d.apply w = (f w).2) : Plays w (bring (fun v => (f v).1) d) (modifyGet f) := by
  change (if d.ready w = true then some ((f w).1, d.apply w) else none) = some (f w)
  rw [if_pos hready, hf]

theorem notice (n : Notice) : Plays w (notice n) (Step.notice n) :=
  perform rfl rfl

theorem inside {t : Stretch} (hbegin : t.canBegin w = true) (h : Plays (t.begin w) p m) :
    Plays w (inside t p) (do
      modify t.begin
      let r ← m
      modify t.finish
      return r) := by
  change (if t.canBegin w = true then (p.run (t.begin w)).bind fun q => some (q.1, t.finish q.2)
    else none) = (m (t.begin w)).bind fun q => some (q.1, t.finish q.2)
  rw [if_pos hbegin, h]

/-- Nothing else is done at the beginning and at the end of an evaluation. -/
theorem evaluation {b : Nat} {q : α → Script β} {k : β → Script γ} {f : Step γ}
    (h : Plays w (p >>= fun a => q a >>= k) f) :
    Plays w (Script.inside (.evaluation b) (p >>= q) >>= k) f := by
  have hinside (r : Script β) : (Script.inside (.evaluation b) r).run w = r.run w := by
    change (r.run w).bind _ = _
    cases r.run w <;> rfl
  rw [Plays, ← h, run_bind, hinside, run_bind, run_bind, Option.bind_assoc]
  exact congrArg _ (funext fun a => (run_bind (q a.1) k a.2).symm)

end Plays

/-! ## Evaluations -/

theorem run_evaluating_bind (p : Evaluating α) (k : α → Evaluating β) (s : Reads) :
    (p >>= k).run.run s = p.run.run s >>= fun q =>
      match q.1 with
      | .ok a => (k a).run.run q.2
      | .error e => Pure.pure (.error e, q.2) := by
  change Script.bind _ _ = Script.bind _ _
  congr 1
  funext q
  obtain ⟨r, s'⟩ := q
  cases r <;> rfl

/-- A relation between the two ways to evaluate that is kept by all that code is evaluated with. -/
structure Pairing (apply : Func → List Value → Script (Except EvalError Value)) (apply' : Apply)
    (R : ∀ {α : Type}, Evaluating α → Evaluation α → Prop) : Prop where
  pure {α : Type} (a : α) : R (Pure.pure a) (Pure.pure a)
  throw {α : Type} (e : EvalError) : R (MonadExcept.throw e : Evaluating α) (MonadExcept.throw e)
  bind {α β : Type} {p : Evaluating α} {m : Evaluation α} {k : α → Evaluating β}
    {f : α → Evaluation β} (hp : R p m) (hk : ∀ a, R (k a) (f a)) : R (p >>= k) (m >>= f)
  readAttr (base : Value) (attr : String) : R (readAttr base attr) (Evaluation.readAttr base attr)
  call (callee : Value) (args : List Value) :
    R (call apply callee args) (Evaluation.call apply' callee args)

namespace Pairing

variable {apply : Func → List Value → Script (Except EvalError Value)} {apply' : Apply}
  {R : ∀ {α : Type}, Evaluating α → Evaluation α → Prop} (h : Pairing apply apply' R) (scope : Scope)

include h

theorem ofExcept (r : Except EvalError α) :
    R (MonadExcept.ofExcept r : Evaluating α) (MonadExcept.ofExcept r) := by
  cases r with
  | ok a => exact h.pure a
  | error e => exact h.throw e

mutual

/-- Code is evaluated in pairs. -/
theorem eval : ∀ c : Code, R (Script.eval apply scope c) (c.eval apply' scope)
  | .const v => by simpa only [Script.eval, Code.eval] using h.pure v
  | .slot n => by simpa only [Script.eval, Code.eval] using h.pure (scope.frame.get n)
  | .change => by simpa only [Script.eval, Code.eval] using h.pure scope.change
  | .list items => by
      simp only [Script.eval, Code.eval]
      exact h.bind (evalAll items) fun vs => h.pure (Value.list vs)
  | .attr value a => by
      simp only [Script.eval, Code.eval]
      exact h.bind (eval value) fun base => h.readAttr base a
  | .index value i => by
      simp only [Script.eval, Code.eval]
      exact h.bind (eval value) fun base => h.bind (eval i) fun i =>
        h.ofExcept (Value.subscript base i)
  | .call func args => by
      simp only [Script.eval, Code.eval]
      exact h.bind (eval func) fun callee => h.bind (evalAll args) fun args => h.call callee args
  | .unary op operand => by
      simp only [Script.eval, Code.eval]
      exact h.bind (eval operand) fun v => h.ofExcept (Value.unary op v)
  | .binary op left right => by
      simp only [Script.eval, Code.eval]
      exact h.bind (eval left) fun l => h.bind (eval right) fun r => h.ofExcept (Value.binary op l r)
  | .boolOp .and left right => by
      simp only [Script.eval, Code.eval]
      refine h.bind (eval left) fun l => ?_
      split
      · exact eval right
      · exact h.pure l
  | .boolOp .or left right => by
      simp only [Script.eval, Code.eval]
      refine h.bind (eval left) fun l => ?_
      split
      · exact h.pure l
      · exact eval right
  | .ifElse body condition otherwise => by
      simp only [Script.eval, Code.eval]
      refine h.bind (eval condition) fun t => ?_
      split
      · exact eval body
      · exact eval otherwise

theorem evalAll : ∀ cs : List Code,
    R (Script.evalAll apply scope cs) (Code.evalAll apply' scope cs)
  | [] => by simpa only [Script.evalAll, Code.evalAll] using h.pure []
  | c :: cs => by
      simp only [Script.evalAll, Code.evalAll]
      exact h.bind (eval c) fun v => h.bind (evalAll cs) fun vs => h.pure (v :: vs)

end

end Pairing

/-- From any world, and whatever has been read before. -/
def Follows (p : Evaluating α) (m : Evaluation α) : Prop :=
  ∀ s, PlaysAll (p.run.run s) (m.run.run s)

namespace Follows

theorem pure (a : α) : Follows (Pure.pure a) (Pure.pure a) :=
  fun _ _ => rfl

theorem throw (e : EvalError) :
    Follows (MonadExcept.throw e : Evaluating α) (MonadExcept.throw e : Evaluation α) :=
  fun _ _ => rfl

theorem bind {p : Evaluating α} {m : Evaluation α} {k : α → Evaluating β} {f : α → Evaluation β}
    (hp : Follows p m) (hk : ∀ a, Follows (k a) (f a)) : Follows (p >>= k) (m >>= f) := by
  intro s w
  rw [run_evaluating_bind, Evaluation.run_bind]
  refine Plays.bind (hp s w) fun q w' _ => ?_
  obtain ⟨r, s'⟩ := q
  cases r with
  | ok a => exact hk a s' w'
  | error e => rfl

theorem readAttr (base : Value) (attr : String) :
    Follows (readAttr base attr) (Evaluation.readAttr base attr) := by
  cases base with
  | object o =>
      refine bind (fun _ _ => rfl) fun _ => bind (fun _ _ => rfl) fun w => ?_
      cases w.attr? o attr with
      | none => exact throw _
      | some v => exact pure v
  | _ => exact throw _

theorem call {apply : Func → List Value → Script (Except EvalError Value)} {apply' : Apply}
    (happly : ∀ f args, PlaysAll (apply f args) (apply' f args)) (callee : Value)
    (args : List Value) : Follows (call apply callee args) (Evaluation.call apply' callee args) := by
  cases callee with
  | func f => exact fun s w => Plays.bind (happly f args w) fun _ _ _ => rfl
  | _ => exact throw _

end Follows

section Evaluate

variable {apply : Func → List Value → Script (Except EvalError Value)} {apply' : Apply}
  (happly : ∀ f args, PlaysAll (apply f args) (apply' f args)) (scope : Scope)

include happly

theorem evaluate_plays (recording : Bool) (code : Code) :
    PlaysAll (evaluate apply scope recording code) (code.evaluate apply' scope recording) := by
  have hpairing : Pairing apply apply' Follows :=
    ⟨.pure, .throw, .bind, .readAttr, .call happly⟩
  exact fun w => Plays.bind (hpairing.eval scope code _ w) fun _ _ _ => rfl

theorem value_plays (code : Code) : PlaysAll (value apply scope code) (code.value apply' scope) :=
  fun w => Plays.bind (evaluate_plays happly scope false code w) fun _ _ _ => rfl

end Evaluate

/-! ## Propagation -/

section Announcing

variable {announce : Change → Script Unit} {announce' : Announce}
  (ha : ∀ c, PlaysAll (announce c) (announce' c))

include ha

theorem setAttr_plays (o : Handle) (attr : String) (v : Value) :
    PlaysAll (setAttr announce o attr v) (LiveUI.setAttr announce' o attr v) := by
  intro w
  have announced (old : Value) : Plays w (do
      perform (.write o attr v)
      announce ⟨o, attr, old, v⟩
      return true) (do
      modify (·.write o attr v)
      announce' ⟨o, attr, old, v⟩
      return true) :=
    .perform_bind rfl rfl ((ha _ _).bind fun _ _ _ => .pure true)
  refine .look ?_
  cases w.attr? o attr with
  | none => exact announced .nil
  | some old =>
      dsimp only
      split
      · exact .pure false
      · exact announced old

theorem emitAttr_plays (o : Handle) (attr : String) (v : Value) :
    PlaysAll (emitAttr announce o attr v) (LiveUI.emitAttr announce' o attr v) :=
  fun _ => .look (.perform_bind rfl rfl (ha _ _))

theorem routine_plays (h : Host) : PlaysAll (routine announce h) (h.run announce') := by
  intro w
  induction h generalizing w with
  | done result => rfl
  | read o attr next ih => exact .look (ih _ w)
  | write o attr v next ih => exact (setAttr_plays ha o attr v w).bind fun changed w' _ => ih changed w'
  | emit o attr v next ih => exact (emitAttr_plays ha o attr v w).bind fun _ w' _ => ih w'
  | observe o attr callback next _ ih =>
      exact Plays.bind (.bring rfl rfl) fun s w' _ => ih s w'
  | unobserve s next ih => exact .perform_bind rfl rfl (ih _)
  | inFlight o attr next ih => exact .look (ih _ w)
  | phase o next ih => exact .look (ih _ w)
  | create typeName attrs next ih => exact Plays.bind (.bring rfl rfl) fun o w' _ => ih o w'
  | function name body next _ ih => exact Plays.bind (.bring rfl rfl) fun f w' _ => ih f w'
  | builtin b next ih => exact Plays.bind (.bring rfl rfl) fun f w' _ => ih f w'
  | destroy o next ih => exact .perform_bind rfl rfl (ih _)
  | disconnect b next ih => exact .perform_bind rfl rfl (ih _)
  | report r next ih => exact .perform_bind rfl rfl (ih _)
  | «recall» next ih => exact .look (ih _ w)
  | remember m next ih => exact .perform_bind rfl rfl (ih _)

theorem applyFunc_plays (f : Func) (args : List Value) :
    PlaysAll (applyFunc announce f args) (LiveUI.applyFunc announce' f args) := by
  intro w
  simp only [applyFunc, LiveUI.applyFunc]
  cases f.kind with
  | builtin b => exact .pure _
  | host =>
      refine .look ?_
      cases hfound : w.enterFunction? f args with
      | none => exact .pure _
      | some p =>
          refine .perform_bind (f := fun _ => p.2) rfl ?_ (routine_plays ha p.1 p.2)
          change ((w.enterFunction? f args).map (·.2)).getD w = p.2
          rw [hfound]
          rfl

/-! ## Bindings at work -/

omit ha in
theorem guarded_plays {b : Nat} {work : Binding → Script (Except EvalError Unit)}
    {work' : Binding → Step (Except EvalError Unit)}
    (hwork : ∀ x w, (w.binding? b).isSome = true → Plays w (work x) (work' x)) :
    PlaysAll (guarded b work) (LiveUI.guarded b work') := by
  refine fun w => .look ?_
  cases hx : w.binding? b with
  | none => exact .pure _
  | some x =>
      dsimp only
      split
      · exact .pure _
      next hidle =>
        have hbegin : (Stretch.work b).canBegin w = true := by simpa [Stretch.canBegin, hx] using hidle
        refine Plays.inside hbegin (hwork x _ ?_)
        change ((w.setBusy b true).binding? b).isSome = true
        rw [World.setBusy, w.binding?_modifyBinding b b (f := fun y => { y with busy := true })
          fun _ => rfl, if_pos rfl, hx]
        rfl

theorem sourceOf_plays (x : Binding) :
    PlaysAll (sourceOf announce x) (LiveUI.sourceOf announce' x) := by
  intro w
  simp only [sourceOf, LiveUI.sourceOf]
  cases x.code.attrPath? with
  | none => exact .pure _
  | some p =>
      refine Plays.bind (value_plays (applyFunc_plays ha) _ p.1 w) fun r w' _ => ?_
      cases r with
      | error e => exact .pure _
      | ok v => cases v <;> exact .pure _

theorem storeValue_plays (x : Binding) (v : Value) :
    PlaysAll (storeValue announce x v) (LiveUI.storeValue announce' x v) := by
  refine fun w => (setAttr_plays ha x.target x.attr v w).bind fun _ w₁ _ => ?_
  split
  · exact .pure _
  · refine .look ?_
    dsimp only
    split
    · exact .pure _
    · refine (sourceOf_plays ha x w₁).bind fun r w₂ _ => ?_
      cases r with
      | error e => exact .pure _
      | ok p => exact (setAttr_plays ha p.1 p.2 _ w₂).bind fun _ _ _ => .pure _

omit ha in
theorem resubscribe_run (b : Nat) (reads : List (Handle × String)) (w : World) :
    resubscribe b reads w = some ((), w.follow b reads) := by
  have hobserved (w : World) : (reads.mapM fun p =>
      (modifyGet (·.observe p.1 p.2 (.source b)) : Step Subscription)) w =
      some (w.observeAll b reads) := by
    induction reads generalizing w with
    | nil => rfl
    | cons p reads ih =>
        rw [List.mapM_cons]
        change ((reads.mapM fun p =>
          (modifyGet (·.observe p.1 p.2 (.source b)) : Step Subscription))
          (w.observe p.1 p.2 (.source b)).2).bind _ = _
        rw [ih]
        rfl
  change ((reads.mapM fun p =>
    (modifyGet (·.observe p.1 p.2 (.source b)) : Step Subscription)) w).bind _ = _
  rw [hobserved]
  rfl

theorem refresh_plays (b : Nat) : PlaysAll (refresh announce b) (LiveUI.refresh announce' b) := by
  refine guarded_plays fun x w hfound => .look ?_
  split
  · exact .pure _
  · have heval := evaluate_plays (applyFunc_plays ha) { frame := x.frame } true x.code w
    refine .evaluation (heval.bind fun p w₁ hrun => ?_)
    obtain ⟨result, reads⟩ := p
    change Plays w₁ (perform (.log (.evaluated b result reads)) >>= fun _ =>
      perform (.resubscribe b reads) >>= fun _ => _) _
    refine .perform_bind rfl rfl ?_
    obtain ⟨y, hy⟩ := Option.isSome_iff_exists.mp hfound
    obtain ⟨z, hz, -⟩ := World.KeepsBindings.enduring.run hrun b y hy
    have hready : (Deed.resubscribe b reads).ready (w₁.log (.evaluated b result reads)) = true :=
      Option.isSome_iff_exists.mpr ⟨z, hz⟩
    have hfollows : Plays (w₁.log (.evaluated b result reads)) (perform (.resubscribe b reads))
        (resubscribe b reads) := by
      rw [Plays, resubscribe_run]
      exact if_pos hready
    refine hfollows.bind fun _ w₂ _ => .perform_bind rfl rfl ?_
    cases result with
    | error e => exact .pure _
    | ok v => exact storeValue_plays ha x v _

omit ha in
theorem noteFailure_plays (label : String) (r : Except EvalError Unit) :
    PlaysAll (noteFailure label r) (LiveUI.noteFailure label r) := by
  cases r with
  | ok _ => exact fun _ => .pure _
  | error e => exact fun _ => .notice _

theorem onSource_plays (x : Binding) :
    PlaysAll (onSource announce x) (LiveUI.onSource announce' x) := by
  refine fun w => .look ?_
  split
  · exact .pure _
  · split
    · exact .notice _
    · split
      · exact .notice _
      · exact .perform_bind rfl rfl ((refresh_plays ha x.id _).bind fun r w' _ =>
          noteFailure_plays x.label r w')

theorem writeBack_plays (b : Nat) (c : Change) :
    PlaysAll (writeBack announce b c) (LiveUI.writeBack announce' b c) := by
  refine guarded_plays fun x w _ => (sourceOf_plays ha x w).bind fun r w₁ _ => ?_
  cases r with
  | error e => exact .pure _
  | ok p =>
      refine .look ?_
      split
      · exact .perform_bind rfl rfl (.pure _)
      · refine .perform_bind rfl rfl ((setAttr_plays ha p.1 p.2 c.new _).bind fun _ w₂ _ => .look ?_)
        dsimp only
        split
        · exact .pure _
        · exact (setAttr_plays ha c.object x.attr _ w₂).bind fun _ _ _ => .pure _

theorem fire_plays (b : Nat) (c : Change) :
    PlaysAll (fire announce b c) (LiveUI.fire announce' b c) := by
  refine guarded_plays fun x w _ => Plays.bind (.bring rfl rfl) fun record w₁ _ => ?_
  refine .perform_bind rfl rfl ?_
  refine (value_plays (applyFunc_plays ha) _ x.code _).bind fun r w₂ _ => .perform_bind rfl rfl ?_
  cases r <;> exact .pure _

theorem onTarget_plays (x : Binding) (c : Change) :
    PlaysAll (onTarget announce x c) (LiveUI.onTarget announce' x c) := by
  intro w
  simp only [onTarget, LiveUI.onTarget]
  cases x.kind with
  | bind => exact Plays.bind (.pure _) fun r w' _ => noteFailure_plays x.label r w'
  | delegate =>
      exact (writeBack_plays ha x.id c w).bind fun r w' _ => noteFailure_plays x.label r w'
  | notify => exact (fire_plays ha x.id c w).bind fun r w' _ => noteFailure_plays x.label r w'

theorem react_plays (callback : Callback) (c : Change) :
    PlaysAll (react announce callback c) (LiveUI.react announce' callback c) := by
  intro w
  cases callback with
  | host h => exact (routine_plays ha (h c) w).bind fun _ _ _ => .pure _
  | source b =>
      refine .look ?_
      cases w.binding? b with
      | none => exact .pure _
      | some x => exact (onSource_plays ha x w).bind fun _ _ _ => .perform rfl rfl
  | target b =>
      refine .look ?_
      cases w.binding? b with
      | none => exact .pure _
      | some x => exact (onTarget_plays ha x c w).bind fun _ _ _ => .perform rfl rfl

theorem deliver_plays (c : Change) (observers : List Observer) :
    PlaysAll (deliver announce c observers) (LiveUI.deliver announce' c observers) := by
  induction observers with
  | nil => exact fun _ => .pure _
  | cons x xs ih =>
      refine fun w => .look ?_
      split
      · exact .perform_bind rfl rfl ((react_plays ha x.callback c _).bind fun _ w' _ => ih w')
      · exact ih w

end Announcing

/-- The script of an announcement is what an announcement does. -/
theorem announce_plays (n : Nat) (c : Change) : PlaysAll (announce n c) (LiveUI.announce n c) := by
  induction n generalizing c with
  | zero => exact fun _ => rfl
  | succ n ih =>
      refine fun w => .look ?_
      dsimp only
      split
      · exact .pure _
      next hsome => exact Plays.inside (by simpa [Stretch.canBegin] using hsome) (deliver_plays ih c _ _)

end Script

end LiveUI
