import LiveUI.Proofs.World.Confinement
import LiveUI.Proofs.World.Reading
import LiveUI.Proofs.World.Step

/-! # Propagation comes to an end

Each announcement inside another one is made by a binding that was idle before, so announcements
nest no deeper than there are bindings. No graph of dependencies makes a write go on for ever: where
only bindings observe, every write has a result, the same for every limit on nesting that is large
enough. A routine of the host is a tree of requests in which every path is finite, so it ends by
itself once its writes do. -/

namespace LiveUI

open World Step

/-! ## Steps with a result that no limit on nesting changes -/

namespace Step

variable {α β : Type} {live : Nat → Bool} {idle depth : Nat}

/-- Both steps have one and the same result, and announcements nest at most `depth` deep. -/
def EndsAt (live : Nat → Bool) (depth : Nat) (w : World) (m m' : Step α) : Prop :=
  Yields m w fun a w' => m' w = some (a, w') ∧ Passes live depth w w'

/-- So it is wherever at most `idle` bindings are idle. -/
def Ends (live : Nat → Bool) (idle depth : Nat) (m m' : Step α) : Prop :=
  ∀ w : World, w.ServesOnly live → w.idleOf live ≤ idle → EndsAt live depth w m m'

namespace EndsAt

variable {m m' : Step α} {w : World}

theorem pure (h : w.ServesOnly live) (a : α) :
    EndsAt live depth w (Pure.pure a) (Pure.pure a) :=
  Yields.of_pure ⟨rfl, .refl h⟩

theorem bind {f f' : α → Step β} (hm : EndsAt live depth w m m')
    (hf : ∀ a w', Passes live depth w w' → EndsAt live depth w' (f a) (f' a)) :
    EndsAt live depth w (m >>= f) (m' >>= f') := by
  obtain ⟨a, w₁, hrun, hrun', hpasses⟩ := hm
  obtain ⟨b, w₂, hnext, hnext', hpasses'⟩ := hf a w₁ hpasses
  refine ⟨b, w₂, ?_, ?_, hpasses.trans hpasses'⟩
  · change (m w).bind _ = _
    rw [hrun]
    exact hnext
  · change (m' w).bind _ = _
    rw [hrun']
    exact hnext'

theorem get_bind {f f' : World → Step β} (h : EndsAt live depth w (f w) (f' w)) :
    EndsAt live depth w (get >>= f) (get >>= f') := h

/-- A step that only moves on to another world. -/
theorem of_passes {f f' : PUnit → Step β} {w₁ : World} (h : Passes live depth w w₁)
    (hf : EndsAt live depth w₁ (f ⟨⟩) (f' ⟨⟩)) :
    EndsAt live depth w (set w₁ >>= f) (set w₁ >>= f') := by
  obtain ⟨b, w₂, hnext, hnext', hpasses⟩ := hf
  exact ⟨b, w₂, hnext, hnext', h.trans hpasses⟩

end EndsAt

namespace Ends

variable {m m' : Step α}

theorem pure (a : α) : Ends live idle depth (Pure.pure a) (Pure.pure a) :=
  fun _ h _ => .pure h a

theorem bind {f f' : α → Step β} (hm : Ends live idle depth m m')
    (hf : ∀ a, Ends live idle depth (f a) (f' a)) :
    Ends live idle depth (m >>= f) (m' >>= f') :=
  fun w hw hle => (hm w hw hle).bind fun a w' hpasses =>
    hf a w' hpasses.serves (hpasses.idleOf ▸ hle)

theorem get_bind {f f' : World → Step β}
    (hf : ∀ w, w.ServesOnly live → Ends live idle depth (f w) (f' w)) :
    Ends live idle depth (get >>= f) (get >>= f') :=
  fun w hw hle => .get_bind (hf w hw w hw hle)

theorem modify {f : World → World} (hf : Gentle live f) :
    Ends live idle depth (modify f : Step PUnit) (modify f) :=
  fun w hw _ => Yields.of_modify ⟨rfl, (hf w hw).mono (Nat.zero_le depth)⟩

theorem modifyGet {f : World → α × World} (hf : Gentle live fun w => (f w).2) :
    Ends live idle depth (modifyGet f : Step α) (modifyGet f) :=
  fun w hw _ => ⟨(f w).1, (f w).2, rfl, rfl, (hf w hw).mono (Nat.zero_le depth)⟩

theorem notice (n : Notice) : Ends live idle depth (Step.notice n) (Step.notice n) :=
  modify (Gentle.notice n)

theorem mapM {f : β → Step α} (hf : ∀ b, Ends live idle depth (f b) (f b)) (l : List β) :
    Ends live idle depth (l.mapM f) (l.mapM f) := by
  induction l with
  | nil => exact pure []
  | cons b l ih =>
      rw [List.mapM_cons]
      exact (hf b).bind fun a => ih.bind fun as => pure (a :: as)

end Ends

end Step

/-! ## Evaluations -/

namespace Evaluation

variable {α β : Type} {live : Nat → Bool} {idle depth : Nat}

def Ends (live : Nat → Bool) (idle depth : Nat) (m m' : Evaluation α) : Prop :=
  ∀ s : Reads, Step.Ends live idle depth (m.run.run s) (m'.run.run s)

theorem Ends.bind {m m' : Evaluation α} {f f' : α → Evaluation β} (hm : Ends live idle depth m m')
    (hf : ∀ a, Ends live idle depth (f a) (f' a)) :
    Ends live idle depth (m >>= f) (m' >>= f') := by
  intro s
  rw [run_bind, run_bind]
  refine (hm s).bind fun p => ?_
  cases p.1 with
  | ok a => exact hf a p.2
  | error e => exact .pure _

theorem Ends.readAttr (base : Value) (attr : String) :
    Ends live idle depth (readAttr base attr) (readAttr base attr) := by
  cases base with
  | object o =>
      refine fun s w hw _ => ⟨_, _, outcome_readAttr o attr s w, ?_, .refl hw⟩
      exact outcome_readAttr o attr s w
  | _ => exact fun _ => .pure _

theorem Ends.call {apply apply' : Apply}
    (happly : ∀ f args, Step.Ends live idle depth (apply f args) (apply' f args))
    (callee : Value) (args : List Value) :
    Ends live idle depth (call apply callee args) (call apply' callee args) := by
  cases callee with
  | func f => exact fun s => (happly f args).bind fun r => .pure (r, s)
  | _ => exact fun _ => .pure _

end Evaluation

namespace Code

variable {live : Nat → Bool} {idle depth : Nat} {apply apply' : Apply}

theorem evaluate_ends
    (happly : ∀ f args, Step.Ends live idle depth (apply f args) (apply' f args)) (scope : Scope)
    (recording : Bool) (code : Code) : Step.Ends live idle depth
      (code.evaluate apply scope recording) (code.evaluate apply' scope recording) := by
  have congruence : Evaluation.Congruence apply apply' (Evaluation.Ends live idle depth) :=
    ⟨fun _ _ => .pure _, fun _ _ => .pure _, .bind, .readAttr, .call happly⟩
  exact (eval_congr congruence scope code { recording }).bind fun _ => .pure _

theorem value_ends
    (happly : ∀ f args, Step.Ends live idle depth (apply f args) (apply' f args)) (scope : Scope)
    (code : Code) :
    Step.Ends live idle depth (code.value apply scope) (code.value apply' scope) :=
  (evaluate_ends happly scope false code).bind fun _ => .pure _

end Code

/-! ## Writes, routines and functions -/

section Announcing

variable {live : Nat → Bool} {idle depth : Nat} {announce announce' : Announce}

/-- Announcements end, started with at most `idle` idle bindings. -/
def Announce.End (live : Nat → Bool) (idle depth : Nat) (announce announce' : Announce) : Prop :=
  ∀ c, Step.Ends live idle depth (announce c) (announce' c)

section Inside

variable (ha : Announce.End live idle depth announce announce')

include ha

theorem setAttr_ends (o : Handle) (attr : String) (v : Value) :
    Step.Ends live idle depth (setAttr announce o attr v) (setAttr announce' o attr v) := by
  refine .get_bind fun w _ => ?_
  cases w.attr? o attr with
  | none => exact (Ends.modify (.write o attr v)).bind fun _ => (ha _).bind fun _ => .pure true
  | some old =>
      dsimp only
      split
      · exact .pure false
      · exact (Ends.modify (.write o attr v)).bind fun _ => (ha _).bind fun _ => .pure true

theorem emitAttr_ends (o : Handle) (attr : String) (v : Value) :
    Step.Ends live idle depth (emitAttr announce o attr v) (emitAttr announce' o attr v) := by
  refine .get_bind fun w _ => ?_
  exact (Ends.modify (.write o attr v)).bind fun _ => ha _

theorem Host.run_ends (h : Host) (hobserves : h.ObservesNothing) :
    Step.Ends live idle depth (h.run announce) (h.run announce') := by
  induction h with
  | done result => exact .pure result
  | read o attr next ih => exact .get_bind fun w _ => ih _ (hobserves _)
  | write o attr v next ih => exact (setAttr_ends ha o attr v).bind fun b => ih b (hobserves b)
  | emit o attr v next ih => exact (emitAttr_ends ha o attr v).bind fun _ => ih hobserves
  | observe o attr callback next => exact hobserves.elim
  | unobserve s next ih => exact (Ends.modify (.unobserve s)).bind fun _ => ih hobserves
  | inFlight o attr next ih => exact .get_bind fun w _ => ih _ (hobserves _)
  | phase o next ih => exact .get_bind fun w _ => ih _ (hobserves _)
  | create typeName attrs next ih =>
      exact (Ends.modifyGet (.create typeName attrs)).bind fun o => ih o (hobserves o)
  | function name body next _ ih =>
      exact (Ends.modifyGet (.addFunction name hobserves.1)).bind fun f => ih f (hobserves.2 f)
  | builtin b next ih => exact (Ends.modifyGet (.addBuiltin b)).bind fun f => ih f (hobserves f)
  | destroy o next ih => exact (Ends.modify (.destroy o)).bind fun _ => ih hobserves
  | disconnect b next ih => exact (Ends.modify (.disconnect b)).bind fun _ => ih hobserves
  | report r next ih => exact (Ends.modify (.log rfl rfl)).bind fun _ => ih hobserves
  | «recall» next ih => exact .get_bind fun w _ => ih _ (hobserves _)
  | remember m next ih => exact (Ends.modify (.remember m)).bind fun _ => ih hobserves

theorem applyFunc_ends (f : Func) (args : List Value) :
    Step.Ends live idle depth (applyFunc announce f args) (applyFunc announce' f args) := by
  simp only [applyFunc]
  cases f.kind with
  | builtin b => exact .pure _
  | host =>
      refine fun w hw hle => .get_bind ?_
      cases henter : w.enterFunction? f args with
      | none => exact .pure hw _
      | some entered =>
          obtain ⟨routine, w₁⟩ := entered
          obtain ⟨hobserves, hpasses⟩ := enterFunction?_passes hw henter
          refine .of_passes (hpasses.mono (Nat.zero_le depth)) ?_
          exact Host.run_ends ha routine hobserves w₁ hpasses.serves (hpasses.idleOf ▸ hle)

theorem sourceOf_ends (x : Binding) :
    Step.Ends live idle depth (sourceOf announce x) (sourceOf announce' x) := by
  unfold sourceOf
  cases x.code.attrPath? with
  | none => exact .pure _
  | some path =>
      refine (Code.value_ends (applyFunc_ends ha) { frame := x.frame } path.1).bind fun r => ?_
      split <;> exact .pure _

theorem storeValue_ends (x : Binding) (v : Value) :
    Step.Ends live idle depth (storeValue announce x v) (storeValue announce' x v) := by
  unfold storeValue
  refine (setAttr_ends ha x.target x.attr v).bind fun _ => ?_
  split
  · exact .pure _
  · refine .get_bind fun w _ => ?_
    dsimp only
    split
    · exact .pure _
    · refine (sourceOf_ends ha x).bind fun r => ?_
      split
      · exact .pure _
      · exact (setAttr_ends ha _ _ _).bind fun _ => .pure _

end Inside

theorem resubscribe_ends {b : Nat} (hlive : live b = true) (reads : List (Handle × String)) :
    Step.Ends live idle depth (resubscribe b reads) (resubscribe b reads) := by
  unfold resubscribe
  have hobserved : ∀ read : Handle × String, Gentle live
      fun w => (w.observe read.1 read.2 (.source b)).2 :=
    fun read => .observe read.1 read.2 rfl hlive
  refine (Ends.mapM (fun read => Ends.modifyGet (hobserved read)) reads).bind fun fresh => ?_
  have hrenewed : Gentle live (·.modifyBinding b fun x => { x with sources := fresh }) :=
    .modifyBinding b (fun _ => rfl) fun _ => rfl
  exact .get_bind fun w _ => (Ends.modify hrenewed).bind fun _ => .modify (.foldl .unobserve _)

/-! ## Bindings at work

A binding that goes to work leaves one idle binding fewer to its writes, and the announcements of
these may nest one level less deep. -/

section AtWork

/-- A binding's work takes the place of one idle binding. -/
theorem guarded_ends {b : Nat} (hlive : live b = true)
    {work work' : Binding → Step (Except EvalError Unit)}
    (hwork : ∀ fewer < idle, ∀ x, Step.Ends live fewer (fewer + 1) (work x) (work' x)) :
    Step.Ends live idle idle (guarded b work) (guarded b work') := by
  intro w hw hle
  cases hx : w.binding? b with
  | none =>
      refine .get_bind ?_
      rw [hx]
      exact .pure hw _
  | some x =>
      cases hidle : x.busy with
      | true =>
          refine .get_bind ?_
          simp only [hx, hidle, if_true]
          exact .pure hw _
      | false =>
          -- the work starts with one idle binding fewer: this is what the recursion goes down by
          have hlt := idleOf_setBusy_lt hx hlive hidle
          obtain ⟨r, w₁, hrun, hrun', hpasses⟩ :=
            hwork _ (Nat.lt_of_lt_of_le hlt hle) x _ (hw.setBusy b true) (Nat.le_refl _)
          refine ⟨r, w₁.setBusy b false, ?_, ?_, ?_⟩
          · rw [guarded_of_idle hx hidle, hrun]
            rfl
          · rw [guarded_of_idle hx hidle, hrun']
            rfl
          · exact (hpasses.work hw hx hidle).mono (Nat.le_trans (Nat.succ_le_of_lt hlt) hle)

variable (ha : ∀ fewer < idle, Announce.End live fewer (fewer + 1) announce announce')

include ha

theorem refresh_ends {b : Nat} (hlive : live b = true) :
    Step.Ends live idle idle (refresh announce b) (refresh announce' b) := by
  refine guarded_ends hlive fun fewer hfewer x => .get_bind fun w _ => ?_
  have inner := ha fewer hfewer
  split
  · exact .pure _
  · refine (Code.evaluate_ends (applyFunc_ends inner) { frame := x.frame } true x.code).bind
      fun out => ?_
    refine (Ends.modify (.log rfl rfl)).bind fun _ => ?_
    refine (resubscribe_ends hlive out.2).bind fun _ => ?_
    refine (Ends.notice _).bind fun _ => ?_
    split
    · exact .pure _
    · exact storeValue_ends inner x _

theorem writeBack_ends {b : Nat} (hlive : live b = true) (c : Change) :
    Step.Ends live idle idle (writeBack announce b c) (writeBack announce' b c) := by
  refine guarded_ends hlive fun fewer hfewer x => ?_
  have inner := ha fewer hfewer
  refine (sourceOf_ends inner x).bind fun r => ?_
  split
  · exact .pure _
  · refine .get_bind fun w _ => ?_
    dsimp only
    split
    · exact (Ends.notice _).bind fun _ => .pure _
    · refine (Ends.notice _).bind fun _ => ?_
      refine (setAttr_ends inner _ _ _).bind fun _ => .get_bind fun w₁ _ => ?_
      split
      · exact .pure _
      · exact (setAttr_ends inner _ _ _).bind fun _ => .pure _

theorem fire_ends {b : Nat} (hlive : live b = true) (c : Change) :
    Step.Ends live idle idle (fire announce b c) (fire announce' b c) := by
  refine guarded_ends hlive fun fewer hfewer x => ?_
  have inner := ha fewer hfewer
  refine (Ends.modifyGet (.create _ _)).bind fun record => ?_
  refine (Ends.notice _).bind fun _ => ?_
  refine (Code.value_ends (applyFunc_ends inner) ⟨x.frame, .object record⟩ x.code).bind fun r => ?_
  refine (Ends.modify (.log rfl rfl)).bind fun _ => ?_
  split <;> exact .pure _

omit ha in
theorem noteFailure_ends (label : String) (r : Except EvalError Unit) :
    Step.Ends live idle depth (noteFailure label r) (noteFailure label r) := by
  cases r with
  | ok _ => exact .pure _
  | error e => exact .notice _

theorem onSource_ends {x : Binding} (hlive : live x.id = true) :
    Step.Ends live idle idle (onSource announce x) (onSource announce' x) := by
  refine .get_bind fun w _ => ?_
  split
  · exact .pure _
  · split
    · exact .notice _
    · split
      · exact .notice _
      · refine (Ends.notice _).bind fun _ => ?_
        exact (refresh_ends ha hlive).bind fun r => noteFailure_ends x.label r

theorem onTarget_ends {x : Binding} (hlive : live x.id = true) (c : Change) :
    Step.Ends live idle idle (onTarget announce x c) (onTarget announce' x c) := by
  unfold onTarget
  cases x.kind with
  | bind => exact (Ends.pure _).bind fun r => noteFailure_ends x.label r
  | delegate => exact (writeBack_ends ha hlive c).bind fun r => noteFailure_ends x.label r
  | notify => exact (fire_ends ha hlive c).bind fun r => noteFailure_ends x.label r

theorem react_ends {callback : Callback} {b : Nat} (hcall : callback.binding? = some b)
    (hlive : live b = true) (c : Change) :
    Step.Ends live idle idle (react announce callback c) (react announce' callback c) := by
  cases callback with
  | host routine => simp [Callback.binding?] at hcall
  | source b' =>
      obtain rfl : b' = b := by simpa [Callback.binding?] using hcall
      refine .get_bind fun w _ => ?_
      cases hx : w.binding? b' with
      | none => exact .pure _
      | some x =>
          obtain rfl := w.id_of_binding? hx
          exact (onSource_ends ha hlive).bind fun _ => .modify (.release x.id)
  | target b' =>
      obtain rfl : b' = b := by simpa [Callback.binding?] using hcall
      refine .get_bind fun w _ => ?_
      cases hx : w.binding? b' with
      | none => exact .pure _
      | some x =>
          obtain rfl := w.id_of_binding? hx
          exact (onTarget_ends ha hlive c).bind fun _ => .modify (.release x.id)

theorem deliver_ends (c : Change) (observers : List Observer)
    (hserved : ∀ obs ∈ observers, ∃ b, obs.callback.binding? = some b ∧ live b = true) :
    Step.Ends live idle idle (deliver announce c observers) (deliver announce' c observers) := by
  induction observers with
  | nil => exact .pure _
  | cons obs rest ih =>
      have hrest := ih fun y hy => hserved y (List.mem_cons_of_mem _ hy)
      obtain ⟨b, hcall, hlive⟩ := hserved obs List.mem_cons_self
      refine .get_bind fun w _ => ?_
      split
      · refine (Ends.modify (.log rfl rfl)).bind fun _ => ?_
        exact (react_ends ha hcall hlive c).bind fun _ => hrest
      · exact hrest

end AtWork

end Announcing

/-- An announcement delivers the change to those who observe it when it starts. -/
theorem announce_succ (n : Nat) (c : Change) (w : World) :
    announce (n + 1) c w =
      (if (w.observersOf c.object c.attr).isEmpty then pure ()
      else do
        modify (·.beginFlight c)
        deliver (announce n) c (w.observersOf c.object c.attr)
        modify (·.endFlight c) : Step Unit) w :=
  rfl

theorem announce_of_unheard {n : Nat} {c : Change} {w : World}
    (h : w.observersOf c.object c.attr = []) : announce (n + 1) c w = some ((), w) := by
  rw [announce_succ, h]
  rfl

theorem announce_of_heard {n : Nat} {c : Change} {w : World}
    (h : ¬(w.observersOf c.object c.attr).isEmpty = true) :
    announce (n + 1) c w = (deliver (announce n) c (w.observersOf c.object c.attr)
      (w.beginFlight c)).map fun p => (⟨⟩, p.2.endFlight c) := by
  rw [announce_succ, if_neg h]
  change (deliver (announce n) c _ (w.beginFlight c)).bind _ = _
  cases deliver (announce n) c (w.observersOf c.object c.attr) (w.beginFlight c) <;> rfl

/-- Announcements end below every limit that exceeds the number of idle bindings. -/
theorem announce_ends (live : Nat → Bool) (n n' idle : Nat) (hn : idle < n) (hn' : idle < n') :
    Announce.End live idle (idle + 1) (announce n) (announce n') := by
  induction n generalizing n' idle with
  | zero => exact absurd hn (Nat.not_lt_zero idle)
  | succ n ih =>
      obtain ⟨n', rfl⟩ : ∃ m, n' = m + 1 := ⟨n' - 1, by omega⟩
      -- a reaction with no idle binding left announces nothing, so the limits need not cover it
      have inner : ∀ fewer < idle, Announce.End live fewer (fewer + 1) (announce n) (announce n') :=
        fun fewer hfewer => ih n' fewer (by omega) (by omega)
      intro c w hw hle
      have hserved : ∀ obs ∈ w.observersOf c.object c.attr,
          ∃ b, obs.callback.binding? = some b ∧ live b = true := by
        intro obs hobs
        exact hw.of_mem_observers (mem_observersOf.mp hobs).1
      by_cases hobs : (w.observersOf c.object c.attr).isEmpty = true
      · refine .get_bind ?_
        simp only [hobs, if_true]
        exact .pure hw _
      · have hmarked : (w.beginFlight c).ServesOnly live := hw.beginFlight c
        obtain ⟨⟨⟩, w₁, hrun, hrun', hpasses⟩ :=
          deliver_ends inner c _ hserved (w.beginFlight c) hmarked hle
        refine ⟨⟨⟩, w₁.endFlight c, ?_, ?_, hpasses.flight⟩
        · rw [announce_of_heard hobs, hrun]
          rfl
        · rw [announce_of_heard hobs, hrun']
          rfl

/-- A result that is the same for any two limits above `least` is the result for all of them. -/
theorem Step.EndsAt.for_all {α : Type} {live : Nat → Bool} {depth least : Nat} {w : World}
    {m : Nat → Step α} (h : ∀ n n', least < n → least < n' → EndsAt live depth w (m n) (m n')) :
    ∃ a w', (∀ n, least < n → m n w = some (a, w')) ∧ Passes live depth w w' := by
  obtain ⟨a, w', hrun, -, hpasses⟩ := h (least + 1) (least + 1) (Nat.lt_succ_self _)
    (Nat.lt_succ_self _)
  refine ⟨a, w', fun n hn => ?_, hpasses⟩
  have hsame := h (least + 1) n (Nat.lt_succ_self _) hn
  exact (hsame.result hrun).1

/-- Whatever depends on what: where the bindings `live` are the only observers, setting an attribute
and emitting it come to an end, for all limits above the number of these bindings to the same one.
At no moment do announcements nest deeper than there are such bindings and one more; in the end none
is in progress that was not before, and the bindings are at work or at rest as they were. -/
theorem writes_end {live : Nat → Bool} {w : World} (hw : w.ServesOnly live) (o : Handle)
    (attr : String) (v : Value) :
    (∃ changed w',
      (∀ n, w.countOf live < n → setAttr (announce n) o attr v w = some (changed, w')) ∧
      Passes live (w.countOf live + 1) w w') ∧
    ∃ w', (∀ n, w.countOf live < n → emitAttr (announce n) o attr v w = some (⟨⟩, w')) ∧
      Passes live (w.countOf live + 1) w w' := by
  have hle := w.idleOf_le_countOf live
  have hann (n n' : Nat) (hn : w.countOf live < n) (hn' : w.countOf live < n') :
      Announce.End live (w.countOf live) (w.countOf live + 1) (announce n) (announce n') :=
    announce_ends live n n' _ hn hn'
  have hset := Step.EndsAt.for_all fun n n' hn hn' =>
    setAttr_ends (hann n n' hn hn') o attr v w hw hle
  have hemit := Step.EndsAt.for_all fun n n' hn hn' =>
    emitAttr_ends (hann n n' hn hn') o attr v w hw hle
  obtain ⟨⟨⟩, w', hrun, hpasses⟩ := hemit
  exact ⟨hset, w', hrun, hpasses⟩

/-- A knob with `knob.a << knob.b`, `knob.b := knob.c` and `knob.a >> bump(knob)`, where `bump` emits
`knob.c` anew: each attribute depends on all of them. -/
def knobWorld : World :=
  let knob : Handle := ⟨1, "Knob"⟩
  let read (attr : String) : Code := .attr (.const (.object knob)) attr
  let bump : Code := .call (.const (.func ⟨0, "bump", .host⟩)) []
  let b := { id := 0, kind := .bind, target := knob, attr := "a", code := read "b", frame := {},
             label := "knob.a << knob.b", sources := [⟨knob, 0⟩], owned := true }
  let d := { id := 1, kind := .delegate, target := knob, attr := "b", code := read "c", frame := {},
             label := "knob.b := knob.c", sources := [⟨knob, 1⟩], targetListener := some ⟨knob, 2⟩,
             owned := true }
  let n := { id := 2, kind := .notify, target := knob, attr := "a", code := bump, frame := {},
             label := "knob.a >> bump()", targetListener := some ⟨knob, 3⟩, owned := true }
  { objects := [
      { handle := knob, attrs := [("a", .int 0), ("b", .int 0), ("c", .int 0)]
        observers := [⟨0, "b", .source 0⟩, ⟨1, "c", .source 1⟩, ⟨2, "b", .target 1⟩,
          ⟨3, "a", .target 2⟩]
        nextObserver := 4, bindings := [0, 1, 2] }]
    bindings := [b, d, n]
    functions := [{ id := 0, body := fun calls _ => .emit knob "c" (.int (.ofNat calls)) .skip }]
    nextObject := 2, nextBinding := 3, nextFunction := 1 }

theorem writes_end_knob :
    knobWorld.ServesOnly (· < 3) ∧
      ∃ changed w',
        (∀ n, 3 < n → setAttr (announce n) ⟨1, "Knob"⟩ "b" (.int 7) knobWorld = some (changed, w')) ∧
        Passes (· < 3) 4 knobWorld w' := by
  have hserves : knobWorld.ServesOnly (· < 3) := by
    refine ⟨by decide, fun x hx obs hobs => ?_, fun f hf calls args => ?_⟩
    · obtain rfl := List.mem_singleton.mp hx
      simp only [List.mem_cons, List.not_mem_nil, or_false] at hobs
      rcases hobs with rfl | rfl | rfl | rfl <;> exact ⟨_, rfl, rfl⟩
    · obtain rfl := List.mem_singleton.mp hf
      exact trivial
  exact ⟨hserves, (writes_end hserves ⟨1, "Knob"⟩ "b" (.int 7)).1⟩

end LiveUI
