import LiveUI.Proofs.World.Silence

/-! # Bindings that are detached

A binding is detached when it is disconnected, or when the object that owns it is destroyed. It does
not act from then on, whatever is done later, if it was not in the midst of an evaluation: for in that
case it observes what it has read, and is called again. -/

namespace LiveUI

open World

/-- The deed disconnects the binding, or it destroys an object that owns it. -/
def Deed.Detaches (b : Nat) (w : World) : Deed → Prop
  | disconnect c => c = b
  | destroy p => ∃ o, b ∈ w.owned o ∧ w.phase o ≠ .destroyed ∧ (w.destroy p).phase o = .destroyed
  | _ => False

/-- A binding that is detached has no observers left. -/
theorem World.Heard.silent_of_detaches {w : World} (h : w.Heard) {b : Nat} {d : Deed}
    (hd : d.Detaches b w) : (d.apply w).Silent b := by
  cases d with
  | disconnect c =>
      obtain rfl : c = b := hd
      exact h.silent_disconnect c
  | destroy p =>
      obtain ⟨o, howned, hstood, hfell⟩ := hd
      exact ((destroyTo_fells _ w p o).fallen h hstood hfell).2 b howned
  | _ => exact absurd hd id

/-! ## The course of an operation -/

namespace Script

/-- Evaluate once and write. -/
def assign (announce : Change → Script Unit) (site : Site) (code : Code) :
    Script (Except EvalError Unit) := do
  match ← value (applyFunc announce) { frame := site.frame } code with
  | .error e => return .error e
  | .ok v =>
      let _ ← setAttr announce site.target site.attr v
      return .ok ()

theorem assign_plays {announce : Change → Script Unit} {announce' : Announce}
    (ha : ∀ c, PlaysAll (announce c) (announce' c)) (site : Site) (code : Code) :
    PlaysAll (assign announce site code) (site.assign announce' code) := by
  refine fun w => (value_plays (applyFunc_plays ha) _ code w).bind fun r w₁ _ => ?_
  cases r with
  | error e => exact .pure _
  | ok v => exact (setAttr_plays ha site.target site.attr v w₁).bind fun _ _ _ => .pure _

end Script

namespace Operation

/-- A binding is entered before it is evaluated for the first time. -/
def entered (w : World) : Operation → World
  | bind site code => w.addBinding (site.record .bind code w.nextBinding)
  | delegate site code =>
      if code.attrPath?.isNone then w else w.addBinding (site.record .delegate code w.nextBinding)
  | _ => w

/-- All that the operation does in the course of which expressions are evaluated and observers called. -/
def script (n : Nat) (w : World) : Operation → Script Unit
  | set o attr v => do let _ ← Script.setAttr (Script.announce n) o attr v
  | emit o attr v => Script.emitAttr (Script.announce n) o attr v
  | routine h => do let _ ← Script.routine (Script.announce n) h
  | assign site code => do let _ ← Script.assign (Script.announce n) site code
  | bind _ _ => do let _ ← Script.refresh (Script.announce n) w.nextBinding
  | delegate _ code =>
      if code.attrPath?.isNone then return ()
      else do let _ ← Script.refresh (Script.announce n) w.nextBinding
  | _ => return ()

/-- In the course of the operation the binding is detached, while it does not evaluate its expression. -/
def Detaches (n : Nat) (b : Nat) (w : World) (op : Operation) : Prop :=
  ∃ s d v, (op.script n w).Does (op.entered w) s d v ∧ .evaluation b ∉ s ∧ d.Detaches b v

end Operation

/-! ## The end of an operation -/

/-- No binding but one that has come since comes by observers. -/
structure World.Quietens (m : Nat) (w w' : World) : Prop where
  nextBinding : w.nextBinding ≤ w'.nextBinding
  silent : ∀ b < m, w.Silent b → w'.Silent b

theorem World.nextBinding_le_enduring : Enduring fun w w' => w.nextBinding ≤ w'.nextBinding where
  toLasting := .of_parts (fun _ => Nat.le_refl _) (fun h h' => Nat.le_trans h h')
    (fun _ _ hnext => Nat.le_of_eq hnext.symm) (fun _ _ _ _ => Nat.le_refl _)
    (fun _ _ _ => Nat.le_refl _) (fun _ _ _ _ => Nat.le_refl _) fun _ _ _ _ _ _ => Nat.le_refl _
  flight _ _ _ := Nat.le_refl _
  busy _ _ _ := Nat.le_refl _

namespace World.Quietens

variable {m : Nat} {w w' w'' : World}

theorem of_observers (hnext : w.nextBinding ≤ w'.nextBinding)
    (hobservers : ∀ o, w'.observers o ⊆ w.observers o) : Quietens m w w' :=
  ⟨hnext, fun _ _ h o obs hobs => h o obs (hobservers o hobs)⟩

theorem refl (w : World) : Quietens m w w :=
  of_observers (Nat.le_refl _) fun _ => List.Subset.refl _

theorem trans (h : Quietens m w w') (h' : Quietens m w' w'') : Quietens m w w'' :=
  ⟨Nat.le_trans h.nextBinding h'.nextBinding, fun b hb hs => h'.silent b hb (h.silent b hb hs)⟩

theorem of_deed {d : Deed} (hready : d.ready w = true) (hd : ∀ b < m, ¬d.Rouses b) :
    Quietens m w (d.apply w) :=
  ⟨nextBinding_le_enduring.toLasting.deed hready, fun b hb hs => hs.deed (hd b hb)⟩

theorem modifyObject (w : World) (o : Handle) {f : Object → Object}
    (hhandle : ∀ x, (f x).handle = x.handle) (hobservers : ∀ x, (f x).observers = x.observers) :
    Quietens m w (w.modifyObject o f) :=
  of_observers (Nat.le_refl _) fun p => w.observers_modifyObject o p hhandle hobservers ▸ List.Subset.refl _

theorem modifyBinding (w : World) (b : Nat) (f : Binding → Binding) :
    Quietens m w (w.modifyBinding b f) :=
  of_observers (Nat.le_refl _) fun _ => List.Subset.refl _

theorem addBinding (w : World) (x : Binding) : Quietens m w (w.addBinding x) :=
  of_observers (Nat.le_succ _) fun _ => List.Subset.refl _

theorem own (w : World) (o : Handle) (b : Nat) : Quietens m w (w.own o b) :=
  (modifyBinding w b _).trans (modifyObject _ o (fun _ => rfl) fun _ => rfl)

theorem listen (w : World) (o : Handle) (attr : String) {b : Nat} (hb : m ≤ b) :
    Quietens m w (w.listen o attr b) := by
  refine ⟨Nat.le_refl _, fun c hc hs p obs hobs => ?_⟩
  change obs ∈ (w.observe o attr (.target b)).2.observers p at hobs
  obtain hobs | ⟨-, -, rfl⟩ := mem_observers_observe.mp hobs
  · exact hs p obs hobs
  · exact fun heq => absurd (Option.some.inj heq) (Nat.ne_of_gt (Nat.lt_of_lt_of_le hc hb))

theorem shrinks (h : w.Shrinks w') : Quietens m w w' := by
  refine of_observers (Nat.le_of_eq h.nextBinding.symm) fun o obs hobs => ?_
  rw [observers] at hobs
  cases hy : w'.object? o with
  | none => simp [hy] at hobs
  | some y =>
      obtain ⟨x, hx, hdrops⟩ := h.objects o y hy
      rw [hy] at hobs
      rw [observers, hx]
      exact hdrops.observers hobs

end World.Quietens

/-! ## Making bindings -/

namespace Site

variable {n : Nat} {w w' : World} {site : Site} {code : Code} {r : Except EvalError Nat}

/-- A binding is entered and evaluated, and then it is given to its target or disconnected. -/
theorem bind_course (hrun : site.bind (announce n) code w = some (r, w')) :
    ∃ r' u, refresh (announce n) w.nextBinding
      (w.addBinding (site.record .bind code w.nextBinding)) = some (r', u) ∧
      u.Quietens w.nextBinding w' := by
  change (refresh (announce n) w.nextBinding
    (w.addBinding (site.record .bind code w.nextBinding))).bind _ = some (r, w') at hrun
  obtain ⟨⟨r', u⟩, hrefresh, hlast⟩ := Option.bind_eq_some_iff.mp hrun
  refine ⟨r', u, hrefresh, ?_⟩
  cases r' with
  | error e =>
      cases hlast
      exact .of_deed (d := .disconnect w.nextBinding) rfl fun _ _ => id
  | ok _ =>
      cases hlast
      exact .own u site.target w.nextBinding

/-- The binding listens to its target at the end, and no other binding does that did not before. -/
theorem delegate_course (hsource : ¬code.attrPath?.isNone = true)
    (hrun : site.delegate (announce n) code w = some (r, w')) :
    ∃ r' u, refresh (announce n) w.nextBinding
      (w.addBinding (site.record .delegate code w.nextBinding)) = some (r', u) ∧
      u.Quietens w.nextBinding w' := by
  unfold delegate at hrun
  rw [if_neg hsource] at hrun
  change (refresh (announce n) w.nextBinding
    (w.addBinding (site.record .delegate code w.nextBinding))).bind _ = some (r, w') at hrun
  obtain ⟨⟨r', u⟩, hrefresh, hlast⟩ := Option.bind_eq_some_iff.mp hrun
  refine ⟨r', u, hrefresh, ?_⟩
  cases r' with
  | error e =>
      cases hlast
      exact .of_deed (d := .disconnect w.nextBinding) rfl fun _ _ => id
  | ok _ =>
      cases hlast
      exact (World.Quietens.listen u site.target site.attr (Nat.le_refl _)).trans (.own _ _ _)

end Site

namespace Operation

variable {n b : Nat} {w w' : World}

/-- First a binding may be entered, then the script is run, and after that no other binding comes by
observers. -/
theorem perform_course (op : Operation) (hrun : op.perform (announce n) w = some ((), w')) :
    ∃ u, (op.script n w).run (op.entered w) = some ((), u) ∧ u.Quietens w.nextBinding w' := by
  have hdone {p : Script Unit} {m : Step Unit} (hplays : p.Plays w m) (hrun : m w = some ((), w')) :
      ∃ u, p.run w = some ((), u) ∧ u.Quietens w.nextBinding w' :=
    ⟨w', hplays.trans hrun, .refl w'⟩
  have hstill (h : w.Quietens w.nextBinding w') :
      ∃ u, (pure () : Script Unit).run w = some ((), u) ∧ u.Quietens w.nextBinding w' :=
    ⟨w, rfl, h⟩
  have hrefreshed {v : World} {p : Except EvalError Unit × World}
      (hrefresh : refresh (announce n) w.nextBinding v = some p) :
      (do let _ ← Script.refresh (Script.announce n) w.nextBinding : Script Unit).run v =
        some ((), p.2) := by
    rw [Script.run_bind, Script.refresh_plays (Script.announce_plays n) w.nextBinding v, hrefresh]
    rfl
  -- Most operations are their script, or have none. Only a bind and a delegate go on behind theirs,
  -- which is the first evaluation.
  cases op with
  | set o attr v =>
      exact hdone ((Script.setAttr_plays (Script.announce_plays n) o attr v w).bind
        fun _ _ _ => .pure _) hrun
  | emit o attr v => exact hdone (Script.emitAttr_plays (Script.announce_plays n) o attr v w) hrun
  | routine h =>
      exact hdone ((Script.routine_plays (Script.announce_plays n) h w).bind fun _ _ _ => .pure _) hrun
  | assign site code =>
      exact hdone ((Script.assign_plays (Script.announce_plays n) site code w).bind
        fun _ _ _ => .pure _) hrun
  | bind site code =>
      obtain ⟨q, hbind, hend⟩ := Option.bind_eq_some_iff.mp hrun
      obtain rfl : q.2 = w' := congrArg Prod.snd (Option.some.inj hend)
      obtain ⟨r, u, hrefresh, hquiet⟩ := Site.bind_course hbind
      exact ⟨u, hrefreshed hrefresh, hquiet⟩
  | delegate site code =>
      obtain ⟨q, hdelegate, hend⟩ := Option.bind_eq_some_iff.mp hrun
      obtain rfl : q.2 = w' := congrArg Prod.snd (Option.some.inj hend)
      simp only [script, entered]
      split
      next hnone =>
        unfold Site.delegate at hdelegate
        rw [if_pos hnone] at hdelegate
        cases hdelegate
        exact hstill (.refl w)
      next hsource =>
        obtain ⟨r, u, hrefresh, hquiet⟩ := Site.delegate_course hsource hdelegate
        exact ⟨u, hrefreshed hrefresh, hquiet⟩
  | notify site code =>
      cases hrun
      exact hstill (((Quietens.addBinding w (site.record .notify code w.nextBinding)).trans
        (.listen _ site.target site.attr (Nat.le_refl _))).trans (.own _ site.target w.nextBinding))
  | hold b =>
      cases hrun
      exact hstill (.modifyBinding w b _)
  | letGo b =>
      cases hrun
      exact hstill ((Quietens.modifyBinding w b _).trans (.of_deed (d := .release b) rfl fun _ _ => id))
  | addChild parent child =>
      cases hrun
      have htied := Quietens.modifyObject (m := w.nextBinding) w child
        (f := fun x => { x with parent := some parent }) (fun _ => rfl) fun _ => rfl
      exact hstill (htied.trans (.modifyObject _ parent
        (f := fun x => { x with children := x.children ++ [child] }) (fun _ => rfl) fun _ => rfl))
  | setPhase o phase =>
      cases hrun
      exact hstill (.modifyObject w o (f := fun x => { x with phase }) (fun _ => rfl) fun _ => rfl)
  | beginRun values =>
      cases hrun
      exact hstill (.of_observers (Nat.le_refl _) fun _ => List.Subset.refl _)
  | setRun run values =>
      cases hrun
      exact hstill (.of_observers (Nat.le_refl _) fun _ => List.Subset.refl _)
  | log e =>
      cases hrun
      exact hstill (.of_observers (Nat.le_refl _) fun _ => List.Subset.refl _)
  | reclaim kept =>
      cases hrun
      exact hstill (.shrinks (.reclaim w kept))

theorem entered_quietens (op : Operation) (w : World) : w.Quietens w.nextBinding (op.entered w) := by
  cases op with
  | bind site code => exact .addBinding w _
  | delegate site code =>
      simp only [entered]
      split
      · exact .refl w
      · exact .addBinding w _
  | _ => exact .refl w

theorem entered_orderly (op : Operation) (hw : w.Orderly) : (op.entered w).Orderly := by
  cases op with
  | bind site code => exact (Upholds.addBinding w site .bind code).orderly hw
  | delegate site code =>
      simp only [entered]
      split
      · exact hw
      · exact (Upholds.addBinding w site .delegate code).orderly hw
  | _ => exact hw

theorem script_keepsSilence (op : Operation) (hw : w.Orderly) (hb : b < w.nextBinding) :
    (op.script n w).KeepsSilence b False (op.entered w) := by
  have ha (busy : Prop) (c : Change) : Script.KeepsSilenceAll b busy (Script.announce n c) :=
    Script.announce_keepsSilence n c
  have hdone {p : Script (Except EvalError Unit)} {v : World} (hp : p.KeepsSilence b False v) :
      Script.KeepsSilence b False (do let _ ← p : Script Unit) v :=
    hp.bind fun _ _ _ => .pure _
  have hnew : w.nextBinding = b → ¬(op.entered w).Silent b :=
    fun heq => absurd heq (Nat.ne_of_gt hb)
  have hentered := op.entered_orderly hw
  cases op with
  | set o attr v =>
      exact ((Script.setAttr_keepsSilence ha o attr v).bind fun _ => .pure _) w hw
  | emit o attr v => exact Script.emitAttr_keepsSilence ha o attr v w hw
  | routine h => exact ((Script.routine_keepsSilence ha h).bind fun _ => .pure _) w hw
  | assign site code =>
      refine hdone ((Script.value_keepsSilence ha _ code).bind
        (fun r => ?_) w hw)
      cases r with
      | error e => exact .pure _
      | ok v => exact (Script.setAttr_keepsSilence ha _ _ v).bind fun _ => .pure _
  | bind site code => exact hdone (Script.refresh_keepsSilence ha hentered hnew)
  | delegate site code =>
      simp only [script]
      split
      · exact .pure _
      · exact hdone (Script.refresh_keepsSilence ha hentered hnew)
  | _ => exact .pure _

/-- A binding that is silent already, or is detached in the course of the operation, is silent at its
end. -/
theorem perform_silent (op : Operation) (hw : w.Orderly) (hb : b < w.nextBinding)
    (hrun : op.perform (announce n) w = some ((), w')) (h : w.Silent b ∨ op.Detaches n b w) :
    w'.Silent b := by
  obtain ⟨u, hscript, hquiet⟩ := op.perform_course hrun
  have hkeeps := op.script_keepsSilence (n := n) hw hb
  refine hquiet.silent b hb ?_
  -- Silence begins before the script, or right after the deed that detaches the binding.
  rcases h with hsilent | ⟨s, d, v, hdoes, hnot, hd⟩
  · exact hkeeps.lasts () u hscript [] _ .now List.not_mem_nil
      ((op.entered_quietens w).silent b hb hsilent)
  · obtain ⟨hbefore, -, hafter⟩ := hdoes.passes
    have hheard := ((op.entered_orderly hw).passes hbefore).heard
    exact hkeeps.lasts () u hscript s _ hafter hnot (hheard.silent_of_detaches hd)

theorem perform_nextBinding (op : Operation) (hrun : op.perform (announce n) w = some ((), w')) :
    w.nextBinding ≤ w'.nextBinding := by
  obtain ⟨u, hscript, hquiet⟩ := op.perform_course hrun
  exact Nat.le_trans (op.entered_quietens w).nextBinding
    (Nat.le_trans (nextBinding_le_enduring.run hscript) hquiet.nextBinding)

end Operation

/-- Whatever a program asks for, a silent binding stays silent. -/
theorem World.LeadsTo.silent {v w : World} {b : Nat} (h : v.LeadsTo w) (hv : v.Orderly ∧ v.Resting)
    (hb : b < v.nextBinding) (hsilent : v.Silent b) : w.Silent b := by
  suffices hboth : b < w.nextBinding ∧ w.Silent b from hboth.2
  induction h with
  | start => exact ⟨hb, hsilent⟩
  | operation op hled hrun ih =>
      obtain ⟨hb, hsilent⟩ := ih
      exact ⟨Nat.lt_of_lt_of_le hb (op.perform_nextBinding hrun),
        op.perform_silent (hled.calm hv).1 hb hrun (.inl hsilent)⟩

/-! ## Later on -/

/-- The binding does nothing while the script goes on. -/
structure Script.Spares {α : Type} (b : Nat) (p : Script α) (w : World) : Prop where
  idle : ∀ s v, p.Passes w s v → (∀ t ∈ s, ¬t.IsOf b) ∧ v.isBusy b = false
  unevaluated : ∀ s d v, p.Does w s d v → ¬d.Evaluates b

theorem Script.KeepsSilence.spares {α : Type} {b : Nat} {p : Script α} {w : World}
    (h : p.KeepsSilence b False w) (hrest : w.Resting) (hsilent : w.Silent b) : p.Spares b w := by
  refine ⟨fun s v hpass => ⟨h.idle hsilent s v hpass, ?_⟩, fun s d v hdoes heval => ?_⟩
  · rw [hpass.isBusy, hrest.isBusy, Bool.or_false, List.any_eq_false]
    intro t ht hwork
    refine h.idle hsilent s v hpass t ht ?_
    cases t with
    | work c => exact beq_iff_eq.mp hwork
    | _ => cases hwork
  · exact h.idle hsilent s v hdoes.passes.1 _ (h.atWork id s d v hdoes heval) rfl

/-- Once a binding has been detached, from outside or by whatever goes on in the course of an operation,
but not while it evaluates its expression, nothing that is set or emitted later has it act. -/
theorem detached_never_acts {b n : Nat} {w w₁ w₂ : World} (h : w.Reached) (hb : b < w.nextBinding)
    {op : Operation} (hrun : op.perform (announce n) w = some ((), w₁)) (hdetached : op.Detaches n b w)
    (hlater : w₁.LeadsTo w₂) (m : Nat) (o : Handle) (attr : String) (v : Value) :
    (setAttr (announce m) o attr v = (Script.setAttr (Script.announce m) o attr v).run ∧
      (Script.setAttr (Script.announce m) o attr v).Spares b w₂) ∧
    emitAttr (announce m) o attr v = (Script.emitAttr (Script.announce m) o attr v).run ∧
      (Script.emitAttr (Script.announce m) o attr v).Spares b w₂ := by
  have hset := Script.setAttr_plays (Script.announce_plays m) o attr v
  have hemit := Script.emitAttr_plays (Script.announce_plays m) o attr v
  have hcalm₁ : w₁.Orderly ∧ w₁.Resting := Reached.calm (.operation op h hrun)
  have hcalm₂ := hlater.calm hcalm₁
  have hsilent := hlater.silent hcalm₁ (Nat.lt_of_lt_of_le hb (op.perform_nextBinding hrun))
    (op.perform_silent h.calm.1 hb hrun (.inr hdetached))
  have ha (busy : Prop) (c : Change) : Script.KeepsSilenceAll b busy (Script.announce m c) :=
    Script.announce_keepsSilence m c
  exact ⟨⟨(funext hset).symm,
      (Script.setAttr_keepsSilence ha o attr v w₂ hcalm₂.1).spares hcalm₂.2 hsilent⟩,
    (funext hemit).symm, (Script.emitAttr_keepsSilence ha o attr v w₂ hcalm₂.1).spares hcalm₂.2 hsilent⟩

/-! ## A gauge behind a switch -/

/-- A model, a switch and a gauge, which is destroyed when the switch is turned. A function of the host
sets an attribute. -/
def instruments : Host :=
  .create "Model" [("x", .int 0)] fun _ =>
  .create "Switch" [("on", .int 0)] fun switch =>
  .create "Gauge" [("value", .int 0)] fun gauge =>
  .observe switch "on" (fun _ => .destroy gauge .skip) fun _ =>
  .function "put" (fun _ args =>
    match args with
    | [.object o, .str attr, v] => .write o attr v fun _ => .skip
    | _ => .skip) fun _ => .skip

/-- The gauge follows the model, and the switch is turned on the way. -/
def gaugeBinding : Operation :=
  let x : Code := .attr (.const (.object ⟨1, "Model"⟩)) "x"
  .bind { target := ⟨3, "Gauge"⟩, attr := "value", frame := {}
          label := "value << [put(k, 'on', m.x), m.x][1]" }
    (.index (.list [.call (.const (.func ⟨0, "put", .host⟩))
      [.const (.object ⟨2, "Switch"⟩), .const (.str "on"), x], x]) (.const (.int 1)))

/-- The world in which the gauge has been set up, and the host keeps a reference to its binding, is as
`p` says. -/
def gaugeWorld (p : World → Bool) : Bool :=
  ((Operation.routine instruments).perform (announce 1) {}).any fun q =>
    (gaugeBinding.perform (announce 1) q.2).any fun q =>
      ((Operation.hold 0).perform (announce 1) q.2).any fun q => p q.2

theorem exists_of_gaugeWorld {p : World → Bool} (h : gaugeWorld p = true) :
    ∃ w : World, w.Reached ∧ p w = true := by
  obtain ⟨⟨⟨⟩, w₁⟩, hmade, h⟩ := (Option.any_eq_true _ _).mp h
  obtain ⟨⟨⟨⟩, w₂⟩, hbound, h⟩ := (Option.any_eq_true _ _).mp h
  obtain ⟨⟨⟨⟩, w⟩, hheld, hp⟩ := (Option.any_eq_true _ _).mp h
  exact ⟨w, .operation _ (.operation _ (.operation _ .start hmade) hbound) hheld, hp⟩

/-- A gauge whose binding has been disconnected from outside does not follow any more. -/
theorem detached_never_acts_gauge : ∃ w w₁ w₂, w.Reached ∧
    (Operation.routine (.disconnect 0 .skip)).perform (announce 1) w = some ((), w₁) ∧
    (Script.setAttr (Script.announce 3) ⟨1, "Model"⟩ "x" (.int 1)).Spares 0 w₁ ∧
    setAttr (announce 3) ⟨1, "Model"⟩ "x" (.int 1) w₁ = some (true, w₂) ∧
    (w₂.attr? ⟨3, "Gauge"⟩ "value").any (· == .int 0) = true := by
  have hruns : gaugeWorld (fun w => decide (0 < w.nextBinding) &&
      ((Operation.routine (.disconnect 0 .skip)).perform (announce 1) w).any fun q =>
        (setAttr (announce 3) ⟨1, "Model"⟩ "x" (.int 1) q.2).any fun q =>
          q.1 && (q.2.attr? ⟨3, "Gauge"⟩ "value").any (· == .int 0)) = true := by
    decide +kernel
  obtain ⟨w, hreached, hruns⟩ := exists_of_gaugeWorld hruns
  obtain ⟨hb, hruns⟩ := Bool.and_eq_true_iff.mp hruns
  obtain ⟨⟨⟨⟩, w₁⟩, hrun, hruns⟩ := (Option.any_eq_true _ _).mp hruns
  obtain ⟨⟨changed, w₂⟩, hset, hruns⟩ := (Option.any_eq_true _ _).mp hruns
  obtain ⟨rfl, hvalue⟩ := Bool.and_eq_true_iff.mp hruns
  have hdetached : (Operation.routine (.disconnect 0 .skip)).Detaches 1 0 w :=
    ⟨[], .disconnect 0, w, .now rfl, List.not_mem_nil, rfl⟩
  have hspares := detached_never_acts hreached (of_decide_eq_true hb) hrun hdetached .start 3
    ⟨1, "Model"⟩ "x" (.int 1)
  exact ⟨w, w₁, w₂, hreached, hrun, hspares.1.2, hset, hvalue⟩

/-- Where the gauge is destroyed while its binding evaluates the expression, the binding writes to it
later on. -/
theorem detached_acts_gauge : ∃ w w₁ w₂, w.Reached ∧ 0 ∈ w.owned ⟨3, "Gauge"⟩ ∧
    w.phase ⟨3, "Gauge"⟩ ≠ .destroyed ∧
    setAttr (announce 3) ⟨1, "Model"⟩ "x" (.int 1) w = some (true, w₁) ∧
    w₁.phase ⟨3, "Gauge"⟩ = .destroyed ∧
    (w₁.attr? ⟨3, "Gauge"⟩ "value").any (· == .int 1) = true ∧
    setAttr (announce 3) ⟨1, "Model"⟩ "x" (.int 2) w₁ = some (true, w₂) ∧
    (w₂.attr? ⟨3, "Gauge"⟩ "value").any (· == .int 2) = true := by
  have hruns : gaugeWorld (fun w => decide (0 ∈ w.owned ⟨3, "Gauge"⟩) &&
      decide (w.phase ⟨3, "Gauge"⟩ ≠ .destroyed) &&
      (setAttr (announce 3) ⟨1, "Model"⟩ "x" (.int 1) w).any fun q =>
        q.1 && decide (q.2.phase ⟨3, "Gauge"⟩ = .destroyed) &&
        (q.2.attr? ⟨3, "Gauge"⟩ "value").any (· == .int 1) &&
        (setAttr (announce 3) ⟨1, "Model"⟩ "x" (.int 2) q.2).any fun q =>
          q.1 && (q.2.attr? ⟨3, "Gauge"⟩ "value").any (· == .int 2)) = true := by
    decide +kernel
  obtain ⟨w, hreached, hruns⟩ := exists_of_gaugeWorld hruns
  simp only [Bool.and_eq_true, decide_eq_true_eq] at hruns
  obtain ⟨⟨howned, hstood⟩, hruns⟩ := hruns
  obtain ⟨⟨changed, w₁⟩, hset, hruns⟩ := (Option.any_eq_true _ _).mp hruns
  simp only [Bool.and_eq_true, decide_eq_true_eq] at hruns
  obtain ⟨⟨⟨rfl, hfell⟩, hvalue⟩, hruns⟩ := hruns
  obtain ⟨⟨changed, w₂⟩, hset', hruns⟩ := (Option.any_eq_true _ _).mp hruns
  obtain ⟨rfl, hvalue'⟩ := Bool.and_eq_true_iff.mp hruns
  exact ⟨w, w₁, w₂, hreached, howned, hstood, hset, hfell, hvalue, hset', hvalue'⟩

end LiveUI
