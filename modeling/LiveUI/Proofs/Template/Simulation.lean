import LiveUI.Proofs.Template.Naming

/-! # Operations and the tree

The operations of a construct, run on a machine, do what the interpreter does with the construct.
Between them the machine mirrors the interpreter: the frame holds the values of the names, and the
constructs that are open are those inside which the interpreter is. -/

namespace LiveUI.Template

open Markup

variable {announce : Announce} {globals : Globals} {registry : Registry}
  {builder : Factory → Builder} {s s' : Scope} {frame : Frame} {env : Environment}
  {self : Option Nat} {object : Option Handle}

namespace Interpreting

variable {α : Type}

@[simp] theorem run_building (m : Building α) (env : Environment) :
    (building m).run env = m >>= fun a => pure (a, env) :=
  rfl

@[simp] theorem run_step (m : Step α) (env : Environment) :
    (step m).run env = ExceptT.lift m >>= fun a => pure (a, env) :=
  rfl

@[simp] theorem run_attempt (r : Except RuntimeError α) (env : Environment) :
    (attempt r).run env = (ExceptT.mk (pure r) : Building α) >>= fun a => pure (a, env) :=
  rfl

end Interpreting

/-- The same value on both sides, and an environment that is mirrored. -/
def Mirrored {α : Type} (s s' : Scope) (frame : Frame) (v : α) (p : α × Environment) : Prop :=
  v = p.1 ∧ Goes s s' frame frame p.2

/-! ## Arguments -/

/-- What agrees item by item agrees over a list. -/
theorem mapM_agrees {α β γ : Type} {f : α → Emit β} {g : β → Building γ} {k : α → Interpreting γ}
    (hstep : ∀ {a : α} {s s' : Scope} {env : Environment} {b : β}, Mirrors s frame env →
      Encloses s frame self object → f a s = .ok (b, s') →
        Building.Agrees (Mirrored s s' frame) (g b) ((k a).run env))
    {as : List α} {bs : List β} (h : Mirrors s frame env) (hself : Encloses s frame self object)
    (hemit : as.mapM f s = .ok (bs, s')) :
    Building.Agrees (Mirrored s s' frame) (bs.mapM g) ((as.mapM k).run env) := by
  induction as generalizing s env bs with
  | nil =>
      cases hemit
      exact .pure ⟨rfl, h.goes⟩
  | cons a as ih =>
      rw [List.mapM_cons] at hemit
      obtain ⟨b, s₁, hfirst, hemit⟩ := emit_bind hemit
      obtain ⟨bs', s₂, hrest, hemit⟩ := emit_bind hemit
      cases hemit
      simp only [List.mapM_cons, StateT.run_bind, StateT.run_pure]
      refine (hstep h hself hfirst).bind fun v ⟨v', env₁⟩ ⟨heq, hgoes⟩ => ?_
      refine (ih hgoes.mirrors (hgoes.encloses hself) hrest).bind
        fun vs ⟨vs', env₂⟩ ⟨heqs, hgoes'⟩ => .pure ⟨?_, hgoes.trans hgoes'⟩
      exact congr (congrArg List.cons heq) heqs

section Arguments

variable (ha : ∀ c, Step.Respects (announce c))

include ha

theorem evalAt_interpretValue {place : Location} {e : Expression} {code : Code}
    (h : Mirrors s frame env) (hself : Encloses s frame self object)
    (hlower : lowerValue globals self false place e s = .ok (code, s')) :
    Building.Agrees (Mirrored s s' frame) (evalAt announce frame place code)
      ((interpretValue announce globals object place e).run env) := by
  obtain ⟨env', hrun, hgoes⟩ := h.lowerValue hself hlower
  simp only [interpretValue, StateT.run_bind, hrun, pure_bind, Interpreting.run_building]
  rw [evalAt_close, ← bind_pure (evalAt announce frame place code), bind_assoc]
  refine Building.Agrees.bind_same (evalAt_respects ha frame place code) fun v => ?_
  exact .pure ⟨rfl, hgoes⟩

theorem positional_agrees {place : Location} {es : List Expression} {codes : List Code}
    (h : Mirrors s frame env) (hself : Encloses s frame self object)
    (hemit : es.mapM (lowerValue globals self false place) s = .ok (codes, s')) :
    Building.Agrees (Mirrored s s' frame) (codes.mapM (evalAt announce frame place))
      ((es.mapM (interpretValue announce globals object place)).run env) :=
  mapM_agrees (fun h hself hlower => evalAt_interpretValue ha h hself hlower) h hself hemit

theorem keywords_agree {place : Location} {es : List (String × Expression)}
    {codes : List (String × Code)} (h : Mirrors s frame env)
    (hself : Encloses s frame self object)
    (hemit : (es.mapM fun (name, e) => do
      return (name, ← lowerValue globals self false place e) : Emit _) s = .ok (codes, s')) :
    Building.Agrees (Mirrored s s' frame)
      (codes.mapM fun (name, code) => do return (name, ← evalAt announce frame place code))
      ((es.mapM fun (name, e) => do
        return (name, ← interpretValue announce globals object place e) :
          Interpreting _).run env) := by
  refine mapM_agrees (fun {p s s' env q} h hself hlower => ?_) h hself hemit
  obtain ⟨code, s₁, hvalue, hrest⟩ := emit_bind hlower
  cases hrest
  simp only [StateT.run_bind, StateT.run_pure]
  exact (evalAt_interpretValue ha h hself hvalue).bind fun v ⟨v', env'⟩ ⟨heq, hgoes⟩ =>
    .pure ⟨congrArg (Prod.mk p.1) heq, hgoes⟩

end Arguments

/-! ## Assignments -/

theorem assignment_agrees (ha : ∀ c, Step.Respects (announce c)) {m : Machine} {a : Assignment}
    {slot : Nat} {o : Handle} {op : Op} (h : Mirrors s m.frame env)
    (hself : Encloses s m.frame (some slot) (some o))
    (hemit : emitAssignment globals (some slot) a s = .ok (op, s')) :
    Building.Agrees (fun m' p => m' = m ∧ Goes s s' m.frame m.frame p.2)
      (runOp announce registry builder m op)
      ((interpretAssignment announce globals o a).run env) := by
  obtain ⟨target, s₁, htarget, hrest⟩ := emit_bind hemit
  dsimp only at hrest
  split at hrest
  · cases hrest
  obtain ⟨code, s₂, hvalue, hrest⟩ := emit_bind hrest
  cases hrest
  obtain ⟨env₁, hrunTarget, hgoes₁⟩ := h.lowerTarget hself htarget
  obtain ⟨env₂, hrunValue, hgoes₂⟩ := hgoes₁.mirrors.lowerValue (hgoes₁.encloses hself) hvalue
  have hgoes := hgoes₁.trans hgoes₂
  simp only [interpretAssignment, StateT.run_bind, hrunTarget, hrunValue, pure_bind,
    Interpreting.run_building, Interpreting.run_step, bind_assoc]
  rw [targetObject_closed]
  refine Building.Agrees.bind_same (targetObject_respects ha m.frame target _) fun object => ?_
  refine (Building.Agrees.lift (applyOperator_agrees ha _ a.op code)).bind fun r _ heq => ?_
  subst heq
  cases r with
  | ok _ => exact .pure ⟨rfl, hgoes⟩
  | error cause => exact .throw _

/-! ## Opening constructs -/

section Writing

variable {γ δ : Type} {R : γ → δ → Prop} {n : Building δ}

/-- That a run writes a slot is seen in its frame only. -/
theorem write_agrees {m : Machine} {slot : Nat} {v : Value} {k : Machine → Building γ}
    (h : Building.Agrees R (k { m with frame := m.frame.set slot v }) n) :
    Building.Agrees R (ExceptT.lift (m.write slot v) >>= k) n :=
  fun w w' hw => h (w.setRun m.run (m.frame.set slot v).slots) w' hw

theorem writeAll_agrees {m : Machine} {slots : List (Nat × Value)} {k : Machine → Building γ}
    (h : Building.Agrees R (k { m with frame := m.frame.setAll slots }) n) :
    Building.Agrees R (ExceptT.lift (m.writeAll slots) >>= k) n := by
  induction slots generalizing m with
  | nil => exact h
  | cons p slots ih =>
      have hsplit : ExceptT.lift (m.writeAll (p :: slots)) >>= k =
          ExceptT.lift (m.write p.1 p.2) >>= fun m => ExceptT.lift (m.writeAll slots) >>= k := rfl
      rw [hsplit]
      exact write_agrees (ih h)

end Writing

/-- A machine with another frame, which has gone on with the names. -/
def Wrote (s s' : Scope) (m m' : Machine) (env' : Environment) : Prop :=
  ∃ frame, m' = { m with frame } ∧ Goes s s' m.frame frame env'

theorem captures_agree {m : Machine} {output : Output} {place : Location}
    {captures : List Capture} {slots : List (Nat × String)} (h : Mirrors s m.frame env)
    (hemit : (captures.mapM fun capture => do
      return (← Emit.bindExport capture.name, capture.attr) : Emit _) s = .ok (slots, s')) :
    Building.Agrees (fun m' p => Wrote s s' m m' p.2)
      (slots.foldlM (fun (m : Machine) (slot, attr) => do
        let v ← openConstruct.liftExcept (captured (← getThe World) output attr place)
        ExceptT.lift (m.write slot v)) m)
      ((interpretCaptures output place captures).run env) := by
  induction captures generalizing s m env slots with
  | nil =>
      cases hemit
      exact .pure ⟨m.frame, rfl, h.goes⟩
  | cons capture captures ih =>
      rw [List.mapM_cons] at hemit
      obtain ⟨p, s₁, hfirst, hemit⟩ := emit_bind hemit
      obtain ⟨slots', s₂, hrest, hemit⟩ := emit_bind hemit
      cases hemit
      cases hfirst
      simp only [interpretCaptures, StateT.run_bind, Interpreting.run_step,
        Interpreting.run_attempt, bind_assoc, pure_bind, List.foldlM_cons]
      refine Building.Agrees.get_bind fun w w' hw => ?_
      have hsame : captured w output capture.attr place = captured w' output capture.attr place := by
        simp only [captured, World.attr?_of_closed hw]
      rw [hsame]
      refine Building.Agrees.ofExcept_bind fun v _ => write_agrees ?_
      have hgoes := h.bindExport capture.name v
      refine (ih (m := { m with frame := m.frame.set s.slots v }) hgoes.mirrors hrest).imp
        fun m' p hwrote => ?_
      obtain ⟨frame, hm, hgoes'⟩ := hwrote
      exact ⟨frame, hm, hgoes.trans hgoes'⟩

theorem unpackValues_length {names : Nat} {instances : List Instance} {place : Location}
    {values : List Value} (h : unpackValues names instances place = .ok values) :
    values.length = names := by
  simp only [unpackValues] at h
  split at h
  · cases h
    rfl
  · cases h
    rfl
  · cases h
    rfl
  · split at h
    next heq =>
      cases h
      simp [heq]
    next => cases h

/-- A machine on which one more construct is open, the one of the instances `p.1`. -/
structure Opened (s s' : Scope) (slot : Nat) (m m' : Machine)
    (p : (Instance × List Instance) × Environment) : Prop where
  roots : m'.roots = m.roots
  stack : m'.stack = (p.1.1 :: p.1.2) :: m.stack
  goes : Goes s s' m.frame m'.frame p.2
  encloses : Encloses s' m'.frame (some slot) (some p.1.1.object)

/-- The factories of a registry cannot look into the code of bindings. -/
def Blind (registry : Registry) (builder : Factory → Builder) : Prop :=
  ∀ (typeName : String) (f : Factory), registry.lookup typeName = .ok f →
    ∀ call, Building.Respects (builder f call)

theorem head_agrees (ha : ∀ c, Step.Respects (announce c)) (hb : Blind registry builder) {m : Machine}
    {c : Construct} {b : Build} (h : Mirrors s m.frame env)
    (hself : Encloses s m.frame self object)
    (hemit : emitBuild globals self c s = .ok (b, s')) :
    Building.Agrees (Opened s s' b.selfSlot m) (openConstruct announce registry builder m b)
      ((interpretHead announce globals registry builder object c).run env) := by
  obtain ⟨args, s₁, hargs, hemit⟩ := emit_bind hemit
  obtain ⟨keywords, s₂, hkeywords, hemit⟩ := emit_bind hemit
  obtain ⟨selfSlot, s₃, hslot, hemit⟩ := emit_bind hemit
  obtain ⟨unpack, s₄, hunpack, hemit⟩ := emit_bind hemit
  obtain ⟨captures, s₅, hcaptures, hemit⟩ := emit_bind hemit
  cases hemit
  cases hslot
  simp only [openConstruct, interpretHead, StateT.run_bind, Interpreting.run_step,
    Interpreting.run_attempt, Interpreting.run_building, bind_assoc, pure_bind]
  have hpositional := positional_agrees ha h hself hargs
  refine hpositional.bind ?_
  rintro args ⟨args', env₁⟩ ⟨rfl, hgoes₁⟩
  have hnamed := keywords_agree ha hgoes₁.mirrors (hgoes₁.encloses hself) hkeywords
  refine hnamed.bind ?_
  rintro keywords ⟨keywords', env₂⟩ ⟨rfl, hgoes₂⟩
  refine Building.Agrees.ofExcept_bind fun factory hfactory => ?_
  refine Building.Agrees.bind_same (.lift (notice_respects _)) fun _ => ?_
  refine Building.Agrees.bind_same (hb _ _ hfactory _) fun output => ?_
  cases hinstances : output.instances with
  | nil => exact .throw _
  | cons first others =>
      -- The slot of the object comes before the slots of the names.
      have hgoes₃ := hgoes₂.mirrors.alloc (.object first.object)
      refine write_agrees ?_
      rw [emit_mapM_length hunpack]
      simp only [StateT.run_bind, Interpreting.run_attempt, StateT.run_modify, StateT.run_pure,
        bind_assoc, pure_bind]
      refine Building.Agrees.ofExcept_bind fun values hvalues => ?_
      refine writeAll_agrees ?_
      have hgoes₄ := hgoes₃.mirrors.bindExports (unpackValues_length hvalues) hunpack
      refine (captures_agree hgoes₄.mirrors hcaptures).bind ?_
      rintro m' p ⟨frame, rfl, hgoes₅⟩
      have hgoes := ((((hgoes₁.trans hgoes₂).trans hgoes₃).trans hgoes₄).trans hgoes₅)
      refine .pure ⟨rfl, rfl, hgoes, ?_⟩
      refine (hgoes₄.trans hgoes₅).encloses (.some ?_ (Frame.get_set_self ..))
      exact Nat.lt_succ_self _

/-! ## Registries

What a registry builds from components, defines and aliases is built alike in worlds that resemble
each other, if this is so for the procedures of the toolkit. -/

/-- The procedures of a registry cannot look into the code of bindings. -/
def Registry.Blind (registry : Registry) : Prop :=
  ∀ (typeName : String) (f : FactoryCall → Building Output) (keeps : List Value),
    registry.lookup typeName = .ok (.procedure f keeps) → ∀ call, Building.Respects (f call)

/-- A registry without procedures is one whose procedures cannot. -/
theorem Registry.blind_of_ne_procedure {registry : Registry}
    (h : ∀ f ∈ registry.factories.map (·.2), ∀ build keeps, f ≠ .procedure build keeps) :
    registry.Blind :=
  fun _ _ _ hlookup => absurd rfl (h _ (mem_of_lookup hlookup) _ _)

theorem Registry.Blind.build (ha : ∀ c, Step.Respects (announce c)) (h : registry.Blind)
    (depth : Nat) : Template.Blind registry (Factory.build announce registry depth) := by
  have hveiled : registry.Veiled .closing id := fun typeName f keeps hlookup call =>
    Building.agrees_iff.mp (h typeName f keeps hlookup call)
  intro typeName f hlookup call
  have hbuilt := Registry.Veiled.build (V := .closing) ha hveiled depth typeName f hlookup call
  exact Building.agrees_iff.mpr hbuilt

end LiveUI.Template
