import LiveUI.Proofs.World.VeiledSteps
import LiveUI.Template.View
import Mathlib.Data.List.Forall2

/-! # Runs behind a veil

A program is run alike in worlds that look the same behind a veil, and so is one with other places
as long as the labels of its bindings look the same. Errors agree but for what is left of places. -/

namespace LiveUI.Template

/-! ## Outcomes -/

/-- Related values, or errors that are the same to `same`. -/
inductive Concur {ε κ α β : Type} (same : ε → κ) (R : α → β → Prop) :
    Except ε α → Except ε β → Prop where
  | ok {a : α} {b : β} (h : R a b) : Concur same R (.ok a) (.ok b)
  | error {e e' : ε} (h : same e = same e') : Concur same R (.error e) (.error e')

namespace Concur

variable {ε κ α β : Type} {same : ε → κ} {R : α → β → Prop}

theorem imp {R' : α → β → Prop} {r : Except ε α} {r' : Except ε β} (h : Concur same R r r')
    (himp : ∀ a b, R a b → R' a b) : Concur same R' r r' := by
  cases h with
  | ok h => exact .ok (himp _ _ h)
  | error h => exact .error h

theorem bind {γ δ : Type} {S : γ → δ → Prop} {r : Except ε α} {r' : Except ε β}
    {f : α → Except ε γ} {f' : β → Except ε δ} (h : Concur same R r r')
    (hf : ∀ a b, R a b → Concur same S (f a) (f' b)) : Concur same S (r >>= f) (r' >>= f') := by
  cases h with
  | ok h => exact hf _ _ h
  | error h => exact .error h

theorem symm {r : Except ε α} {r' : Except ε β} (h : Concur same R r r') :
    Concur same (fun b a => R a b) r' r := by
  cases h with
  | ok h => exact .ok h
  | error h => exact .error h.symm

theorem trans {γ : Type} {S : β → γ → Prop} {r : Except ε α} {r' : Except ε β} {r'' : Except ε γ}
    (h : Concur same R r r') (h' : Concur same S r' r'') :
    Concur same (fun a c => ∃ b, R a b ∧ S b c) r r'' := by
  cases h with
  | ok h =>
      cases h' with
      | ok h' => exact .ok ⟨_, h, h'⟩
  | error h =>
      cases h' with
      | error h' => exact .error (h.trans h')

end Concur

/-- The error with another place. -/
def RuntimeError.replace (place : Location → Location) : RuntimeError → RuntimeError
  | eval cause p => .eval cause (p.map place)
  | unpack expected found p => .unpack expected found (place p)
  | capture attr p => .capture attr (place p)
  | target fault p => .target fault (place p)
  | e => e

theorem RuntimeError.replace_id (e : RuntimeError) : e.replace id = e := by
  cases e <;> simp [replace]

namespace Building

variable {α β γ δ : Type} {V : Veil} {place : Location → Location}

variable (V place) in
/-- From worlds that look the same, building comes to related results or fails alike. -/
def Concurs (R : α → β → Prop) (m : Building α) (m' : Building β) : Prop :=
  V.Agrees (Concur (RuntimeError.replace place) R) m.run m'.run

namespace Concurs

variable {R : α → β → Prop} {S : γ → δ → Prop}

theorem pure {a : α} {b : β} (h : R a b) : Concurs V place R (Pure.pure a) (Pure.pure b) :=
  Veil.Agrees.pure (.ok h)

theorem throw {e e' : RuntimeError} (h : e.replace place = e'.replace place) :
    Concurs V place R (MonadExcept.throw e : Building α) (MonadExcept.throw e' : Building β) :=
  Veil.Agrees.pure (.error h)

theorem bind {m : Building α} {m' : Building β} {f : α → Building γ} {f' : β → Building δ}
    (hm : Concurs V place R m m') (hf : ∀ a b, R a b → Concurs V place S (f a) (f' b)) :
    Concurs V place S (m >>= f) (m' >>= f') := by
  refine Veil.Agrees.bind hm fun r r' hr => ?_
  cases hr with
  | ok h => exact hf _ _ h
  | error h => exact Veil.Agrees.pure (.error h)

theorem bind_eq {m : Building α} {m' : Building α} {f : α → Building γ} {f' : α → Building δ}
    (hm : Concurs V place Eq m m') (hf : ∀ a, Concurs V place S (f a) (f' a)) :
    Concurs V place S (m >>= f) (m' >>= f') :=
  hm.bind fun a _ hab => hab ▸ hf a

theorem lift {m : Step α} {m' : Step β} (h : V.Agrees R m m') :
    Concurs V place R (ExceptT.lift m) (ExceptT.lift m') :=
  Veil.Agrees.bind h fun _ _ hab => Veil.Agrees.pure (.ok hab)

theorem ofExcept {r : Except RuntimeError α} {r' : Except RuntimeError β}
    (h : Concur (RuntimeError.replace place) R r r') :
    Concurs V place R (ExceptT.mk (Pure.pure r)) (ExceptT.mk (Pure.pure r')) :=
  Veil.Agrees.pure h

theorem ofExcept_bind {r : Except RuntimeError α} {f : α → Building γ} {f' : α → Building δ}
    (hf : ∀ a, r = .ok a → Concurs V place S (f a) (f' a)) :
    Concurs V place S (ExceptT.mk (Pure.pure r) >>= f) (ExceptT.mk (Pure.pure r) >>= f') := by
  cases r with
  | ok a => exact hf a rfl
  | error e => exact throw rfl

theorem get_bind {f : World → Building γ} {f' : World → Building δ}
    (hf : ∀ w w' : World, V.world w = V.world w' → Concurs V place S (f w) (f' w')) :
    Concurs V place S (getThe World >>= f) (getThe World >>= f') :=
  fun w w' hw => hf w w' hw w w' hw

theorem mapM_eq {f f' : α → Building γ} (h : ∀ a, Concurs V place Eq (f a) (f' a)) (as : List α) :
    Concurs V place Eq (as.mapM f) (as.mapM f') := by
  induction as with
  | nil => exact .pure rfl
  | cons a as ih =>
      rw [List.mapM_cons, List.mapM_cons]
      exact (h a).bind_eq fun b => ih.bind_eq fun bs => .pure rfl

theorem foldlM {f : α → γ → Building α} {f' : β → δ → Building β} {Q : γ → δ → Prop}
    (hf : ∀ a b c d, R a b → Q c d → Concurs V place R (f a c) (f' b d))
    {cs : List γ} {ds : List δ} (h : List.Forall₂ Q cs ds) {a : α} {b : β} (hab : R a b) :
    Concurs V place R (cs.foldlM f a) (ds.foldlM f' b) := by
  induction h generalizing a b with
  | nil => exact .pure hab
  | cons hcd _ ih =>
      rw [List.foldlM_cons, List.foldlM_cons]
      exact (hf _ _ _ _ hab hcd).bind fun _ _ hab => ih hab

end Concurs

end Building

open Building

/-! ## Statements -/

section Statements

variable {V : Veil} {place : Location → Location} {announce : Announce}
  (ha : ∀ c, V.Respects (announce c))

include ha

theorem evalAt_concurs (frame : Frame) {p p' : Location} (hp : place p = place p') (code : Code) :
    Concurs V place Eq (evalAt announce frame p code) (evalAt announce frame p' code) := by
  refine Concurs.bind_eq (.lift (Veil.value_respects (Veil.applyFunc_respects ha) _ _))
    fun result => ?_
  cases result with
  | ok v => exact .pure rfl
  | error e => exact .throw (by simp [RuntimeError.replace, hp])

theorem targetObject_concurs (frame : Frame) (t : TargetCode) {p p' : Location}
    (hp : place p = place p') :
    Concurs V place Eq (targetObject announce frame t p) (targetObject announce frame t p') := by
  refine (evalAt_concurs ha frame hp t.base).bind_eq fun base => ?_
  simp only [pure_bind]
  split
  · split
    · exact .pure rfl
    · exact .throw (by simp [RuntimeError.replace, hp])
  · split
    · split
      · exact .pure rfl
      · exact .throw (by simp [RuntimeError.replace, hp])
    · exact .throw (by simp [RuntimeError.replace, hp])
  · exact .throw (by simp [RuntimeError.replace, hp])

theorem applyOperator_veiled {site site' : Site} {op : Markup.Operator} {code code' : Code}
    (h : ∀ kind, (op = .delegate ↔ kind = .delegate) → V.SitesAlike kind site site' code code') :
    V.Agrees Eq (applyOperator announce site op code) (applyOperator announce site' op code') := by
  cases op with
  | default =>
      exact (Veil.assign_agrees ha (h .bind (by simp))).bind fun _ _ heq => .pure (heq ▸ rfl)
  | bind => exact (Veil.bind_agrees ha (h .bind (by simp))).bind fun _ _ heq => .pure (heq ▸ rfl)
  | delegate =>
      exact (Veil.delegate_agrees ha (h .delegate (by simp))).bind fun _ _ heq => .pure (heq ▸ rfl)
  | notify => exact (Veil.notify_agrees (h .notify (by simp))).bind fun _ _ heq => .pure (heq ▸ rfl)

end Statements

/-! ## Machines -/

/-- Machines that differ in the number of the run at most, where runs are not kept. -/
structure Machine.Likened (V : Veil) (m m' : Machine) : Prop where
  run : V.keepsRuns → m.run = m'.run
  frame : m.frame = m'.frame
  stack : m.stack = m'.stack
  roots : m.roots = m'.roots

section Machines

variable {V : Veil} {place : Location → Location} {m m' : Machine}

theorem write_concurs (slot : Nat) (v : Value) (h : m.Likened V m') :
    Concurs V place (Machine.Likened V) (ExceptT.lift (m.write slot v))
      (ExceptT.lift (m'.write slot v)) := by
  refine .lift fun w w' hw => .some ⟨⟨h.run, by rw [h.frame], h.stack, h.roots⟩, ?_⟩
  rw [h.frame]
  exact Veil.world_setRun hw h.run _

theorem writeAll_concurs (slots : List (Nat × Value)) (h : m.Likened V m') :
    Concurs V place (Machine.Likened V) (ExceptT.lift (m.writeAll slots))
      (ExceptT.lift (m'.writeAll slots)) := by
  have hlift (m : Machine) : (ExceptT.lift (m.writeAll slots) : Building Machine) =
      slots.foldlM (fun m p => ExceptT.lift (m.write p.1 p.2)) m := by
    induction slots generalizing m with
    | nil => rfl
    | cons p slots ih =>
        rw [List.foldlM_cons]
        refine Eq.trans ?_ (congrArg _ (funext fun m => ih m))
        rfl
  rw [hlift, hlift]
  exact .foldlM (fun _ _ _ _ h heq => heq ▸ write_concurs _ _ h) (List.forall₂_same.mpr fun _ _ => rfl) h

theorem unpackValues_concurs (names : Nat) (instances : List Instance) {p p' : Location}
    (hp : place p = place p') :
    Concur (RuntimeError.replace place) Eq (unpackValues names instances p)
      (unpackValues names instances p') := by
  simp only [unpackValues]
  split
  · exact .ok rfl
  · exact .ok rfl
  · exact .ok rfl
  · split
    · exact .ok rfl
    · exact .error (by simp [RuntimeError.replace, hp])

theorem captured_concurs {w w' : World} (hw : V.world w = V.world w') (output : Output)
    (attr : String) {p p' : Location} (hp : place p = place p') :
    Concur (RuntimeError.replace place) Eq (captured w output attr p)
      (captured w' output attr p') := by
  simp only [captured, Veil.attr?_eq hw]
  split
  · exact .ok rfl
  · split
    · split
      · exact .ok rfl
      · exact .error (by simp [RuntimeError.replace, hp])
    · exact .error (by simp [RuntimeError.replace, hp])

/-- Operations that differ in their places. What is left of the places is the same, and of the labels
of the bindings that they make. -/
inductive Op.Likened (V : Veil) (place : Location → Location) : Op → Op → Prop where
  | build (b : Build) {p' : Location} (hp : place b.place = place p') :
      Likened V place (.build b) (.build { b with place := p' })
  | assign (target : TargetCode) (op : Markup.Operator) (value : Code) {p p' : Location}
      (hp : place p = place p')
      (hlabel : ∀ kind, (op = .delegate ↔ kind = .delegate) →
        V.label kind value p.line = V.label kind value p'.line) :
      Likened V place (.assign target op value p) (.assign target op value p')
  | close : Likened V place .close .close

theorem Op.Likened.refl (op : Op) : op.Likened V place op := by
  cases op with
  | build b => exact .build b rfl
  | assign target op value p => exact .assign target op value rfl fun _ _ => rfl
  | close => exact .close

theorem addChildren_veiled (parent : Handle) (children : List Instance) :
    V.Respects (children.forM fun child => modify (·.addChild parent child.object)) := by
  induction children with
  | nil => exact .pure rfl
  | cons child children ih => exact Veil.Agrees.bind_same (.of_modify fun _ => rfl) fun _ => ih

theorem closeConstruct_concurs (h : m.Likened V m') :
    V.Agrees (Machine.Likened V) (closeConstruct m) (closeConstruct m') := by
  simp only [closeConstruct, h.stack]
  split
  · exact .pure h
  · exact .pure ⟨h.run, h.frame, rfl, congrArg (· ++ _) h.roots⟩
  · exact .pure ⟨h.run, h.frame, rfl, congrArg (· ++ _) h.roots⟩
  next done parent _ _ _ =>
    exact (addChildren_veiled parent.object done).bind_same fun _ =>
      .pure ⟨h.run, h.frame, rfl, h.roots⟩

end Machines

/-! ## Runs -/

section Runs

variable {V : Veil} {place : Location → Location} {announce : Announce} {registry : Registry}
  {builder : Factory → Builder} {m m' : Machine}

variable (V place) in
/-- The builder does not see through the veil where the registry leads to it. -/
def Veiled (registry : Registry) (builder : Factory → Builder) : Prop :=
  ∀ typeName f, registry.lookup typeName = .ok f → ∀ call,
    Concurs V place Eq (builder f call) (builder f call)

variable (ha : ∀ c, V.Respects (announce c)) (hb : Veiled V place registry builder)

include ha hb

theorem openConstruct_concurs (b : Build) {p' : Location} (hp : place b.place = place p')
    (h : m.Likened V m') :
    Concurs V place (Machine.Likened V) (openConstruct announce registry builder m b)
      (openConstruct announce registry builder m' { b with place := p' }) := by
  simp only [openConstruct, h.frame]
  refine (Concurs.mapM_eq (evalAt_concurs ha _ hp) b.args).bind_eq fun args => ?_
  refine (Concurs.mapM_eq (fun q => (evalAt_concurs ha _ hp _).bind_eq fun v => .pure rfl)
    b.keywords).bind_eq fun keywords => ?_
  refine Concurs.ofExcept_bind fun factory hfactory => ?_
  refine Concurs.bind_eq (.lift (Veil.notice_respects _)) fun _ => ?_
  refine Concurs.bind_eq (hb _ _ hfactory _) fun output => ?_
  cases hinstances : output.instances with
  | nil => exact .throw rfl
  | cons first others =>
      refine (write_concurs b.selfSlot _ h).bind fun m₁ m₁' h₁ => ?_
      refine Concurs.bind_eq (.ofExcept (unpackValues_concurs _ _ hp)) fun values => ?_
      refine (writeAll_concurs _ h₁).bind fun m₂ m₂' h₂ => ?_
      refine Concurs.bind (Concurs.foldlM (fun m m' capture _ h heq => ?_)
        (List.forall₂_same.mpr fun _ _ => rfl) h₂) fun m₃ m₃' h₃ => ?_
      · subst heq
        refine Concurs.get_bind fun w w' hw => ?_
        refine Concurs.bind_eq (.ofExcept (captured_concurs hw output capture.2 hp)) fun v => ?_
        exact write_concurs capture.1 v h
      · exact .pure ⟨h₃.run, h₃.frame, congrArg (List.cons _) h₃.stack, h₃.roots⟩

theorem runOp_concurs {op op' : Op} (hop : op.Likened V place op') (h : m.Likened V m') :
    Concurs V place (Machine.Likened V) (runOp announce registry builder m op)
      (runOp announce registry builder m' op') := by
  cases hop with
  | build b hp => exact openConstruct_concurs ha hb b hp h
  | @assign target op value p p' hp hlabel =>
      simp only [runOp, h.frame]
      refine (targetObject_concurs ha _ target hp).bind_eq fun o => ?_
      refine Concurs.bind_eq (.lift (applyOperator_veiled ha fun kind hkind =>
        ⟨rfl, rfl, rfl, rfl, fun hkeeps => congrArg some (h.run hkeeps), hlabel kind hkind⟩))
        fun r => ?_
      cases r with
      | ok _ => exact .pure h
      | error cause => exact .throw (by simp [RuntimeError.replace, hp])
  | close => exact .lift (closeConstruct_concurs h)

theorem Program.run_concurs {p p' : Program}
    (hops : List.Forall₂ (Op.Likened V place) p.ops p'.ops) (hexports : p.exports = p'.exports)
    (frame : Frame) :
    Concurs V place Eq (p.run announce registry builder frame)
      (p'.run announce registry builder frame) := by
  intro w w' hw
  have hstart : Machine.Likened V { run := w.nextRun, frame } { run := w'.nextRun, frame } :=
    ⟨Veil.nextRun_eq hw, rfl, rfl, rfl⟩
  have hrun : Concurs V place Eq
      (p.ops.foldlM (runOp announce registry builder) { run := w.nextRun, frame } >>= fun m =>
        pure (⟨m.roots, p.exports.map fun q => (q.1, m.frame.get q.2)⟩ : Built))
      (p'.ops.foldlM (runOp announce registry builder) { run := w'.nextRun, frame } >>= fun m =>
        pure (⟨m.roots, p'.exports.map fun q => (q.1, m.frame.get q.2)⟩ : Built)) := by
    refine (Concurs.foldlM (Q := Op.Likened V place)
      (fun _ _ _ _ h hop => runOp_concurs ha hb hop h) hops hstart).bind fun m m' h => .pure ?_
    rw [h.roots, h.frame, hexports]
  exact hrun (w.beginRun frame.slots).2 (w'.beginRun frame.slots).2 (Veil.world_beginRun hw _)

theorem instantiate_concurs {d d' : CompiledDefine} (hname : d.name = d'.name)
    (hparams : d.params = d'.params)
    (hops : List.Forall₂ (Op.Likened V place) d.program.ops d'.program.ops)
    (hslots : d.program.slots = d'.program.slots) (hexports : d.program.exports = d'.program.exports)
    (args : List Value) (keywords : List (String × Value)) :
    Concurs V place Eq (d.instantiate announce registry builder args keywords)
      (d'.instantiate announce registry builder args keywords) := by
  simp only [CompiledDefine.instantiate, hname, hparams, hslots]
  cases bindArguments d'.params args keywords with
  | error fault => exact .throw rfl
  | ok values => exact Program.run_concurs ha hb hops hexports _

end Runs

/-! ## Registries -/

theorem Registry.mem_of_lookup {registry : Registry} {typeName : String} {f : Factory}
    (h : registry.lookup typeName = .ok f) : f ∈ registry.factories.map (·.2) := by
  simp only [lookup, factory?] at h
  cases hfind : registry.factories.find? (·.1 == typeName) with
  | none => simp [hfind] at h
  | some p =>
      obtain rfl := by simpa [hfind] using h
      exact List.mem_map_of_mem (List.mem_of_find?_eq_some hfind)

section Registries

variable {V : Veil} {place : Location → Location} {announce : Announce} {registry : Registry}
  (ha : ∀ c, V.Respects (announce c))

include ha

theorem Component.build_concurs (c : Component) (call : FactoryCall) :
    Concurs V place Eq (c.build announce call) (c.build announce call) := by
  simp only [Component.build]
  split
  · exact .throw rfl
  · have hcreate : Concurs V place Eq (modifyGetThe World (·.create call.typeName c.defaults))
        (modifyGetThe World (·.create call.typeName c.defaults)) :=
      .lift (m := modifyGet (·.create call.typeName c.defaults)) (.of_modifyGet fun _ => rfl)
    refine hcreate.bind_eq fun o => Concurs.bind_eq ?_ fun _ => .pure rfl
    induction c.positional.zip call.args ++ call.keywords with
    | nil => exact .pure rfl
    | cons p rest ih =>
        rw [List.forIn_cons, bind_assoc]
        exact Concurs.bind_eq (.lift (Veil.setAttr_respects ha o p.1 p.2)) fun _ => ih

omit ha in
variable (V place registry) in
/-- The procedures of the registry do not see through the veil. -/
def Registry.Veiled : Prop :=
  ∀ (typeName : String) (f : FactoryCall → Building Output) (keeps : List Value),
    registry.lookup typeName = .ok (.procedure f keeps) → ∀ call, Concurs V place Eq (f call) (f call)

theorem Registry.Veiled.build (h : registry.Veiled V place) (depth : Nat) :
    Template.Veiled V place registry (Factory.build announce registry depth) := by
  induction depth with
  | zero => exact fun _ _ _ _ => .lift .failure
  | succ depth ih =>
      intro typeName f hlookup call
      cases f with
      | component c => exact Component.build_concurs ha c call
      | define d =>
          refine (instantiate_concurs ha ih rfl rfl ?_ rfl rfl _ _).bind_eq fun built => .pure rfl
          exact List.forall₂_same.mpr fun op _ => .refl op
      | «alias» typeName =>
          simp only [Factory.build]
          cases hother : registry.lookup typeName with
          | error e => exact .throw rfl
          | ok f => exact ih _ _ hother call
      | procedure f keeps => exact h _ _ _ hlookup call

/-! ## Views -/

theorem runLifecycle_veiled (roots : List Instance) :
    V.Respects (runLifecycle announce roots) := by
  have hforM {α : Type} {f : α → Step Unit} (hf : ∀ a, V.Respects (f a)) (as : List α) :
      V.Respects (as.forM f) := by
    induction as with
    | nil => exact .pure rfl
    | cons a as ih => exact (hf a).bind_same fun _ => ih
  refine hforM (fun phase => ?_) _
  refine Veil.Agrees.bind_same (hforM (fun _ => ?_) _) fun _ =>
    Veil.notice_respects _
  refine Veil.Agrees.bind_same (.of_modify fun _ => rfl) fun _ => ?_
  refine Veil.Agrees.bind_same (.log _) fun _ => ?_
  exact (Veil.run_respects ha _).bind_same fun _ => .pure rfl

theorem finish_concurs (b : Built) :
    Concurs V place Eq (b.finish announce) (b.finish announce) :=
  Concurs.bind_eq (.lift (runLifecycle_veiled ha b.roots)) fun _ => .pure rfl

end Registries

end LiveUI.Template
