import LiveUI.Template.Compiler
import LiveUI.Proofs.Markup.Bare
import LiveUI.Proofs.Template.Layout
import LiveUI.Proofs.Template.VeiledRuns

/-! # Compiling without places and exact texts

Two templates that are the same when bare compile to programs that differ in the places of their
operations only, or fail alike. The places and the texts are carried along and not looked at. -/

namespace LiveUI.Template

open Markup

/-! ## Without places -/

def Location.none : Location :=
  ⟨{}, ""⟩

def CompileError.unplaced : CompileError → CompileError
  | unknownName name _ => .unknownName name .none
  | delegate _ => .delegate .none
  | e => e

def Op.unplaced : Op → Op
  | build b => .build { b with place := .none }
  | assign target op value _ => .assign target op value .none
  | close => .close

def Program.unplaced (p : Program) : Program :=
  { p with ops := p.ops.map (·.unplaced) }

def CompiledDefine.unplaced (d : CompiledDefine) : CompiledDefine :=
  { d with program := d.program.unplaced }

def CompiledConstruct.unplaced (c : CompiledConstruct) : CompiledConstruct :=
  ⟨c.program.unplaced⟩

/-- Operations that differ in their places. A delegate fails with its text where it is given no path,
so without one the texts are the same. -/
inductive Op.Alike : Op → Op → Prop where
  | build (b : Build) (place' : Location) : Alike (.build b) (.build { b with place := place' })
  | assign (target : TargetCode) (op : Operator) (value : Code) {place place' : Location}
      (h : op = .delegate → value.attrPath? = none → place.line = place'.line) :
      Alike (.assign target op value place) (.assign target op value place')
  | close : Alike .close .close

theorem Op.Alike.refl (op : Op) : op.Alike op := by
  cases op with
  | build b => exact .build b b.place
  | assign target op value place => exact .assign target op value fun _ _ => rfl
  | close => exact .close

theorem Op.Alike.symm {op op' : Op} (h : op.Alike op') : op'.Alike op := by
  cases h with
  | build b place' => exact .build { b with place := place' } b.place
  | assign target op value h =>
      exact .assign target op value fun hop hnone => (h hop hnone).symm
  | close => exact .close

theorem Op.Alike.trans {op op' op'' : Op} (h : op.Alike op') (h' : op'.Alike op'') :
    op.Alike op'' := by
  cases h with
  | build b place' =>
      cases h' with
      | build _ place'' => exact .build b place''
  | assign target op value h =>
      cases h' with
      | assign _ _ _ h' =>
          exact .assign target op value fun hop hnone => (h hop hnone).trans (h' hop hnone)
  | close => exact h'

theorem Op.Alike.unplaced_eq {op op' : Op} (h : op.Alike op') : op.unplaced = op'.unplaced := by
  cases h <;> rfl

structure Program.Alike (p p' : Program) : Prop where
  ops : List.Forall₂ Op.Alike p.ops p'.ops
  slots : p.slots = p'.slots
  exports : p.exports = p'.exports

namespace Program.Alike

variable {p p' p'' : Program}

theorem refl (p : Program) : p.Alike p :=
  ⟨List.forall₂_same.mpr fun op _ => .refl op, rfl, rfl⟩

theorem symm (h : p.Alike p') : p'.Alike p :=
  ⟨(h.ops.imp fun _ _ hop => hop.symm).flip, h.slots.symm, h.exports.symm⟩

theorem trans (h : p.Alike p') (h' : p'.Alike p'') : p.Alike p'' := by
  refine ⟨?_, h.slots.trans h'.slots, h.exports.trans h'.exports⟩
  obtain ⟨hops, -, -⟩ := h
  obtain ⟨hops', -, -⟩ := h'
  generalize p.ops = ops, p'.ops = ops', p''.ops = ops'' at hops hops'
  induction hops generalizing ops'' with
  | nil => exact hops'
  | cons h _ ih =>
      cases hops' with
      | cons h' hrest => exact .cons (h.trans h') (ih _ hrest)

theorem unplaced_eq (h : p.Alike p') : p.unplaced = p'.unplaced := by
  have hops : p.ops.map (·.unplaced) = p'.ops.map (·.unplaced) :=
    List.forall₂_eq_eq_eq ▸ List.forall₂_map_left_iff.mpr
      (List.forall₂_map_right_iff.mpr (h.ops.imp fun _ _ h => h.unplaced_eq))
  simp only [unplaced, hops, h.slots, h.exports]

end Program.Alike

/-! ## Emission -/

namespace Emit

variable {α β γ δ : Type} {R : α → β → Prop} {S : γ → δ → Prop}

/-- From any scope both come to related results and to the same scope, or fail alike. -/
def Concurs (R : α → β → Prop) (m : Emit α) (m' : Emit β) : Prop :=
  ∀ s, Concur CompileError.unplaced (fun p q => R p.1 q.1 ∧ p.2 = q.2) (m s) (m' s)

namespace Concurs

theorem pure {a : α} {b : β} (h : R a b) : Concurs R (Pure.pure a) (Pure.pure b) :=
  fun _ => .ok ⟨h, rfl⟩

theorem refl (m : Emit α) : Concurs Eq m m := by
  intro s
  cases m s with
  | ok p => exact .ok ⟨rfl, rfl⟩
  | error e => exact .error rfl

theorem throw {e e' : CompileError} (h : e.unplaced = e'.unplaced) :
    Concurs R (MonadExcept.throw e : Emit α) (MonadExcept.throw e' : Emit β) :=
  fun _ => .error h

theorem bind {m : Emit α} {m' : Emit β} {f : α → Emit γ} {f' : β → Emit δ} (hm : Concurs R m m')
    (hf : ∀ a b, R a b → Concurs S (f a) (f' b)) : Concurs S (m >>= f) (m' >>= f') := by
  intro s
  refine (hm s).bind fun p q h => ?_
  obtain ⟨a, t⟩ := p
  obtain ⟨b, t'⟩ := q
  obtain ⟨hab, rfl⟩ := h
  exact hf a b hab t

theorem get_bind {f f' : Scope → Emit γ} {S : γ → γ → Prop} (hf : ∀ s, Concurs S (f s) (f' s)) :
    Concurs S (get >>= f) (get >>= f') :=
  fun s => hf s s

theorem throw_bind {e e' : CompileError} (h : e.unplaced = e'.unplaced) {f : α → Emit γ}
    {f' : β → Emit δ} : Concurs S (MonadExcept.throw e >>= f) (MonadExcept.throw e' >>= f') :=
  fun _ => .error h

theorem ite {c c' : Prop} [Decidable c] [Decidable c'] (hc : c ↔ c') {m n : Emit α}
    {m' n' : Emit β} (hm : c → Concurs R m m') (hn : ¬ c → Concurs R n n') :
    Concurs R (if c then m else n) (if c' then m' else n') := by
  by_cases h : c
  · rw [if_pos h, if_pos (hc.mp h)]
    exact hm h
  · rw [if_neg h, if_neg (mt hc.mpr h)]
    exact hn h

theorem imp {R' : α → β → Prop} {m : Emit α} {m' : Emit β} (h : Concurs R m m')
    (himp : ∀ a b, R a b → R' a b) : Concurs R' m m' :=
  fun s => (h s).imp fun _ _ hpq => ⟨himp _ _ hpq.1, hpq.2⟩

theorem mapM_map {f : α → Emit γ} {f' : β → Emit δ} {g : α → β}
    (h : ∀ a, Concurs S (f a) (f' (g a))) (as : List α) :
    Concurs (List.Forall₂ S) (as.mapM f) ((as.map g).mapM f') := by
  induction as with
  | nil => exact .pure .nil
  | cons a as ih =>
      rw [List.map_cons, List.mapM_cons, List.mapM_cons]
      exact (h a).bind fun _ _ hab => ih.bind fun _ _ hrest => .pure (.cons hab hrest)

theorem mapM_map_eq {f : α → Emit γ} {f' : β → Emit γ} {g : α → β}
    (h : ∀ a, Concurs Eq (f a) (f' (g a))) (as : List α) :
    Concurs Eq (as.mapM f) ((as.map g).mapM f') :=
  (mapM_map h as).imp fun _ _ heq => List.forall₂_eq_eq_eq ▸ heq

end Concurs

theorem resolved_concurs (place place' : Location) (lowering : Lowering Code) :
    Concurs Eq (resolved place lowering) (resolved place' lowering) := by
  intro s
  rw [resolved_run, resolved_run]
  cases lowering.run s.functions with
  | ok p => exact .ok ⟨rfl, rfl⟩
  | error name => exact .error rfl

end Emit

section Emission

variable {globals : Globals} {self : Option Nat} {place place' : Location}

open Emit

theorem lowerValue_concurs (notify : Bool) {e e' : Expression} (h : e.expr = e'.expr) :
    Emit.Concurs Eq (lowerValue globals self notify place e) (lowerValue globals self notify place' e') := by
  refine .get_bind fun s => ?_
  rw [h]
  exact resolved_concurs _ _ _

/-- The code of an attribute path is one. -/
theorem lowerValue_concurs_path (notify : Bool) {e e' : Expression} (h : e.expr = e'.expr)
    (hpath : isAttrPath e.expr) :
    Emit.Concurs (fun c c' => c = c' ∧ c.attrPath? ≠ none) (lowerValue globals self notify place e)
      (lowerValue globals self notify place' e') := by
  intro s
  have hlower : Emit.Concurs Eq (lowerValue globals self notify place e)
    (lowerValue globals self notify place' e') := lowerValue_concurs notify h
  have hrel := hlower s
  generalize hrun : lowerValue globals self notify place e s = r at hrel ⊢
  generalize lowerValue globals self notify place' e' s = r' at hrel ⊢
  cases hrel with
  | error h => exact .error h
  | @ok p q h =>
      obtain ⟨base, attr, hcode⟩ := lowerValue_path hpath hrun
      exact .ok ⟨⟨h.1, by simp [hcode, Code.attrPath?]⟩, h.2⟩

theorem lowerTarget_concurs (t : Target) :
    Emit.Concurs Eq (lowerTarget globals self place t) (lowerTarget globals self place' t) := by
  refine .get_bind fun s => ?_
  cases t with
  | own attr =>
      cases self with
      | some slot => exact .refl _
      | none => exact .throw rfl
  | member name attr => exact (resolved_concurs _ _ _).bind fun _ _ h => .pure (h ▸ rfl)
  | element name index attr => exact (resolved_concurs _ _ _).bind fun _ _ h => .pure (h ▸ rfl)

theorem emitAssignment_bare (a : Assignment) :
    Emit.Concurs Op.Alike (emitAssignment globals self a) (emitAssignment globals self a.bare) := by
  refine (lowerTarget_concurs a.target).bind fun target _ heq => ?_
  subst heq
  refine .ite (c := a.op = .delegate ∧ ¬ isAttrPath a.value.expr) Iff.rfl
    (fun _ => .throw_bind ?_) fun hgood => ?_
  · rfl
  by_cases hop : a.op = .delegate
  · have hattr : isAttrPath a.value.expr := by simpa [hop] using hgood
    refine (lowerValue_concurs_path _ rfl hattr).bind fun value _ hvalue => ?_
    obtain ⟨rfl, hsome⟩ := hvalue
    exact .pure (.assign target a.op value fun _ hnone => absurd hnone hsome)
  · refine (lowerValue_concurs _ rfl).bind fun value _ heq => ?_
    subst heq
    exact .pure (.assign target a.op value fun hdelegate => absurd hdelegate hop)

variable (globals self) in
theorem emitBuild_bare (c : Construct) :
    Emit.Concurs (fun b b' => Op.Alike (.build b) (.build b')) (emitBuild globals self c)
      (emitBuild globals self c.bare) := by
  simp only [emitBuild, Construct.positional_bare, Construct.keywords_bare]
  have hargs (place place' : Location) :
      Emit.Concurs Eq (c.positional.mapM (lowerValue globals self false place))
        ((c.positional.map (·.bare)).mapM (lowerValue globals self false place')) := by
    refine .mapM_map_eq (fun e => ?_) _
    exact lowerValue_concurs false rfl
  refine (hargs _ _).bind fun args _ heq => ?_
  subst heq
  refine (Emit.Concurs.mapM_map_eq (fun p : String × Expression => ?_) _).bind
    fun keywords _ heq => ?_
  · exact (lowerValue_concurs false rfl).bind fun code _ heq => .pure (heq ▸ rfl)
  subst heq
  obtain ⟨typeName, arguments, unpack, captures, body, pos⟩ := c
  rw [Construct.bare]
  refine (Emit.Concurs.refl _).bind fun selfSlot _ heq => ?_
  subst heq
  refine (Emit.Concurs.refl _).bind fun unpack _ heq => ?_
  subst heq
  refine (Emit.Concurs.refl _).bind fun captures _ heq => ?_
  subst heq
  exact .pure (.build ⟨typeName, args, keywords, selfSlot, unpack, captures, _⟩ _)

variable (globals)

mutual

theorem emitConstruct_bare (self : Option Nat) : ∀ c : Construct,
    Emit.Concurs (List.Forall₂ Op.Alike) (emitConstruct globals self c)
      (emitConstruct globals self c.bare)
  | ⟨typeName, arguments, unpack, captures, body, pos⟩ => by
      rw [Construct.bare, emitConstruct, emitConstruct]
      have hbuild := emitBuild_bare globals self
        ⟨typeName, arguments, unpack, captures, [], pos⟩
      rw [Construct.bare, Construct.bareBody] at hbuild
      refine hbuild.bind fun b b' hb => ?_
      have hslot : b.selfSlot = b'.selfSlot := by
        cases hb
        rfl
      rw [← hslot]
      refine (emitBody_bare b.selfSlot body).bind fun inner inner' hinner => .pure ?_
      exact .cons hb (List.rel_append hinner (.cons .close .nil))

theorem emitBody_bare (slot : Nat) : ∀ items : List (BodyItem Construct),
    Emit.Concurs (List.Forall₂ Op.Alike) (emitBody globals slot items)
      (emitBody globals slot (Construct.bareBody items))
  | [] => by
      rw [Construct.bareBody, emitBody]
      exact .pure .nil
  | item :: items => by
      rw [Construct.bareBody, emitBody, emitBody]
      refine (emitItem_bare slot item).bind fun ops ops' hops => ?_
      exact (emitBody_bare slot items).bind fun _ _ hrest => .pure (List.rel_append hops hrest)

theorem emitItem_bare (slot : Nat) : ∀ item : BodyItem Construct,
    Emit.Concurs (List.Forall₂ Op.Alike) (emitItem globals slot item)
      (emitItem globals slot (Construct.bareItem item))
  | .assignment a => by
      rw [Construct.bareItem, emitItem, emitItem]
      exact (emitAssignment_bare a).bind fun _ _ hop => .pure (.cons hop .nil)
  | .child c => by
      rw [Construct.bareItem, emitItem, emitItem]
      exact emitConstruct_bare (some slot) c

end

theorem emitProgram_bare (params : List String) (body : List Construct) (functions : Nat) :
    Concur CompileError.unplaced (fun p q => p.1.Alike q.1 ∧ p.2 = q.2)
      (emitProgram globals params body functions)
      (emitProgram globals params (body.map (·.bare)) functions) := by
  have hemit := ((Emit.Concurs.refl (forIn params PUnit.unit fun name _ => do
    modify fun s => (s.bindLocal name).2
    pure (ForInStep.yield PUnit.unit))).bind fun _ _ _ =>
      (Emit.Concurs.mapM_map (emitConstruct_bare globals none) body).bind
        fun _ _ hparts => .pure (List.rel_flatten hparts)) { functions }
  refine hemit.bind fun p q h => ?_
  obtain ⟨ops, s⟩ := p
  obtain ⟨ops', s'⟩ := q
  obtain ⟨hops, rfl⟩ := h
  exact .ok ⟨⟨hops, rfl, rfl⟩, rfl⟩

/-- Bodies that are the same when bare compile to programs that differ in places. -/
theorem emitProgram_alike {body body' : List Construct} (h : body.map (·.bare) = body'.map (·.bare))
    (params : List String) (functions : Nat) :
    Concur CompileError.unplaced (fun p q => p.1.Alike q.1 ∧ p.2 = q.2)
      (emitProgram globals params body functions)
      (emitProgram globals params body' functions) := by
  have hbare := (emitProgram_bare globals params body' functions).symm
  rw [← h] at hbare
  refine ((emitProgram_bare globals params body functions).trans hbare).imp ?_
  rintro p q ⟨r, ⟨hpr, hfunctions⟩, hqr, hfunctions'⟩
  exact ⟨hpr.trans hqr.symm, hfunctions.trans hfunctions'.symm⟩

end Emission

/-! ## Compiling -/

namespace Compiling

variable {α β γ δ : Type} {R : α → β → Prop} {S : γ → δ → Prop}

/-- From any world both come to related results and to the same world, or fail alike, or both nest
announcements too deep. -/
def Concurs (R : α → β → Prop) (m : Compiling α) (m' : Compiling β) : Prop :=
  ∀ w, Option.Rel (fun p q => Concur CompileError.unplaced R p.1 q.1 ∧ p.2 = q.2) (m.run w)
    (m'.run w)

namespace Concurs

theorem pure {a : α} {b : β} (h : R a b) : Concurs R (Pure.pure a) (Pure.pure b) :=
  fun _ => .some ⟨.ok h, rfl⟩

theorem refl (m : Compiling α) : Concurs Eq m m := by
  intro w
  cases m.run w with
  | none => exact .none
  | some p =>
      obtain ⟨r, w'⟩ := p
      cases r with
      | ok a => exact .some ⟨.ok rfl, rfl⟩
      | error e => exact .some ⟨.error rfl, rfl⟩

theorem bind {m : Compiling α} {m' : Compiling β} {f : α → Compiling γ} {f' : β → Compiling δ}
    (hm : Concurs R m m') (hf : ∀ a b, R a b → Concurs S (f a) (f' b)) :
    Concurs S (m >>= f) (m' >>= f') := by
  intro w
  have hrel := hm w
  rw [run_bind_eq, run_bind_eq]
  generalize m.run w = r, m'.run w = r' at hrel ⊢
  cases hrel with
  | none => exact .none
  | @some p q h =>
      obtain ⟨r, v⟩ := p
      obtain ⟨r', v'⟩ := q
      obtain ⟨hr, rfl⟩ := h
      cases hr with
      | ok h => exact hf _ _ h v
      | error h => exact .some ⟨.error h, rfl⟩

theorem imp {R' : α → β → Prop} {m : Compiling α} {m' : Compiling β} (h : Concurs R m m')
    (himp : ∀ a b, R a b → R' a b) : Concurs R' m m' := by
  intro w
  have hrel := h w
  generalize m.run w = r, m'.run w = r' at hrel ⊢
  cases hrel with
  | none => exact .none
  | some h => exact .some ⟨h.1.imp himp, h.2⟩

theorem mapM_eq {f f' : α → Compiling γ} (h : ∀ a, Concurs Eq (f a) (f' a)) (as : List α) :
    Concurs Eq (as.mapM f) (as.mapM f') := by
  induction as with
  | nil => exact .pure rfl
  | cons a as ih =>
      rw [List.mapM_cons, List.mapM_cons]
      exact (h a).bind fun _ _ hb => ih.bind fun _ _ hrest => .pure (hb ▸ hrest ▸ rfl)

end Concurs

theorem withFunctions_concurs {f : Nat → Except CompileError (α × Nat)}
    {f' : Nat → Except CompileError (β × Nat)}
    (h : ∀ n, Concur CompileError.unplaced (fun p q => R p.1 q.1 ∧ p.2 = q.2) (f n) (f' n)) :
    Concurs R (withFunctions f) (withFunctions f') := by
  intro w
  have hrel := h w.nextFunction
  rw [withFunctions_run, withFunctions_run]
  generalize f w.nextFunction = r, f' w.nextFunction = r' at hrel ⊢
  cases hrel with
  | error h => exact .some ⟨.error h, rfl⟩
  | @ok p q h =>
      obtain ⟨a, n⟩ := p
      obtain ⟨b, n'⟩ := q
      obtain ⟨hab, rfl⟩ := h
      exact .some ⟨.ok hab, rfl⟩

end Compiling

section Compile

variable {announce : Announce} {globals : Globals}

theorem evalDefault_concurs (define param : String) {e e' : Expression} (h : e.expr = e'.expr) :
    Compiling.Concurs Eq (evalDefault announce globals define param e)
      (evalDefault announce globals define param e') := by
  refine (Compiling.withFunctions_concurs (R := Eq) fun n => ?_).bind fun code _ heq => ?_
  · rw [h]
    cases (Code.lower (constantNamed globals) e'.expr).run n with
    | ok r => exact .ok ⟨rfl, rfl⟩
    | error name => exact .error rfl
  · subst heq
    exact .refl _

theorem evalParameters_concurs {d d' : Define} (h : d.bare = d'.bare) :
    Compiling.Concurs Eq (evalParameters announce globals d)
      (evalParameters announce globals d') := by
  obtain ⟨hname, hparameters, -⟩ := Define.mk.inj h
  have hnames : d.parameters.names = d'.parameters.names := (Parameters.mk.inj hparameters).1
  simp only [evalParameters, hname, hnames]
  refine .mapM_eq (fun p => ?_) _
  obtain ⟨name, i⟩ := p
  have hdefault := congrArg (·.default? i) hparameters
  simp only [Parameters.default?_bare] at hdefault
  generalize d.parameters.default? i = e?, d'.parameters.default? i = e'? at hdefault
  cases e? with
  | none =>
      cases e'? with
      | none => exact .refl _
      | some e' => simp at hdefault
  | some e =>
      cases e'? with
      | none => simp at hdefault
      | some e' =>
          have hbare : e.bare = e'.bare := by simpa using hdefault
          have hexpr : e.expr = e'.expr := (Expression.mk.inj hbare).2.1
          exact (evalDefault_concurs d'.name name hexpr).bind fun _ _ hv => .pure (hv ▸ rfl)

structure CompiledDefine.Alike (d d' : CompiledDefine) : Prop where
  name : d.name = d'.name
  params : d.params = d'.params
  program : d.program.Alike d'.program

theorem CompiledDefine.Alike.unplaced_eq {d d' : CompiledDefine} (h : d.Alike d') :
    d.unplaced = d'.unplaced := by
  simp only [unplaced, h.name, h.params, h.program.unplaced_eq]

theorem compileDefine_concurs {d d' : Define} (h : d.bare = d'.bare) :
    Compiling.Concurs CompiledDefine.Alike (compileDefine announce globals d)
      (compileDefine announce globals d') := by
  obtain ⟨hname, hparameters, hbody, -⟩ := Define.mk.inj h
  have hnames : d.parameters.names = d'.parameters.names := (Parameters.mk.inj hparameters).1
  have hprogram (n : Nat) : Concur CompileError.unplaced (fun p q => p.1.Alike q.1 ∧ p.2 = q.2)
      (emitProgram globals d.parameters.names d.body n)
      (emitProgram globals d'.parameters.names d'.body n) := by
    rw [hnames]
    exact emitProgram_alike globals hbody _ n
  refine (evalParameters_concurs h).bind fun params _ heq => ?_
  subst heq
  refine (Compiling.withFunctions_concurs hprogram).bind fun program program' hprogram => ?_
  rw [hname, hprogram.ops.length_eq, hprogram.slots, hprogram.exports]
  exact (Compiling.Concurs.refl _).bind fun _ _ _ => .pure ⟨rfl, rfl, hprogram⟩

theorem compileConstruct_concurs {c c' : Construct} (h : c.bare = c'.bare) :
    Compiling.Concurs (fun p p' => p.program.Alike p'.program) (compileConstruct globals c)
      (compileConstruct globals c') := by
  have htype : c.typeName = c'.typeName := by
    rw [← c.typeName_bare, h, c'.typeName_bare]
  have hbody : [c].map (·.bare) = [c'].map (·.bare) := by simp [h]
  refine (Compiling.withFunctions_concurs fun n => emitProgram_alike globals hbody [] n).bind
    fun program program' hprogram => ?_
  rw [htype, hprogram.ops.length_eq, hprogram.slots]
  exact (Compiling.Concurs.refl _).bind fun _ _ _ => .pure hprogram

end Compile

end LiveUI.Template
