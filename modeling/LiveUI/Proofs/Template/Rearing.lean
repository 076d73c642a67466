import LiveUI.Proofs.Template.Frames
import LiveUI.Proofs.Template.Standing
import LiveUI.Proofs.World.HookCalls

/-! # What is built stays in the forest

A run of a template calls no hooks, those of the defines that it uses as types included. Each object
that it makes is a new one, and each node that a factory returns, wherever a construct asked for it, is
handed on from construct to construct and is in the end one of the nodes below the roots, once. -/

namespace LiveUI

open Template World

/-! ## New objects -/

namespace World

variable {w w₁ w₂ w' : World} {os os' : List Handle}

/-- The objects are different ones, and have come between the two worlds. -/
structure Adds (w w' : World) (os : List Handle) : Prop where
  fresh : ∀ o ∈ os, w.nextObject ≤ o.id ∧ o.id < w'.nextObject
  nodup : (os.map (·.id)).Nodup

namespace Adds

theorem nil : Adds w w' [] :=
  ⟨nofun, List.nodup_nil⟩

theorem mono (h : Adds w₁ w₂ os) (hbefore : Unhooked w w₁) (hafter : Unhooked w₂ w') :
    Adds w w' os :=
  ⟨fun o ho => ⟨Nat.le_trans hbefore.nextObject (h.fresh o ho).1,
    Nat.lt_of_lt_of_le (h.fresh o ho).2 hafter.nextObject⟩, h.nodup⟩

theorem perm (h : Adds w w' os) (hperm : os.Perm os') : Adds w w' os' :=
  ⟨fun o ho => h.fresh o (hperm.mem_iff.mpr ho), (hperm.map Handle.id).nodup_iff.mp h.nodup⟩

theorem create (w : World) (typeName : String) (attrs : List (String × Value)) :
    Adds w (w.create typeName attrs).2 [(w.create typeName attrs).1] := by
  refine ⟨fun o ho => ?_, List.nodup_singleton _⟩
  obtain rfl := List.mem_singleton.mp ho
  exact ⟨Nat.le_refl _, Nat.lt_succ_self _⟩

/-- What comes later is different from what came before. -/
theorem append (h : Adds w w₁ os) (h' : Adds w₁ w' os') (hbefore : Unhooked w w₁)
    (hafter : Unhooked w₁ w') : Adds w w' (os' ++ os) := by
  refine ⟨fun o ho => ?_, ?_⟩
  · rcases List.mem_append.mp ho with ho | ho
    · exact (h'.mono hbefore (.refl w')).fresh o ho
    · exact (h.mono (.refl w) hafter).fresh o ho
  · rw [List.map_append]
    refine h'.nodup.append h.nodup fun id hid hid' => ?_
    obtain ⟨o', ho', rfl⟩ := List.mem_map.mp hid
    obtain ⟨o, ho, heq⟩ := List.mem_map.mp hid'
    have hlate := (h'.fresh o' ho').1
    have hearly := (h.fresh o ho).2
    omega

end Adds

end World

namespace Template

open Instance

variable {announcements : Nat} {registry : Registry} {builder : Factory → Builder}
  {w w' w'' : World} {m m' m'' : Machine}

namespace Building

variable {α : Type}

/-- What a computation came to is known as well. -/
theorem Along.with_run {T : World → World → Prop} {m : Building α} {Q : α → World → Prop}
    (h : Along T w m Q) : Along T w m fun a w' => m.run w = some (.ok a, w') ∧ Q a w' := by
  intro r w' hrun
  refine (h r w' hrun).imp_right fun hpost a ha => ⟨?_, hpost a ha⟩
  rw [← ha]
  exact hrun

/-- What is built is new. -/
def Rears (m : Building Output) : Prop :=
  ∀ w, Along World.Unhooked w m fun out w' => w.Adds w' (objectsOf out.instances)

end Building

/-! ## Statements -/

section Statements

variable {T : World → World → Prop} [Trans T T T] (hT : Everyday T)

include hT

theorem evalAt_everyday (frame : Frame) (place : Location) (code : Code) (w : World) :
    Building.Along T w (evalAt (announce announcements) frame place code) fun _ _ => True :=
  evalAt_along (fun _ _ _ => hT.refl _)
    (fun w _ scope code => code.value_everyday hT announcements w scope) (hT.refl w) frame place code

theorem targetObject_everyday (frame : Frame) (t : TargetCode) (place : Location) (w : World) :
    Building.Along T w (targetObject (announce announcements) frame t place) fun _ _ => True :=
  targetObject_along (fun _ _ _ => hT.refl _)
    (fun w _ scope code => code.value_everyday hT announcements w scope) (hT.refl w) frame t place

theorem applyOperator_everyday (site : Site) (op : Markup.Operator) (code : Code) (w : World) :
    Step.Along T w (applyOperator (announce announcements) site op code) fun _ _ => True := by
  have hdone {α β : Type} {m : Step α} {f : α → Step β} (hm : Step.Along T w m fun _ _ => True)
      (hf : ∀ a w₁, Step.Along T w₁ (f a) fun _ _ => True) : Step.Along T w (m >>= f) fun _ _ => True :=
    hm.bind fun a w₁ _ _ => hf a w₁
  cases op with
  | default => exact hdone (site.assign_everyday hT announcements w code) fun _ w₁ => .pure (hT.refl w₁) trivial
  | bind => exact hdone (site.bind_everyday hT announcements w code) fun _ w₁ => .pure (hT.refl w₁) trivial
  | delegate => exact hdone (site.delegate_everyday hT announcements w code) fun _ w₁ => .pure (hT.refl w₁) trivial
  | notify => exact hdone (site.notify_everyday hT w code) fun _ w₁ => .pure (hT.refl w₁) trivial

theorem write_everyday (m : Machine) (slot : Nat) (v : Value) (w : World) :
    Building.Along T w (ExceptT.lift (m.write slot v)) fun m' _ => m.SameTrees m' :=
  write_along (fun _ _ _ => hT.refl _) (fun _ _ _ _ => hT.same rfl rfl rfl) (hT.refl w) m slot v

theorem writeAll_everyday (m : Machine) (slots : List (Nat × Value)) (w : World) :
    Building.Along T w (ExceptT.lift (m.writeAll slots)) fun m' _ => m.SameTrees m' :=
  writeAll_along (fun _ _ _ => hT.refl _) (fun _ _ _ _ => hT.same rfl rfl rfl) (hT.refl w) m slots

end Statements

/-! ## Constructs -/

/-- The factory of a construct and what it is called with. -/
def calling (announce : Announce) (registry : Registry) (m : Machine) (b : Build) :
    Building (Factory × FactoryCall) := do
  let args ← b.args.mapM (evalAt announce m.frame b.place)
  let keywords ← b.keywords.mapM fun (name, code) => do
    return (name, ← evalAt announce m.frame b.place code)
  let factory ← openConstruct.liftExcept (registry.lookup b.typeName)
  ExceptT.lift (Step.notice (.building b.typeName registry.name))
  return (factory, ⟨b.typeName, args, keywords⟩)

/-- What the factory has returned is put on the stack, and its slots are written. -/
def receiving (m : Machine) (b : Build) (output : Output) : Building Machine := do
  match output.instances with
  | [] => throw (.factory b.typeName .noInstances)
  | first :: _ =>
      let m ← ExceptT.lift (m.write b.selfSlot (.object first.object))
      let values ← openConstruct.liftExcept (unpackValues b.unpack.length output.instances b.place)
      let m ← ExceptT.lift (m.writeAll (b.unpack.zip values))
      let m ← b.captures.foldlM (fun (m : Machine) (slot, attr) => do
        let v ← openConstruct.liftExcept (captured (← getThe World) output attr b.place)
        ExceptT.lift (m.write slot v)) m
      return { m with stack := output.instances :: m.stack }

theorem openConstruct_eq (announce : Announce) (m : Machine) (b : Build) :
    openConstruct announce registry builder m b = (do
      let p ← calling announce registry m b
      let output ← builder p.1 p.2
      receiving m b output) := by
  simp only [calling, bind_assoc, pure_bind]
  rfl

section Everyday

variable {T : World → World → Prop} [Trans T T T] (hT : Everyday T)

include hT

theorem calling_everyday (m : Machine) (b : Build) (w : World) :
    Building.Along T w (calling (announce announcements) registry m b)
      fun p _ => registry.lookup p.2.typeName = .ok p.1 := by
  refine (Building.mapM_along (fun _ _ _ => hT.refl _) b.args (hT.refl w)
    fun c w _ => evalAt_everyday hT _ _ c w).bind fun args w₁ _ _ => ?_
  refine (Building.mapM_along (fun _ _ _ => hT.refl _) b.keywords (hT.refl w₁)
    fun p w _ => (evalAt_everyday hT _ _ p.2 w).bind fun v w₂ _ _ => .pure (hT.refl w₂) trivial).bind
      fun keywords w₂ _ _ => ?_
  refine .ofExcept_bind (hT.refl w₂) fun factory hfactory => ?_
  refine (Building.Along.lift (Step.Along.of_modify (hT.log w₂ rfl))).bind fun _ w₃ _ _ => ?_
  exact .pure (hT.refl w₃) hfactory

theorem receiving_everyday (m : Machine) (b : Build) (output : Output) (w : World) :
    Building.Along T w (receiving m b output)
      fun m' _ => m'.stack = output.instances :: m.stack ∧ m'.roots = m.roots := by
  unfold receiving
  split
  next => exact .throw (hT.refl w) _
  next first _ _ =>
    refine (write_everyday hT m b.selfSlot (.object first.object) w).bind fun m₁ w₁ _ hm₁ => ?_
    refine .ofExcept_bind (hT.refl w₁) fun values _ => ?_
    refine (writeAll_everyday hT m₁ (b.unpack.zip values) w₁).bind fun m₂ w₂ _ hm₂ => ?_
    refine (Building.Along.foldlM (I := fun m' _ => m.SameTrees m') b.captures
      (fun capture _ m' w₃ _ hm' => .get_bind <| .ofExcept_bind (hT.refl w₃) fun v _ => ?_)
      (hT.refl w₂) ⟨hm₂.stack.trans hm₁.stack, hm₂.roots.trans hm₁.roots⟩).bind fun m₃ w₃ _ hm₃ => ?_
    · exact (write_everyday hT m' capture.1 v w₃).imp fun m'' _ _ hm'' =>
        ⟨hm''.stack.trans hm'.stack, hm''.roots.trans hm'.roots⟩
    · exact .pure (hT.refl w₃) ⟨by rw [hm₃.stack], hm₃.roots⟩

end Everyday

/-- The factories of the registry build new instances. -/
def Registry.Rears (registry : Registry) (builder : Factory → Builder) : Prop :=
  ∀ typeName f, registry.lookup typeName = .ok f → ∀ call, Building.Rears (builder f call)

/-- From `m` to `m'` the factory of a construct has been called, and what it returned is on top of the
stack. -/
def Machine.Opens (announce : Announce) (registry : Registry) (builder : Factory → Builder)
    (b : Build) (w w' : World) (m m' : Machine) : Prop :=
  ∃ f call w₁ output w₂, (calling announce registry m b).run w = some (.ok (f, call), w₁) ∧
    (builder f call).run w₁ = some (.ok output, w₂) ∧
    w.Adds w' (objectsOf output.instances) ∧
    m'.stack = output.instances :: m.stack ∧ m'.roots = m.roots

theorem openConstruct_opens (hbuilder : registry.Rears builder) (m : Machine) (b : Build)
    (w : World) :
    Building.Along World.Unhooked w (openConstruct (announce announcements) registry builder m b)
      fun m' w' => m.Opens (announce announcements) registry builder b w w' m' := by
  rw [openConstruct_eq]
  refine (calling_everyday World.Unhooked.everyday m b w).with_run.bind fun p w₁ hin₁ hp => ?_
  refine (hbuilder _ p.1 hp.2 p.2 w₁).with_run.bind fun output w₂ _ hout => ?_
  refine (receiving_everyday World.Unhooked.everyday m b output w₂).imp fun m' w' hin' hm' => ?_
  exact ⟨p.1, p.2, w₁, output, w₂, hp.1, hout.1, hout.2.mono hin₁ hin', hm'⟩

/-! ## Runs -/

/-- The nodes of the open constructs of a machine and of its roots. -/
def Machine.nodes (m : Machine) : List (Handle × Hooks) :=
  Instance.nodes (m.stack.flatten ++ m.roots)

/-- The machine has come to the nodes that it had, and to further ones whose objects are new. -/
def Machine.Grows (w w' : World) (m m' : Machine) : Prop :=
  ∃ new : List (Handle × Hooks), w.Adds w' (new.map (·.1)) ∧ m'.nodes.Perm (new ++ m.nodes)

namespace Machine.Grows

theorem of_perm (h : m'.nodes.Perm m.nodes) : m.Grows w w' m' :=
  ⟨[], .nil, h⟩

theorem trans (h : m.Grows w w' m') (h' : m'.Grows w' w'' m'') (hbefore : w.Unhooked w')
    (hafter : w'.Unhooked w'') : m.Grows w w'' m'' := by
  obtain ⟨new, hadds, hperm⟩ := h
  obtain ⟨new', hadds', hperm'⟩ := h'
  refine ⟨new' ++ new, ?_, ?_⟩
  · rw [List.map_append]
    exact hadds.append hadds' hbefore hafter
  · rw [List.append_assoc]
    exact hperm'.trans (hperm.append_left new')

theorem subset (h : m.Grows w w' m') : m.nodes ⊆ m'.nodes := by
  obtain ⟨new, -, hperm⟩ := h
  exact fun n hn => hperm.mem_iff.mpr (List.mem_append_right new hn)

end Machine.Grows

theorem Machine.Opens.grows {b : Build} {announce : Announce}
    (h : m.Opens announce registry builder b w w' m') : m.Grows w w' m' := by
  obtain ⟨f, call, w₁, output, w₂, -, -, hadds, hstack, hroots⟩ := h
  refine ⟨Instance.nodes output.instances, by rwa [← objectsOf_eq_map], ?_⟩
  rw [Machine.nodes, hstack, hroots, List.flatten_cons, List.append_assoc, nodes_append]
  exact .refl _

theorem nodes_foldl_adopt (children : List Instance) (parent : Instance) :
    Instance.nodes [children.foldl Instance.adopt parent] =
      Instance.nodes [parent] ++ Instance.nodes children := by
  induction children generalizing parent with
  | nil => exact (List.append_nil _).symm
  | cons child children ih =>
      rw [List.foldl_cons, ih, nodes_adopt, nodes_cons child children, List.append_assoc]

/-- A node that takes children takes their nodes. -/
theorem nodes_adopted (children is : List Instance) (parent : Instance) :
    (Instance.nodes (children.foldl Instance.adopt parent :: is)).Perm
      (Instance.nodes (children ++ parent :: is)) := by
  rw [nodes_cons, nodes_foldl_adopt, List.append_assoc, ← nodes_append children, ← nodes_cons]
  exact nodes_perm List.perm_middle.symm

/-- Closing a construct moves its nodes, and no node is lost. -/
theorem closeConstruct_everyday {T : World → World → Prop} [Trans T T T] (hT : Everyday T)
    (m : Machine) (w : World) :
    Step.Along T w (closeConstruct m) fun m' _ => m'.nodes.Perm m.nodes := by
  unfold closeConstruct
  split
  next => exact .pure (hT.refl w) (.refl _)
  next done heq =>
    refine .pure (hT.refl w) (nodes_perm ?_)
    simpa [heq] using List.perm_append_comm
  next done rest heq =>
    refine .pure (hT.refl w) (nodes_perm ?_)
    simp only [heq, List.flatten_cons, List.nil_append, List.append_assoc]
    exact (List.perm_append_comm.trans (by simp)).symm
  next done parent others rest heq =>
    refine (Step.Along.forM done (hT.refl w) fun child _ w₁ _ => ?_).bind fun _ w₁ _ _ =>
      .pure (hT.refl w₁) ?_
    · exact (Step.Along.of_modify (hT.addChild w₁ _ _)).imp fun _ _ _ => trivial
    · simpa [Machine.nodes, heq] using
        nodes_adopted done (others ++ (rest.flatten ++ m.roots)) parent

theorem runOp_grows (hbuilder : registry.Rears builder) (m : Machine) (op : Op) (w : World) :
    Building.Along World.Unhooked w (runOp (announce announcements) registry builder m op)
      fun m' w' => m.Grows w w' m' := by
  cases op with
  | build b => exact (openConstruct_opens hbuilder m b w).imp fun _ _ _ h => h.grows
  | assign target op code place =>
      refine (targetObject_everyday World.Unhooked.everyday _ target place w).bind fun o w₁ _ _ => ?_
      refine (Building.Along.lift (applyOperator_everyday World.Unhooked.everyday _ op code w₁)).bind fun r w₂ _ _ => ?_
      cases r with
      | ok _ => exact .pure (.refl w₂) (.of_perm (.refl _))
      | error cause => exact .throw (.refl w₂) _
  | close => exact .lift ((closeConstruct_everyday World.Unhooked.everyday m w).imp fun _ _ h => .of_perm h)

theorem runOps_grow (hbuilder : registry.Rears builder) (m : Machine) (ops : List Op) (w : World) :
    Building.Along World.Unhooked w
      (ops.foldlM (runOp (announce announcements) registry builder) m)
      fun m' w' => m.Grows w w' m' :=
  Building.Along.foldlM (I := fun m' w' => m.Grows w w' m') ops
    (fun op _ m₁ w₁ hin hm₁ => (runOp_grows hbuilder m₁ op w₁).imp fun _ _ hin' hm' =>
      hm₁.trans hm' hin hin') (.refl w) (.of_perm (.refl _))

/-! ## Programs -/

/-- Run on the frame from `w` on, the program comes to a construct in `w'` whose factory is `f`, to be
called with `call`. -/
def Program.Asks (announce : Announce) (registry : Registry) (builder : Factory → Builder)
    (p : Program) (frame : Frame) (w : World) (f : Factory) (call : FactoryCall) (w' : World) : Prop :=
  ∃ before b after m w₁, p.ops = before ++ .build b :: after ∧
    (before.foldlM (runOp announce registry builder) { run := w.nextRun, frame }).run
      (w.beginRun frame.slots).2 = some (.ok m, w₁) ∧
    (calling announce registry m b).run w₁ = some (.ok (f, call), w')

theorem Machine.nodes_of_stack_eq_nil (h : m.stack = []) : m.nodes = Instance.nodes m.roots := by
  rw [Machine.nodes, h, List.flatten_nil, List.nil_append]

section Programs

variable {p : Program} {frame : Frame}

theorem Program.run_rears (hbuilder : registry.Rears builder) (hnest : nesting? 0 p.ops = some 0)
    (frame : Frame) (w : World) :
    Building.Along World.Unhooked w (p.run (announce announcements) registry builder frame)
      fun built w' => w.Adds w' (objectsOf built.roots) := by
  have hbegin : w.Unhooked (w.beginRun frame.slots).2 := .of_same rfl rfl
  refine Building.Along.bind (.lift (m := modifyGet (·.beginRun frame.slots))
    (.of_modifyGet hbegin)) ?_
  rintro _ _ - ⟨rfl, rfl⟩
  refine (runOps_grow hbuilder { run := w.nextRun, frame } p.ops _).with_run.bind
    fun m w₁ hin hm => .pure (.refl w₁) ?_
  obtain ⟨hrun, new, hadds, hperm⟩ := hm
  -- Every construct has been closed, so that all nodes are below the roots by now.
  have hstack : m.stack = [] := List.length_eq_zero_iff.mp (runOps_fill hrun hnest).2
  rw [m.nodes_of_stack_eq_nil hstack] at hperm
  have hnew : (new.map (·.1)).Perm (objectsOf m.roots) := by
    rw [objectsOf_eq_map]
    exact (hperm.trans (.of_eq (List.append_nil new))).symm.map _
  exact (hadds.mono hbegin (.refl w₁)).perm hnew

theorem Program.Asks.lookup {f : Factory} {call : FactoryCall} {w₁ : World}
    (h : p.Asks (announce announcements) registry builder frame w f call w₁) :
    registry.lookup call.typeName = .ok f := by
  obtain ⟨before, b, after, m, v, -, -, hcalling⟩ := h
  exact (calling_everyday World.Unhooked.everyday m b v _ _ hcalling).2 _ rfl

/-- In a run that succeeds each construct has been given instances, and their nodes are in the forest
that the program builds. -/
theorem Program.run_opens (hbuilder : registry.Rears builder) (hnest : nesting? 0 p.ops = some 0)
    {before after : List Op} {b : Build} (hops : p.ops = before ++ .build b :: after) {built : Built}
    (hrun : (p.run (announce announcements) registry builder frame).run w = some (.ok built, w')) :
    ∃ m v f call w₁ output w₂,
      (before.foldlM (runOp (announce announcements) registry builder)
        { run := w.nextRun, frame }).run (w.beginRun frame.slots).2 = some (.ok m, v) ∧
      (calling (announce announcements) registry m b).run v = some (.ok (f, call), w₁) ∧
      (builder f call).run w₁ = some (.ok output, w₂) ∧
      Instance.nodes output.instances ⊆ Instance.nodes built.roots := by
  unfold Program.run at hrun
  obtain ⟨_, _, hbegin, hrun⟩ := building_bind hrun
  cases hbegin
  obtain ⟨last, u, hall, hbuilt⟩ := building_bind hrun
  have hstack : last.stack = [] := List.length_eq_zero_iff.mp (runOps_fill hall hnest).2
  cases hbuilt
  rw [hops, List.foldlM_append] at hall
  obtain ⟨m, v, hbefore, hrest⟩ := building_bind hall
  rw [List.foldlM_cons] at hrest
  obtain ⟨m₁, v₁, hopen, hafter⟩ := building_bind hrest
  obtain ⟨f, call, w₁, output, w₂, hcalling, hbuild, -, htop, -⟩ :=
    (openConstruct_opens hbuilder m b v _ _ hopen).2 m₁ rfl
  refine ⟨m, v, f, call, w₁, output, w₂, hbefore, hcalling, hbuild, fun n hn => ?_⟩
  -- The output is on the stack when the rest begins, and the rest loses no node.
  have hkept := ((runOps_grow hbuilder m₁ after v₁ _ _ hafter).2 last rfl).subset
  rw [last.nodes_of_stack_eq_nil hstack] at hkept
  refine hkept ?_
  rw [Machine.nodes, htop, List.flatten_cons, List.append_assoc, nodes_append]
  exact List.mem_append_left _ hn

/-- What a construct has been given is in the forest that the program builds. -/
theorem Program.Asks.returned (hbuilder : registry.Rears builder)
    (hnest : nesting? 0 p.ops = some 0) {f : Factory} {call : FactoryCall} {w₁ : World} {built : Built}
    (h : p.Asks (announce announcements) registry builder frame w f call w₁)
    (hrun : (p.run (announce announcements) registry builder frame).run w = some (.ok built, w')) :
    ∃ output w₂, (builder f call).run w₁ = some (.ok output, w₂) ∧
      Instance.nodes output.instances ⊆ Instance.nodes built.roots := by
  obtain ⟨before, b, after, m, v, hops, hbefore, hcalling⟩ := h
  obtain ⟨m', v', f', call', w₁', output, w₂, hbefore', hcalling', hbuild, hsubset⟩ :=
    run_opens hbuilder hnest hops hrun
  -- The two descriptions are of one run, which is the same up to the construct.
  cases hbefore'.symm.trans hbefore
  cases hcalling'.symm.trans hcalling
  exact ⟨output, w₂, hbuild, hsubset⟩

end Programs

/-! ## Factories -/

/-- The define has been compiled. -/
def CompiledDefine.Compiled (d : CompiledDefine) : Prop :=
  ∃ announce globals source w w', (compileDefine announce globals source).run w = some (.ok d, w')

theorem CompiledDefine.Compiled.balanced {d : CompiledDefine} (h : d.Compiled) :
    nesting? 0 d.program.ops = some 0 := by
  obtain ⟨announce, globals, source, w, w', hcompile⟩ := h
  obtain ⟨params, w₁, -, program, n, hemit, rfl⟩ := compileDefine_ok hcompile
  exact (emitProgram_laidOut hemit).balanced

/-- A define of the compiler, or a procedure that builds new instances and calls no hooks. Of
components and other names for types nothing is required. -/
def Factory.Sound : Factory → Prop
  | .define d => d.Compiled
  | .procedure build _ => ∀ call, Building.Rears (build call)
  | .component _ | .alias _ => True

def Registry.Sound (registry : Registry) : Prop :=
  ∀ f ∈ registry.factories.map (·.2), f.Sound

/-- Called on arguments in `w`, the define comes to a construct in `w'` whose factory is `f`, to be
called with `call`. -/
def CompiledDefine.Asks (announce : Announce) (registry : Registry) (builder : Factory → Builder)
    (d : CompiledDefine) (args : List Value) (keywords : List (String × Value)) (w : World)
    (f : Factory) (call : FactoryCall) (w' : World) : Prop :=
  ∃ values, bindArguments d.params args keywords = .ok values ∧
    d.program.Asks announce registry builder
      (values.zipIdx.foldl (fun (frame : Frame) (v, slot) => frame.set slot v)
        (Frame.ofSize d.program.slots)) w f call w'

section Factories

theorem CompiledDefine.instantiate_rears (hbuilder : registry.Rears builder) {d : CompiledDefine}
    (hd : d.Compiled) (args : List Value) (keywords : List (String × Value)) (w : World) :
    Building.Along World.Unhooked w
      (d.instantiate (announce announcements) registry builder args keywords)
      fun built w' => w.Adds w' (objectsOf built.roots) := by
  unfold CompiledDefine.instantiate
  split
  next => exact .throw (.refl w) _
  next => exact Program.run_rears hbuilder hd.balanced _ w

/-- A new object and what is written to it. -/
theorem create_writes_everyday {T : World → World → Prop} [Trans T T T] (hT : Everyday T)
    (announcements : Nat) (typeName : String) (attrs writes : List (String × Value)) (w : World) :
    Building.Along T w (do
      let o ← modifyGetThe World (·.create typeName attrs)
      for (name, v) in writes do
        let _ ← ExceptT.lift (setAttr (announce announcements) o name v)
      return o) fun o w' => o = (w.create typeName attrs).1 ∧ T (w.create typeName attrs).2 w' := by
  have hmade := hT.create w typeName attrs
  refine Building.Along.bind (.lift (m := modifyGet (·.create typeName attrs))
    (.of_modifyGet hmade)) ?_
  rintro _ _ - ⟨rfl, rfl⟩
  refine Building.Along.bind (Q := fun _ _ => True) (.forIn _ (fun p _ w₁ _ => ?_) (hT.refl _))
    fun _ w₁ hin _ => .pure (hT.refl w₁) ⟨rfl, hin⟩
  exact (Building.Along.lift (setAttr_everyday hT announcements w₁ _ p.1 p.2)).bind fun _ w₂ _ _ =>
    .pure (hT.refl w₂) rfl

theorem create_writes (announcements : Nat) (typeName : String)
    (attrs writes : List (String × Value)) (w : World) :
    Building.Along World.Unhooked w (do
      let o ← modifyGetThe World (·.create typeName attrs)
      for (name, v) in writes do
        let _ ← ExceptT.lift (setAttr (announce announcements) o name v)
      return o) fun o w' => w.Adds w' [o] := by
  refine (create_writes_everyday World.Unhooked.everyday announcements typeName attrs writes w).imp ?_
  rintro o w' - ⟨rfl, hin⟩
  exact (World.Adds.create w typeName attrs).mono (.refl w) hin

theorem Component.build_rears (c : Component) (call : FactoryCall) :
    Building.Rears (c.build (announce announcements) call) := by
  intro w
  unfold Component.build
  split
  · exact .throw (.refl w) _
  · have hmade := (create_writes announcements call.typeName c.defaults
      (c.positional.zip call.args ++ call.keywords) w).bind fun o w₁ _ hadds =>
        Building.Along.pure (a := (⟨[{ object := o, hooks := c.hooks }], []⟩ : Output))
          (Q := fun out w' => w.Adds w' (objectsOf out.instances)) (.refl w₁) hadds
    simpa only [bind_assoc, pure_bind] using hmade

theorem Registry.Sound.lookup (hr : registry.Sound) {typeName : String} {f : Factory}
    (hf : registry.lookup typeName = .ok f) : f.Sound :=
  hr f (Registry.mem_of_lookup hf)

theorem Factory.build_rears (hr : registry.Sound) (depth : Nat) {f : Factory} (hf : f.Sound)
    (call : FactoryCall) :
    Building.Rears (f.build (announce announcements) registry depth call) := by
  induction depth generalizing f call with
  | zero => exact fun w => .lift .failure
  | succ depth ih =>
      cases f with
      | component c => exact c.build_rears call
      | define d =>
          intro w
          have hbuilder : registry.Rears (Factory.build (announce announcements) registry depth) :=
            fun _ _ hlookup => ih (hr.lookup hlookup)
          exact (CompiledDefine.instantiate_rears hbuilder hf call.args call.keywords w).bind
            fun built w₁ hin hbuilt => .pure (.refl w₁) hbuilt
      | «alias» typeName =>
          intro w
          simp only [Factory.build]
          split
          next f hlookup => exact ih (hr.lookup hlookup) call w
          next => exact .throw (.refl w) _
      | procedure build keeps => exact hf call

theorem Registry.Sound.rears (hr : registry.Sound) (depth : Nat) :
    registry.Rears (Factory.build (announce announcements) registry depth) :=
  fun _ _ hlookup => Factory.build_rears hr depth (hr.lookup hlookup)

/-- What a construct of a define has been given is in the forest that the define builds. -/
theorem CompiledDefine.Asks.returned (hbuilder : registry.Rears builder) {d : CompiledDefine}
    (hd : d.Compiled) {args : List Value} {keywords : List (String × Value)} {f : Factory}
    {call : FactoryCall} {w₁ : World} {built : Built}
    (h : d.Asks (announce announcements) registry builder args keywords w f call w₁)
    (hrun : (d.instantiate (announce announcements) registry builder args keywords).run w =
      some (.ok built, w')) :
    ∃ output w₂, (builder f call).run w₁ = some (.ok output, w₂) ∧
      Instance.nodes output.instances ⊆ Instance.nodes built.roots := by
  obtain ⟨values, hvalues, hasks⟩ := h
  simp only [CompiledDefine.instantiate, hvalues] at hrun
  exact hasks.returned hbuilder hd.balanced hrun

end Factories

end Template

end LiveUI
