import LiveUI.Proofs.Template.Rearing
import LiveUI.Session.Types

/-! # Building without a lifecycle

Building a template is not the beginning of a life. Whatever keeps to all that is done outside of a
lifecycle is kept to by a run of a template, as long as the procedures of the toolkit keep to it. -/

namespace LiveUI.Template

open World

variable {announcements : Nat} {registry : Registry} {T : World → World → Prop}

/-- If it is a procedure of the toolkit, it goes along the relation. -/
def Factory.Within (T : World → World → Prop) : Factory → Prop
  | .procedure build _ => ∀ call w, Building.Along T w (build call) fun _ _ => True
  | _ => True

def Registry.Within (T : World → World → Prop) (registry : Registry) : Prop :=
  ∀ f ∈ registry.factories.map (·.2), f.Within T

variable [Trans T T T] (hT : Everyday T)

include hT

section Runs

variable {builder : Factory → Builder}
  (hbuilder : ∀ typeName f, registry.lookup typeName = .ok f →
    ∀ call w, Building.Along T w (builder f call) fun _ _ => True)

include hbuilder

theorem openConstruct_everyday (m : Machine) (b : Build) (w : World) :
    Building.Along T w (openConstruct (announce announcements) registry builder m b)
      fun _ _ => True := by
  rw [openConstruct_eq]
  refine (calling_everyday hT m b w).bind fun p w₁ _ hp => ?_
  refine (hbuilder _ p.1 hp p.2 w₁).bind fun output w₂ _ _ => ?_
  exact (receiving_everyday hT m b output w₂).imp fun _ _ _ _ => trivial

theorem runOp_everyday (m : Machine) (op : Op) (w : World) :
    Building.Along T w (runOp (announce announcements) registry builder m op) fun _ _ => True := by
  cases op with
  | build b => exact openConstruct_everyday hT hbuilder m b w
  | assign target op code place =>
      refine (targetObject_everyday hT _ target place w).bind fun o w₁ _ _ => ?_
      refine (Building.Along.lift (applyOperator_everyday hT _ op code w₁)).bind fun r w₂ _ _ => ?_
      cases r with
      | ok _ => exact .pure (hT.refl w₂) trivial
      | error cause => exact .throw (hT.refl w₂) _
  | close => exact .lift ((closeConstruct_everyday hT m w).imp fun _ _ _ => trivial)

theorem Program.run_everyday (p : Program) (frame : Frame) (w : World) :
    Building.Along T w (p.run (announce announcements) registry builder frame) fun _ _ => True := by
  refine Building.Along.bind (.lift (m := modifyGet (·.beginRun frame.slots))
    (.of_modifyGet (hT.same rfl rfl rfl))) fun run w₁ _ _ => ?_
  refine (Building.Along.foldlM (I := fun _ _ => True) p.ops (fun op _ m w₂ _ _ =>
    runOp_everyday hT hbuilder m op w₂) (hT.refl w₁) trivial).bind fun m w₂ _ _ => ?_
  exact .pure (hT.refl w₂) trivial

theorem CompiledDefine.instantiate_everyday (d : CompiledDefine) (args : List Value)
    (keywords : List (String × Value)) (w : World) :
    Building.Along T w (d.instantiate (announce announcements) registry builder args keywords)
      fun _ _ => True := by
  unfold CompiledDefine.instantiate
  split
  next => exact .throw (hT.refl w) _
  next => exact Program.run_everyday hT hbuilder _ _ w

end Runs

theorem Component.build_everyday (c : Component) (call : FactoryCall) (w : World) :
    Building.Along T w (c.build (announce announcements) call) fun _ _ => True := by
  unfold Component.build
  split
  · exact .throw (hT.refl w) _
  · have hmade := (create_writes_everyday hT announcements call.typeName c.defaults
      (c.positional.zip call.args ++ call.keywords) w).bind fun o w₁ _ _ =>
        Building.Along.pure (a := (⟨[{ object := o, hooks := c.hooks }], []⟩ : Output))
          (Q := fun _ _ => True) (hT.refl w₁) trivial
    simpa only [bind_assoc, pure_bind] using hmade

theorem Factory.build_everyday (hr : registry.Within T) (depth : Nat) {f : Factory} (hf : f.Within T)
    (call : FactoryCall) (w : World) :
    Building.Along T w (f.build (announce announcements) registry depth call) fun _ _ => True := by
  induction depth generalizing f call w with
  | zero => exact .lift .failure
  | succ depth ih =>
      have hlookup {typeName : String} {f : Factory} (hf : registry.lookup typeName = .ok f) :
          f.Within T :=
        hr f (Registry.mem_of_lookup hf)
      cases f with
      | component c => exact c.build_everyday hT call w
      | define d =>
          refine (d.instantiate_everyday hT (fun _ _ hf => ih (hlookup hf)) call.args call.keywords
            w).bind fun built w₁ _ _ => .pure (hT.refl w₁) trivial
      | «alias» typeName =>
          simp only [Factory.build]
          split
          next f hf => exact ih (hlookup hf) call w
          next => exact .throw (hT.refl w) _
      | procedure build keeps => exact hf call w

theorem manyBuild_everyday (count : Nat) (exports : List (String × Value)) (call : FactoryCall)
    (w : World) : Building.Along T w (Session.manyBuild count exports call) fun _ _ => True := by
  refine (Building.mapM_along (fun _ _ _ => hT.refl _) (List.range count) (hT.refl w) fun i w _ => ?_).bind
    fun is w₁ _ _ => .pure (hT.refl w₁) trivial
  have hmade := (create_writes_everyday hT Session.limits.announcements call.typeName
    [("index", .int (Int64.ofNat i)), ("args", .list call.args)] call.keywords w).bind
      fun o w₁ _ _ => Building.Along.pure (a := ({ object := o } : Instance))
        (Q := fun _ _ => True) (hT.refl w₁) trivial
  simpa only [bind_assoc, pure_bind, Session.announcing] using hmade

/-- Whatever factory a session makes. -/
theorem factorySpec_within {spec : Session.FactorySpec} {f : Factory} {w w' : World}
    (h : spec.make w = some (f, w')) : f.Within T := by
  cases spec with
  | empty =>
      cases h
      exact fun _ w => .pure (hT.refl w) trivial
  | refusing message =>
      cases h
      exact fun _ w => .throw (hT.refl w) _
  | «alias» typeName =>
      cases h
      trivial
  | many count exports =>
      obtain ⟨⟨exports', w₁⟩, -, h⟩ := Option.bind_eq_some_iff.mp h
      cases h
      exact manyBuild_everyday hT count exports'

theorem Registry.Within.build_everyday (hr : registry.Within T) (depth : Nat) (typeName : String)
    (f : Factory) (hf : registry.lookup typeName = .ok f) (call : FactoryCall) (w : World) :
    Building.Along T w (f.build (announce announcements) registry depth call) fun _ _ => True :=
  Factory.build_everyday hT hr depth (hr f (Registry.mem_of_lookup hf)) call w

end LiveUI.Template
