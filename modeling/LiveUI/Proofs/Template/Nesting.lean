import LiveUI.Proofs.Template.Simulation

/-! # Constructs inside each other

The stack of a machine holds the constructs that the recursion of the interpreter is inside of. What
a construct builds is on top of the stack when its operations have been run up to the last one, which
hands it to the construct around it. -/

namespace LiveUI.Template

open Markup

variable {announce : Announce} {globals : Globals} {registry : Registry}
  {builder : Factory → Builder}

/-- The object of a node does not change when it takes children. -/
theorem object_foldl_adopt (children : List Instance) (parent : Instance) :
    (children.foldl Instance.adopt parent).object = parent.object := by
  induction children generalizing parent with
  | nil => rfl
  | cons child children ih => exact ih (parent.adopt child)

/-- A machine that has run the operations behind `m`, with the open constructs `stack`. -/
structure Ran (s s' : Scope) (stack : List (List Instance)) (m m' : Machine)
    (env' : Environment) : Prop where
  roots : m'.roots = m.roots
  stack : m'.stack = stack
  goes : Goes s s' m.frame m'.frame env'

theorem Ran.trans {s s' s'' : Scope} {stack stack' : List (List Instance)} {m m' m'' : Machine}
    {env' env'' : Environment} (h : Ran s s' stack m m' env')
    (h' : Ran s' s'' stack' m' m'' env'') : Ran s s'' stack' m m'' env'' :=
  ⟨h'.roots.trans h.roots, h'.stack, h.goes.trans h'.goes⟩

/-- The last operation of a construct inside another one appends what it has built to the first
instance of the other one. -/
theorem close_agrees {m : Machine} {done : List Instance} {parent : Instance}
    {others : List Instance} {rest : List (List Instance)}
    (hstack : m.stack = done :: (parent :: others) :: rest) :
    Building.Agrees (fun m' _ =>
        m' = { m with stack := (done.foldl Instance.adopt parent :: others) :: rest })
      (runOp announce registry builder m .close)
      (ExceptT.lift (done.forM fun child => modify (·.addChild parent.object child.object))) := by
  simp only [runOp, closeConstruct, hstack]
  refine .lift ?_
  have hclose := (addChildren_respects parent.object done).bind (S := fun m' _ =>
      m' = { m with stack := (done.foldl Instance.adopt parent :: others) :: rest })
    fun _ _ _ => Step.Agrees.pure (a := { m with
      stack := (done.foldl Instance.adopt parent :: others) :: rest }) (b := PUnit.unit) rfl
  simpa using hclose

mutual

/-- The operations of a construct but the last leave its instances on top of the stack. -/
theorem construct_agrees (ha : ∀ c, Step.Respects (announce c)) (hb : Blind registry builder)
    {s s' : Scope} {env : Environment} {self : Option Nat} {object : Option Handle} {m : Machine}
    {ops : List Op} : ∀ {c : Construct},
    (h : Mirrors s m.frame env) → (hself : Encloses s m.frame self object) →
    (hemit : emitConstruct globals self c s = .ok (ops, s')) →
    ∃ opening, ops = opening ++ [.close] ∧
      Building.Agrees (fun m' p => Ran s s' (p.1 :: m.stack) m m' p.2)
        (opening.foldlM (runOp announce registry builder) m)
        ((interpretConstruct announce globals registry builder object c).run env)
  | ⟨typeName, arguments, unpack, captures, body, pos⟩, h, hself, hemit => by
      simp only [emitConstruct] at hemit
      obtain ⟨b, s₁, hbuild, hemit⟩ := emit_bind hemit
      obtain ⟨inner, s₂, hbody, hemit⟩ := emit_bind hemit
      cases hemit
      refine ⟨.build b :: inner, rfl, ?_⟩
      simp only [interpretConstruct, StateT.run_bind, List.foldlM_cons]
      refine (head_agrees ha hb h hself hbuild).bind fun m₁ ⟨⟨first, others⟩, env₁⟩ hopened => ?_
      have hinner := body_agrees ha hb hopened.stack hopened.goes.mirrors hopened.encloses hbody
      rw [← bind_pure (List.foldlM _ m₁ inner)]
      refine hinner.bind fun m₂ ⟨parent, env₂⟩ ⟨_, hran⟩ => .pure ?_
      exact ⟨hran.roots.trans hopened.roots, hran.stack, hopened.goes.trans hran.goes⟩

theorem body_agrees (ha : ∀ c, Step.Respects (announce c)) (hb : Blind registry builder)
    {s s' : Scope} {env : Environment} {m : Machine} {slot : Nat} {parent : Instance}
    {others : List Instance} {rest : List (List Instance)} {ops : List Op} :
    ∀ {items : List (BodyItem Construct)},
    (hstack : m.stack = (parent :: others) :: rest) → (h : Mirrors s m.frame env) →
    (hself : Encloses s m.frame (some slot) (some parent.object)) →
    (hemit : emitBody globals slot items s = .ok (ops, s')) →
    Building.Agrees (fun m' p => p.1.object = parent.object ∧
        Ran s s' ((p.1 :: others) :: rest) m m' p.2)
      (ops.foldlM (runOp announce registry builder) m)
      ((interpretBody announce globals registry builder parent items).run env)
  | [], hstack, h, hself, hemit => by
      simp only [emitBody] at hemit
      cases hemit
      exact .pure ⟨rfl, rfl, hstack, h.goes⟩
  | item :: items, hstack, h, hself, hemit => by
      simp only [emitBody] at hemit
      obtain ⟨first, s₁, hitem, hemit⟩ := emit_bind hemit
      obtain ⟨others, s₂, hbody, hemit⟩ := emit_bind hemit
      cases hemit
      simp only [interpretBody, StateT.run_bind, List.foldlM_append]
      refine (item_agrees ha hb hstack h hself hitem).bind fun m₁ ⟨parent₁, env₁⟩ ⟨heq, hran⟩ => ?_
      have hself₁ := hran.goes.encloses hself
      dsimp only at heq
      rw [← heq] at hself₁ ⊢
      refine (body_agrees ha hb hran.stack hran.goes.mirrors hself₁ hbody).imp
        fun m' p ⟨heq, hran'⟩ => ⟨heq, hran.trans hran'⟩

theorem item_agrees (ha : ∀ c, Step.Respects (announce c)) (hb : Blind registry builder)
    {s s' : Scope} {env : Environment} {m : Machine} {slot : Nat} {parent : Instance}
    {others : List Instance} {rest : List (List Instance)} {ops : List Op} :
    ∀ {item : BodyItem Construct},
    (hstack : m.stack = (parent :: others) :: rest) → (h : Mirrors s m.frame env) →
    (hself : Encloses s m.frame (some slot) (some parent.object)) →
    (hemit : emitItem globals slot item s = .ok (ops, s')) →
    Building.Agrees (fun m' p => p.1.object = parent.object ∧
        Ran s s' ((p.1 :: others) :: rest) m m' p.2)
      (ops.foldlM (runOp announce registry builder) m)
      ((interpretItem announce globals registry builder parent item).run env)
  | .assignment a, hstack, h, hself, hemit => by
      simp only [emitItem] at hemit
      obtain ⟨op, s₁, hassign, hemit⟩ := emit_bind hemit
      cases hemit
      simp only [interpretItem, StateT.run_bind, List.foldlM_cons, List.foldlM_nil]
      refine (assignment_agrees ha h hself hassign).bind fun m' ⟨_, env'⟩ ⟨heq, hgoes⟩ => ?_
      subst heq
      exact .pure ⟨rfl, rfl, hstack, hgoes⟩
  | .child c, hstack, h, hself, hemit => by
      simp only [emitItem] at hemit
      obtain ⟨opening, rfl, hconstruct⟩ := construct_agrees ha hb h hself hemit
      simp only [interpretItem, StateT.run_bind, List.foldlM_append, List.foldlM_cons,
        List.foldlM_nil, Interpreting.run_step, bind_assoc, pure_bind]
      refine hconstruct.bind fun m₁ ⟨children, env₁⟩ hran => ?_
      refine (close_agrees (hran.stack.trans (congrArg _ hstack))).bind fun m₂ _ heq => ?_
      subst heq
      exact .pure ⟨object_foldl_adopt children parent, hran.roots, rfl, hran.goes⟩

end

end LiveUI.Template
