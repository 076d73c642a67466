import LiveUI.Proofs.Template.Compilation
import LiveUI.Proofs.Template.Resolution

/-! # Emission goes along the walk

Emission keeps a scope and the slot of the enclosing construct while it goes down into constructs
and up again. Behind any part of the walk the scope has just the names that the walk has introduced,
and the slot is that of the construct that is open. So emission fails with the first violation on its
part of the walk, and without one it gives every name there its meaning. -/

namespace LiveUI.Template

open Markup

/-! ## Constructs on the way -/

namespace Mark

@[simp]
theorem slots_name (past : List Mark) (n : String) : slots (.name n :: past) = slots past + 1 :=
  List.countP_cons_of_pos rfl

@[simp]
theorem slots_enter (past : List Mark) : slots (.enter :: past) = slots past + 1 :=
  List.countP_cons_of_pos rfl

/-- Marks behind the defaults that leave open what was open before them, and nothing else. -/
structure Inner (marks : List Mark) : Prop where
  opened : ∀ depth past, opened depth (marks.reverse ++ past) = opened depth past
  noDefault : ∀ param e, .default param e ∉ marks

namespace Inner

variable {marks marks' : List Mark}

theorem nil : Inner [] :=
  ⟨fun _ _ => rfl, fun _ _ => List.not_mem_nil⟩

theorem append (h : Inner marks) (h' : Inner marks') : Inner (marks ++ marks') := by
  constructor
  · intro depth past
    rw [List.reverse_append, List.append_assoc, h'.opened, h.opened]
  · intro param e hmem
    rcases List.mem_append.mp hmem with hmem | hmem
    · exact h.noDefault param e hmem
    · exact h'.noDefault param e hmem

theorem flatMap {α : Type} {f : α → List Mark} {as : List α} (h : ∀ a, Inner (f a)) :
    Inner (as.flatMap f) := by
  induction as with
  | nil => exact nil
  | cons a as ih => exact (h a).append ih

theorem map {α : Type} {f : α → Mark} {as : List α} (h : ∀ a, Inner [f a]) :
    Inner (as.map f) := by
  rw [List.map_eq_flatMap]
  exact flatMap h

/-- A construct that has been entered is left again. -/
theorem enclose (h : Inner marks) : Inner (.enter :: marks ++ [.leave]) := by
  constructor
  · intro depth past
    have hinner := h.opened (depth + 1) (.enter :: past)
    simpa [Mark.opened] using hinner
  · intro param e hmem
    have hinner : Mark.default param e ∈ marks := by simpa using hmem
    exact h.noDefault param e hinner

theorem owner (h : Inner marks) (past : List Mark) : owner (marks.reverse ++ past) = owner past :=
  h.opened 0 past

theorem name (n : String) : Inner [.name n] :=
  ⟨fun depth _ => by cases depth <;> rfl, fun _ _ => by simp⟩

theorem read (place : Location) (notify : Bool) (e : Expr) : Inner [.read place notify e] :=
  ⟨fun depth _ => by cases depth <;> rfl, fun _ _ => by simp⟩

theorem own : Inner [.own] :=
  ⟨fun depth _ => by cases depth <;> rfl, fun _ _ => by simp⟩

theorem path (place : Location) (e : Expr) : Inner [.path place e] :=
  ⟨fun depth _ => by cases depth <;> rfl, fun _ _ => by simp⟩

end Inner

theorem walkTarget_inner (place : Location) (t : Target) : Inner (walkTarget place t) := by
  cases t with
  | own attr => exact .own
  | member name attr => exact .read _ _ _
  | element name index attr => exact .read _ _ _

theorem walkAssignment_inner (a : Assignment) : Inner (walkAssignment a) := by
  have hpath : Inner (if a.op = .delegate then [.path ⟨a.pos, a.text⟩ a.value.expr] else []) := by
    split
    · exact .path _ _
    · exact .nil
  exact ((walkTarget_inner _ a.target).append hpath).append (.read _ _ _)

theorem walkArguments_inner (c : Construct) : Inner (walkArguments c) :=
  Inner.map fun _ => .read _ _ _

theorem walkNames_inner (c : Construct) : Inner (walkNames c) :=
  Inner.map fun _ => .name _

mutual

theorem walkConstruct_inner : ∀ c : Construct, Inner (walkConstruct c)
  | ⟨typeName, arguments, unpack, captures, body, pos⟩ => by
      simp only [walkConstruct]
      have hinner := (walkNames_inner ⟨typeName, arguments, unpack, captures, [], pos⟩).append
        (walkBody_inner body)
      exact (walkArguments_inner _).append hinner.enclose

theorem walkBody_inner : ∀ items : List (BodyItem Construct), Inner (walkBody items)
  | [] => .nil
  | item :: items => (walkItem_inner item).append (walkBody_inner items)

theorem walkItem_inner : ∀ item : BodyItem Construct, Inner (walkItem item)
  | .assignment a => walkAssignment_inner a
  | .child c => walkConstruct_inner c

end

end Mark

/-! ## Emission along the walk -/

section Emission

variable {announce : Announce} {globals : Globals}

/-- The first violation that does not depend on the world. -/
def firstFault? (globals : Globals) : List Mark → List Mark → Option CompileError
  | _, [] => none
  | past, m :: marks => (m.fault? globals past).or (firstFault? globals (m :: past) marks)

theorem firstFault?_append (past marks marks' : List Mark) :
    firstFault? globals past (marks ++ marks') =
      (firstFault? globals past marks).or
        (firstFault? globals (marks.reverse ++ past) marks') := by
  induction marks generalizing past with
  | nil => rfl
  | cons m marks ih =>
      simp only [List.cons_append, firstFault?, ih, Option.or_assoc, List.reverse_cons,
        List.append_assoc, List.nil_append]

theorem Resolves.append {w w' w'' : World} {past marks marks' : List Mark}
    {parts parts' : List Part} (h : Resolves announce globals w past marks parts w')
    (h' : Resolves announce globals w' (marks.reverse ++ past) marks' parts' w'') :
    Resolves announce globals w past (marks ++ marks') (parts ++ parts') w'' := by
  induction h with
  | done => exact h'
  | default hcode hvalue _ ih => exact .default hcode hvalue (ih (by simpa using h'))
  | name _ ih => exact .name (ih (by simpa using h'))
  | enter _ ih => exact .enter (ih (by simpa using h'))
  | leave _ ih => exact .leave (ih (by simpa using h'))
  | read hcode _ ih => exact .read hcode (ih (by simpa using h'))
  | own howner _ ih => exact .own howner (ih (by simpa using h'))
  | path hpath _ ih => exact .path hpath (ih (by simpa using h'))

/-- The scope knows what the walk has introduced. -/
structure Scope.Knows (s : Scope) (past : List Mark) : Prop where
  locals : s.locals = Mark.introduced past
  slots : s.slots = Mark.slots past

/-- Behind `past` an emission goes along `marks`: it fails with their first violation, and without
one it resolves them into the parts that `post` allows. -/
def Emits (announce : Announce) (globals : Globals) (past marks : List Mark) {α : Type}
    (post : α → List Part → Prop) (m : Emit α) : Prop :=
  ∀ s : Scope, s.Knows past →
    match firstFault? globals past marks with
    | some e => m s = .error e
    | none => ∃ a s' parts, m s = .ok (a, s') ∧ post a parts ∧
        (∀ w, Resolves announce globals w past marks parts w) ∧ s'.Knows (marks.reverse ++ past)

namespace Emits

variable {α β : Type} {past marks marks' : List Mark} {post : α → List Part → Prop}
  {post' : β → List Part → Prop} {m : Emit α}

theorem pure {a : α} (h : post a []) : Emits announce globals past [] post (Pure.pure a) :=
  fun s hs => ⟨a, s, [], rfl, h, fun _ => .done, hs⟩

theorem bind {f : α → Emit β} (h : Emits announce globals past marks post m)
    (hf : ∀ a parts, post a parts → Emits announce globals (marks.reverse ++ past) marks'
      (fun b parts' => post' b (parts ++ parts')) (f a)) :
    Emits announce globals past (marks ++ marks') post' (m >>= f) := by
  intro s hs
  have hm := h s hs
  rw [firstFault?_append, emit_run_bind]
  cases hfault : firstFault? globals past marks with
  | some e =>
      rw [hfault] at hm
      rw [hm]
      rfl
  | none =>
      rw [hfault] at hm
      obtain ⟨a, s₁, parts, hrun, hpost, hresolves, hs₁⟩ := hm
      have hfa := hf a parts hpost s₁ hs₁
      rw [hrun, Option.none_or]
      cases hfault' : firstFault? globals (marks.reverse ++ past) marks' with
      | some e =>
          rw [hfault'] at hfa
          exact hfa
      | none =>
          rw [hfault'] at hfa
          obtain ⟨b, s₂, parts', hrun', hpost', hresolves', hs₂⟩ := hfa
          refine ⟨b, s₂, parts ++ parts', hrun', hpost',
            fun w => (hresolves w).append (hresolves' w), ?_⟩
          rw [List.reverse_append, List.append_assoc]
          exact hs₂

/-- What comes back is changed without going on. -/
theorem map {f : α → β} (h : Emits announce globals past marks post m)
    (hf : ∀ a parts, post a parts → post' (f a) parts) :
    Emits announce globals past marks post' (do return f (← m)) := by
  have hreturn : ∀ a parts, post a parts → Emits announce globals (marks.reverse ++ past) []
      (fun b parts' => post' b (parts ++ parts')) (Pure.pure (f a) : Emit β) :=
    fun a parts ha => pure (by rw [List.append_nil]; exact hf a parts ha)
  have hbind := h.bind hreturn
  rwa [List.append_nil] at hbind

/-- A mark that has no part. -/
theorem leave {a : α} (h : post a []) :
    Emits announce globals past [.leave] post (Pure.pure a) :=
  fun s hs => ⟨a, s, [], rfl, h, fun _ => .leave .done, hs.locals, hs.slots⟩

theorem path {place : Location} {e : Expr} (hpath : isAttrPath e)
    (h : Emits announce globals (.path place e :: past) marks post m) :
    Emits announce globals past (.path place e :: marks) post m := by
  have hskip : Emits announce globals past [.path place e] (fun _ parts => parts = [])
      (Pure.pure PUnit.unit) := by
    intro s hs
    simp only [firstFault?, Mark.fault?, if_pos hpath, Option.none_or]
    exact ⟨⟨⟩, s, [], rfl, rfl, fun _ => .path hpath .done, hs.locals, hs.slots⟩
  refine hskip.bind (f := fun _ => m) fun _ parts hparts => ?_
  subst hparts
  exact h

/-- One emission after another, each along marks that leave the enclosing construct as it is. -/
theorem mapM {f : α → Emit β} {walk : α → List Mark} {part : β → List Part} {self : Option Nat}
    (hinner : ∀ a, Mark.Inner (walk a))
    (h : ∀ a past, Mark.owner past = self →
      Emits announce globals past (walk a) (fun b parts => parts = part b) (f a))
    (as : List α) {past : List Mark} (howner : Mark.owner past = self) :
    Emits announce globals past (as.flatMap walk) (fun bs parts => parts = bs.flatMap part)
      (as.mapM f) := by
  induction as generalizing past with
  | nil => exact pure rfl
  | cons a as ih =>
      rw [List.mapM_cons, List.flatMap_cons]
      refine (h a past howner).bind fun b parts hb => ?_
      refine (ih (((hinner a).owner past).trans howner)).map fun bs parts' hbs => ?_
      rw [hb, hbs, List.flatMap_cons]

theorem mapM_map {f : α → Emit β} {mark : α → Mark} {part : β → Part} {self : Option Nat}
    (hinner : ∀ a, Mark.Inner [mark a])
    (h : ∀ a past, Mark.owner past = self →
      Emits announce globals past [mark a] (fun b parts => parts = [part b]) (f a))
    (as : List α) {past : List Mark} (howner : Mark.owner past = self) :
    Emits announce globals past (as.map mark) (fun bs parts => parts = bs.map part)
      (as.mapM f) := by
  simp only [List.map_eq_flatMap]
  exact mapM hinner h as howner

end Emits

variable {past : List Mark} {self : Option Nat}

/-- A construct takes a slot of its own. -/
theorem Emits.enter {α : Type} {marks : List Mark} {post : α → List Part → Prop} {f : Nat → Emit α}
    (h : Emits announce globals (.enter :: past) marks
      (fun a parts => post a (.slot (Mark.slots past) :: parts)) (f (Mark.slots past))) :
    Emits announce globals past (.enter :: marks) post (Emit.alloc >>= f) := by
  have halloc : Emits announce globals past [.enter]
      (fun slot parts => slot = Mark.slots past ∧ parts = [.slot slot]) Emit.alloc := by
    intro s hs
    refine ⟨s.slots, s.alloc.2, [.slot s.slots], rfl, ⟨hs.slots, rfl⟩, fun w => ?_, hs.locals, ?_⟩
    · rw [hs.slots]
      exact .enter .done
    · simpa [Scope.alloc] using hs.slots
  refine halloc.bind fun slot parts ⟨hslot, hparts⟩ => ?_
  subst hparts hslot
  exact h

/-- A name becomes visible with the slot that is taken next. -/
theorem Scope.Knows.bindLocal {s : Scope} (hs : s.Knows past) (name : String) :
    (s.bindLocal name).2.Knows (.name name :: past) := by
  constructor
  · simp only [Scope.bindLocal, Mark.introduced, hs.locals, hs.slots]
  · simpa [Scope.bindLocal] using hs.slots

theorem emits_bindExport (name : String) : Emits announce globals past [.name name]
    (fun slot parts => parts = [.slot slot]) (Emit.bindExport name) := by
  intro s hs
  have hknows := hs.bindLocal name
  refine ⟨s.slots, (s.bindExport name).2, [.slot s.slots], rfl, rfl, fun w => ?_, hknows.locals,
    hknows.slots⟩
  rw [hs.slots]
  exact .name .done

theorem resolved_run (place : Location) (lowering : Lowering Code) (s : Scope) :
    Emit.resolved place lowering s = match lowering.run s.functions with
      | .ok (code, functions) => .ok (code, { s with functions := functions })
      | .error name => .error (.unknownName name place) := by
  rw [Emit.resolved, emit_run_bind]
  change Except.bind (.ok (s, s)) _ = _
  simp only [Except.bind]
  cases lowering.run s.functions <;> rfl

/-- Names are looked up in the scope as behind the walk to them. -/
theorem emits_resolved {place : Location} {notify : Bool} {e : Expr} {lowering : Lowering Code}
    (h : Lowering.Looks (fun name => (meaning? globals past notify name).isNone) e.occurrences
      (Code.Lowers (Means globals past notify) e) lowering) :
    Emits announce globals past [.read place notify e] (fun code parts => parts = [.code code])
      (Emit.resolved place lowering) := by
  intro s hs
  have hrun := resolved_run place lowering s
  have hlooks := h s.functions
  simp only [firstFault?, Mark.fault?, unknown?, Option.or_none]
  cases hunknown : e.occurrences.find? fun name => (meaning? globals past notify name).isNone with
  | some name =>
      rw [hunknown] at hlooks
      rw [hrun, hlooks]
      rfl
  | none =>
      rw [hunknown] at hlooks
      obtain ⟨code, functions, hlowering, hcode⟩ := hlooks
      rw [hlowering] at hrun
      exact ⟨code, { s with functions }, [.code code], hrun, rfl, fun w => .read hcode .done,
        hs.locals, hs.slots⟩

theorem emits_lowerValue (howner : Mark.owner past = self) (notify : Bool) (place : Location)
    (e : Expression) :
    Emits announce globals past [.read place notify e.expr] (fun code parts => parts = [.code code])
      (lowerValue globals self notify place e) := by
  subst howner
  intro s hs
  have hresolved : Emits announce globals past [.read place notify e.expr]
      (fun code parts => parts = [.code code]) (Emit.resolved place
        (Code.lower (resolve globals (Mark.introduced past) (Mark.owner past) notify) e.expr)) :=
    emits_resolved (lower_resolve globals past notify e.expr)
  rw [← hs.locals] at hresolved
  exact hresolved s hs

/-- A name in a target is looked up like an expression that handles no change. -/
theorem emits_lowerTarget {slot : Nat} (howner : Mark.owner past = some slot) (place : Location)
    (t : Target) :
    Emits announce globals past (walkTarget place t)
      (fun target parts => parts = [.code target.base])
      (lowerTarget globals (some slot) place t) := by
  have hbase : ∀ name (target : Code → TargetCode), (∀ code, (target code).base = code) →
      Emits announce globals past [.read place false (.name name)]
        (fun target parts => parts = [.code target.base])
        (do
          let locals := (← get).locals
          return target (← Emit.resolved place
            (resolve globals locals (some slot) false name))) := by
    intro name target htarget s hs
    have hlower := lower_resolve globals past false (.name name)
    rw [howner, ← hs.locals] at hlower
    refine Emits.map (emits_resolved hlower) ?_ s hs
    intro code parts hparts
    rw [htarget, hparts]
  cases t with
  | own attr =>
      intro s hs
      exact ⟨_, s, [.code (.slot slot)], rfl, rfl, fun w => .own howner .done, hs.locals, hs.slots⟩
  | member name attr => exact hbase name (fun base => { base, attr }) fun _ => rfl
  | element name index attr =>
      exact hbase name (fun base => { base, index := some index, attr }) fun _ => rfl

theorem emits_assignment {slot : Nat} (howner : Mark.owner past = some slot) (a : Assignment) :
    Emits announce globals past (walkAssignment a) (fun op parts => parts = op.parts)
      (emitAssignment globals (some slot) a) := by
  simp only [emitAssignment, walkAssignment, List.append_assoc]
  refine (emits_lowerTarget howner _ a.target).bind fun target parts htarget => ?_
  have howner₁ := ((Mark.walkTarget_inner ⟨a.pos, a.text⟩ a.target).owner past).trans howner
  generalize (walkTarget _ a.target).reverse ++ past = past₁ at howner₁
  have hvalue : ∀ {past'}, Mark.owner past' = some slot →
      Emits announce globals past' [.read ⟨a.pos, a.text⟩ (a.op = .notify) a.value.expr]
        (fun (op : Op) parts' => parts ++ parts' = op.parts)
        (do return Op.assign target a.op (← lowerValue globals (some slot) (a.op = .notify)
          ⟨a.pos, a.text⟩ a.value) ⟨a.pos, a.text⟩) :=
    fun howner' => (emits_lowerValue howner' _ _ _).map fun code parts' hparts => by
      rw [htarget, hparts]
      rfl
  by_cases hdelegate : a.op = .delegate
  · rw [if_pos hdelegate]
    by_cases hpath : isAttrPath a.value.expr
    · rw [if_neg fun h => h.2 hpath]
      exact .path hpath (hvalue (((Mark.Inner.path _ _).owner past₁).trans howner₁))
    · rw [if_pos ⟨hdelegate, hpath⟩]
      intro s hs
      simp only [List.cons_append, firstFault?, Mark.fault?, if_neg hpath, Option.some_or]
      rfl
  · rw [if_neg hdelegate, if_neg fun h => hdelegate h.1]
    exact hvalue howner₁

section Build

variable (announce globals past)

theorem emits_positional (howner : Mark.owner past = self) (place : Location)
    (es : List Expression) :
    Emits announce globals past (es.map fun e => .read place false e.expr)
      (fun codes parts => parts = codes.map .code)
      (es.mapM (lowerValue globals self false place)) :=
  .mapM_map (fun _ => .read _ _ _)
    (fun e _ howner => emits_lowerValue howner false place e) es howner

theorem emits_keywords (howner : Mark.owner past = self) (place : Location)
    (keywords : List (String × Expression)) :
    Emits announce globals past (keywords.map fun p => .read place false p.2.expr)
      (fun codes parts => parts = codes.map fun p => .code p.2)
      (keywords.mapM fun (name, e) => do
        return (name, ← lowerValue globals self false place e)) :=
  .mapM_map (fun _ => .read _ _ _)
    (fun p _ howner => (emits_lowerValue howner false place p.2).map fun _ _ => id) keywords howner

theorem emits_unpack (names : List String) :
    Emits announce globals past (names.map .name) (fun slots parts => parts = slots.map .slot)
      (names.mapM Emit.bindExport) :=
  .mapM_map (fun _ => .name _) (fun name _ _ => emits_bindExport name) names rfl

theorem emits_captures (captures : List Capture) :
    Emits announce globals past (captures.map fun capture => .name capture.name)
      (fun slots parts => parts = slots.map fun p => .slot p.1)
      (captures.mapM fun capture => do return (← Emit.bindExport capture.name, capture.attr)) :=
  .mapM_map (fun _ => .name _)
    (fun capture _ _ => (emits_bindExport capture.name).map fun _ _ => id) captures rfl

end Build

/-- The slot of a construct is taken between its arguments and its names. -/
theorem emits_build (announce : Announce) (globals : Globals) (howner : Mark.owner past = self)
    (c : Construct) :
    Emits announce globals past (walkArguments c ++ (.enter :: walkNames c))
      (fun b parts => b.selfSlot = Mark.slots ((walkArguments c).reverse ++ past) ∧
        parts = (Op.build b).parts)
      (emitBuild globals self c) := by
  have harguments : walkArguments c =
      c.positional.map (fun e => .read ⟨c.pos, c.header⟩ false e.expr) ++
        c.keywords.map fun p => .read ⟨c.pos, c.header⟩ false p.2.expr := by
    simp [walkArguments, Function.comp_def]
  have hnames : walkNames c =
      c.unpack.map .name ++ c.captures.map fun capture => .name capture.name := by
    simp [walkNames, Function.comp_def]
  rw [harguments, hnames, List.append_assoc, emitBuild]
  refine (emits_positional announce globals past howner _ _).bind fun args _ hargs => ?_
  have howner₁ : Mark.owner ((c.positional.map fun e =>
      Mark.read ⟨c.pos, c.header⟩ false e.expr).reverse ++ past) = self :=
    ((Mark.Inner.map fun _ => .read _ _ _).owner past).trans howner
  refine (emits_keywords announce globals _ howner₁ _ _).bind fun keywords _ hkeywords => ?_
  refine .enter ?_
  refine (emits_unpack announce globals _ _).bind fun unpack _ hunpack => ?_
  refine (emits_captures announce globals _ _).map fun captures _ hcaptures => ⟨?_, ?_⟩
  · rw [List.reverse_append, List.append_assoc]
  · subst hargs hkeywords hunpack hcaptures
    simp [Op.parts, Function.comp_def]

/-- Behind the names of a construct its own slot is that of the innermost open one. -/
theorem owner_opened (past : List Mark) (c : Construct) : Mark.owner
    ((walkArguments c ++ (.enter :: walkNames c)).reverse ++ past) =
      some (Mark.slots ((walkArguments c).reverse ++ past)) := by
  have hsplit : (walkArguments c ++ (.enter :: walkNames c)).reverse ++ past =
      (walkNames c).reverse ++ .enter :: ((walkArguments c).reverse ++ past) := by
    simp
  rw [hsplit, (Mark.walkNames_inner c).owner]
  rfl

mutual

/-- A construct is emitted along the walk through it, and every construct in it along a part of that
walk. -/
theorem emits_construct : ∀ (c : Construct) {past : List Mark} {self : Option Nat},
    Mark.owner past = self → Emits announce globals past (walkConstruct c)
      (fun ops parts => parts = ops.flatMap Op.parts) (emitConstruct globals self c)
  | ⟨typeName, arguments, unpack, captures, body, pos⟩, past, self, howner => by
      have hbuild := emits_build announce globals howner
        ⟨typeName, arguments, unpack, captures, [], pos⟩
      simp only [walkConstruct, emitConstruct]
      generalize Construct.mk typeName arguments unpack captures [] pos = c at hbuild
      have hmarks : walkArguments c ++ (.enter :: (walkNames c ++ walkBody body) ++ [.leave]) =
          (walkArguments c ++ (.enter :: walkNames c)) ++ (walkBody body ++ [.leave]) := by
        simp
      rw [hmarks]
      refine hbuild.bind fun b parts ⟨hslot, hparts⟩ => ?_
      have howner₁ := owner_opened past c
      rw [← hslot] at howner₁
      refine (emits_body body howner₁).bind fun inner parts' hinner => .leave ?_
      subst hparts hinner
      simp [Op.parts]

theorem emits_body : ∀ (items : List (BodyItem Construct)) {past : List Mark} {slot : Nat},
    Mark.owner past = some slot → Emits announce globals past (walkBody items)
      (fun ops parts => parts = ops.flatMap Op.parts) (emitBody globals slot items)
  | [], past, slot, howner => .pure rfl
  | item :: items, past, slot, howner => by
      simp only [walkBody, emitBody]
      refine (emits_item item howner).bind fun ops parts hops => ?_
      have howner₁ := ((Mark.walkItem_inner item).owner past).trans howner
      refine (emits_body items howner₁).map fun ops' parts' hops' => ?_
      rw [hops, hops', List.flatMap_append]

theorem emits_item : ∀ (item : BodyItem Construct) {past : List Mark} {slot : Nat},
    Mark.owner past = some slot → Emits announce globals past (walkItem item)
      (fun ops parts => parts = ops.flatMap Op.parts) (emitItem globals slot item)
  | .assignment a, past, slot, howner => (emits_assignment howner a).map fun op parts hop => by
      rw [hop, List.flatMap_cons, List.flatMap_nil, List.append_nil]
  | .child c, past, slot, howner => emits_construct c howner

end

/-! ## Programs -/

/-- The parameters become visible one after another, in slots of their own. -/
theorem emits_params (params : List String) : Emits announce globals past (params.map .name)
    (fun _ parts => parts = (List.range' (Mark.slots past) params.length).map .slot)
    (forIn params PUnit.unit fun name _ => do
      modify fun s => (s.bindLocal name).2
      pure (ForInStep.yield PUnit.unit) : Emit PUnit) := by
  intro s hs
  have hfault : ∀ (names : List String) past,
      firstFault? globals past (names.map .name) = none := by
    intro names
    induction names with
    | nil => exact fun _ => rfl
    | cons name names ih => exact fun past => ih (.name name :: past)
  have hresolves : ∀ (names : List String) past w, Resolves announce globals w past
      (names.map .name) ((List.range' (Mark.slots past) names.length).map .slot) w := by
    intro names
    induction names with
    | nil => exact fun _ _ => .done
    | cons name names ih =>
        intro past w
        have hrest := ih (.name name :: past) w
        rw [Mark.slots_name] at hrest
        exact .name hrest
  have hknows : ∀ (names : List String) {past s}, Scope.Knows s past →
      (names.foldl (fun s name => (s.bindLocal name).2) s).Knows
        ((names.map Mark.name).reverse ++ past) := by
    intro names
    induction names with
    | nil => exact fun hs => hs
    | cons name names ih =>
        intro past s hs
        simpa using ih (hs.bindLocal name)
  rw [hfault, emit_params]
  exact ⟨_, _, _, rfl, rfl, hresolves params past, hknows params hs⟩

/-- A program is emitted along the walk through its parameters and its constructs. -/
theorem emitProgram_run (announce : Announce) (globals : Globals) (params : List String)
    (body : List Construct) (functions : Nat) (hslots : Mark.slots past = 0)
    (hintroduced : Mark.introduced past = []) (howner : Mark.owner past = none) :
    match firstFault? globals past (params.map .name ++ body.flatMap walkConstruct) with
    | some e => emitProgram globals params body functions = .error e
    | none => ∃ p n, emitProgram globals params body functions = .ok (p, n) ∧
        ∀ w, Resolves announce globals w past (params.map .name ++ body.flatMap walkConstruct)
          ((List.range params.length).map .slot ++ p.ops.flatMap Op.parts) w := by
  have hknows : ({ functions } : Scope).Knows past := ⟨hintroduced.symm, hslots.symm⟩
  have howner' : Mark.owner ((params.map Mark.name).reverse ++ past) = none :=
    ((Mark.Inner.map .name).owner past).trans howner
  have hconstruct : ∀ (c : Construct) past, Mark.owner past = none →
      Emits announce globals past (walkConstruct c) (fun ops parts => parts = ops.flatMap Op.parts)
        (emitConstruct globals none c) :=
    fun c _ howner => emits_construct c howner
  have hbody := Emits.mapM Mark.walkConstruct_inner hconstruct body howner'
  have hemits : Emits announce globals past (params.map .name ++ body.flatMap walkConstruct)
      (fun ops parts => parts = (List.range params.length).map .slot ++ ops.flatMap Op.parts)
      (do
        for name in params do
          modify fun s => (s.bindLocal name).2
        return (← body.mapM (emitConstruct globals none)).flatten) := by
    refine (emits_params params).bind fun _ parts hparts => hbody.map fun opss parts' hparts' => ?_
    rw [hparts, hparts', hslots, List.range_eq_range', ← List.flatMap_id, List.flatMap_assoc]
    rfl
  have hrun := hemits _ hknows
  simp only [emitProgram, StateT.run]
  revert hrun
  generalize (do
    for name in params do
      modify fun s => (s.bindLocal name).2
    return (← body.mapM (emitConstruct globals none)).flatten : Emit (List Op)) { functions } = r
  cases firstFault? globals past (params.map .name ++ body.flatMap walkConstruct) with
  | some e =>
      intro hrun
      rw [hrun]
      rfl
  | none =>
      rintro ⟨ops, s, parts, hrun, hparts, hresolves, -⟩
      subst hrun hparts
      exact ⟨⟨ops, s.slots, s.exports⟩, s.functions, rfl, hresolves⟩

end Emission

end LiveUI.Template
