import LiveUI.Proofs.Template.Emission

/-! # Names are resolved in the order of the text

A define is compiled along the walk through it. Its defaults are lowered and evaluated on the way to
its names, each in the world that the one before has left, and then its constructs are emitted. So
compiling fails just with the first violation of the walk, and without a violation every name in the
result has the meaning that it has on the walk. -/

namespace LiveUI.Template

open Markup

variable {announce : Announce} {globals : Globals} {define : String}

theorem compiling_run_lift {α : Type} (m : Step α) (w : World) :
    (ExceptT.lift m : Compiling α).run w = (m w).map fun r => (.ok r.1, r.2) := by
  change (m w).bind _ = _
  cases m w <;> rfl

/-! ## Violations -/

theorem FirstFault.of_fault {w : World} {past marks : List Mark} {m : Mark} {e e' : CompileError}
    (h : m.fault? globals past = some e) :
    FirstFault announce globals define w past (m :: marks) e' ↔ e' = e := by
  constructor
  · intro hfirst
    cases hfirst with
    | here h' => exact Option.some.inj (h'.symm.trans h)
    | fails hfault _ => cases hfault.symm.trans h
    | later hfault _ _ => cases hfault.symm.trans h
  · rintro rfl
    exact .here h

/-- Behind the defaults the world plays no part. -/
theorem firstFault_iff {marks : List Mark} (h : ∀ param e, .default param e ∉ marks) {w : World}
    {past : List Mark} {e : CompileError} :
    FirstFault announce globals define w past marks e ↔
      firstFault? globals past marks = some e := by
  induction marks generalizing past with
  | nil => exact iff_of_false (fun h => nomatch h) (fun h => nomatch h)
  | cons m marks ih =>
      have hrest : FirstFault announce globals define w (m :: past) marks e ↔
          firstFault? globals (m :: past) marks = some e :=
        ih fun param e hmem => h param e (List.mem_cons_of_mem _ hmem)
      simp only [firstFault?]
      cases hfault : m.fault? globals past with
      | some e' =>
          rw [FirstFault.of_fault hfault, Option.some_or, Option.some.injEq]
          exact eq_comm
      | none =>
          rw [Option.none_or, ← hrest]
          constructor
          · intro hfirst
            cases hfirst with
            | here h' => cases h'.symm.trans hfault
            | fails _ _ => exact absurd List.mem_cons_self (h _ _)
            | later _ hpasses hfirst =>
                cases m with
                | default param e => exact absurd List.mem_cons_self (h param e)
                | name | enter | leave | read | own | path =>
                    cases hpasses
                    exact hfirst
          · intro hfirst
            refine .later hfault ?_ hfirst
            cases m with
            | default param e => exact absurd List.mem_cons_self (h param e)
            | name | enter | leave | read | own | path => exact rfl

/-! ## Defaults -/

/-- Marks behind which nothing has been introduced. -/
structure Mark.Bare (past : List Mark) : Prop where
  slots : Mark.slots past = 0
  introduced : Mark.introduced past = []
  owner : Mark.owner past = none

theorem Mark.Bare.default {past : List Mark} (h : Mark.Bare past) (param : String)
    (e : Expression) : Mark.Bare (.default param e :: past) := by
  constructor
  · rw [← h.slots]
    exact List.countP_cons_of_neg Bool.false_ne_true
  · exact h.introduced
  · exact h.owner

/-- Globals and builtins are all that there is where nothing has been introduced. -/
theorem constantNamed_eq_resolve {past : List Mark} (h : Mark.Bare past) :
    constantNamed globals =
      resolve globals (Mark.introduced past) (Mark.owner past) false := by
  funext name
  rw [h.introduced, h.owner]
  simp only [resolve, List.find?_nil]
  split
  · contradiction
  · rfl
  · rfl

/-- A default is lowered, if it has no name without a meaning, and its value is that of its code. -/
theorem evalDefault_run (announce : Announce) (globals : Globals) (define : String)
    {past : List Mark} (h : Mark.Bare past) (param : String) (e : Expression) (w : World) :
    match (Mark.default param e).fault? globals past with
    | some err => (evalDefault announce globals define param e).run w = some (.error err, w)
    | none => ∃ code n, Code.Lowers (Means globals past false) e.expr code ∧
        (evalDefault announce globals define param e).run w =
          (code.value (applyFunc announce) { frame := {} } { w with nextFunction := n }).map
            fun r => (r.1.mapError (.default define param), r.2) := by
  have hlower := lower_resolve globals past false e.expr w.nextFunction
  rw [← constantNamed_eq_resolve h] at hlower
  simp only [evalDefault, run_bind_eq, withFunctions_run, Mark.fault?, unknown?]
  cases hunknown : e.expr.occurrences.find? fun name =>
      (meaning? globals past false name).isNone with
  | some name =>
      rw [hunknown] at hlower
      simp only [hlower, Option.map_some]
      rfl
  | none =>
      rw [hunknown] at hlower
      obtain ⟨code, n, hrun, hcode⟩ := hlower
      refine ⟨code, n, hcode, ?_⟩
      simp only [hrun, Option.bind_some, compiling_run_lift]
      generalize ({ w with nextFunction := n } : World) = w₁
      cases code.value (applyFunc announce) { frame := {} } w₁ with
      | none => rfl
      | some r =>
          obtain ⟨r, w'⟩ := r
          cases r <;> rfl

/-- A compilation goes along `marks`: it fails with their first violation, and without one it
resolves them into the parts that `post` allows and comes to where the rest of the walk goes on. -/
def Visits (announce : Announce) (globals : Globals) (define : String) (past marks : List Mark)
    {α : Type} (post : α → List Part → Prop) (m : Compiling α) : Prop :=
  ∀ w, match m.run w with
    | none => ∀ rest e, ¬FirstFault announce globals define w past (marks ++ rest) e
    | some (.error e, _) =>
        ∀ rest e', FirstFault announce globals define w past (marks ++ rest) e' ↔ e' = e
    | some (.ok a, w') =>
        (∃ parts, post a parts ∧ Resolves announce globals w past marks parts w') ∧
        ∀ rest e, FirstFault announce globals define w past (marks ++ rest) e ↔
          FirstFault announce globals define w' (marks.reverse ++ past) rest e

namespace Visits

variable {α β : Type} {past marks marks' : List Mark} {post : α → List Part → Prop}
  {post' : β → List Part → Prop} {m : Compiling α}

theorem pure {a : α} (h : post a []) :
    Visits announce globals define past [] post (Pure.pure a) :=
  fun _ => ⟨⟨[], h, .done⟩, fun _ _ => Iff.rfl⟩

theorem bind {f : α → Compiling β} (h : Visits announce globals define past marks post m)
    (hf : ∀ a parts, post a parts → Visits announce globals define (marks.reverse ++ past) marks'
      (fun b parts' => post' b (parts ++ parts')) (f a)) :
    Visits announce globals define past (marks ++ marks') post' (m >>= f) := by
  intro w
  have hm := h w
  simp only [run_bind_eq, List.append_assoc]
  cases hrun : m.run w with
  | none =>
      rw [hrun] at hm
      exact fun rest => hm (marks' ++ rest)
  | some r =>
      obtain ⟨r, w₁⟩ := r
      rw [hrun] at hm
      cases r with
      | error e => exact fun rest => hm (marks' ++ rest)
      | ok a =>
          obtain ⟨⟨parts, hpost, hresolves⟩, hiff⟩ := hm
          have hfa := hf a parts hpost w₁
          simp only [Option.bind_some, hiff]
          cases hrun' : (f a).run w₁ with
          | none =>
              rw [hrun'] at hfa
              exact hfa
          | some r =>
              obtain ⟨r, w₂⟩ := r
              rw [hrun'] at hfa
              cases r with
              | error e => exact hfa
              | ok b =>
                  obtain ⟨⟨parts', hpost', hresolves'⟩, hiff'⟩ := hfa
                  rw [List.reverse_append, List.append_assoc]
                  exact ⟨⟨parts ++ parts', hpost', hresolves.append hresolves'⟩, hiff'⟩

theorem map {f : α → β} (h : Visits announce globals define past marks post m)
    (hf : ∀ a parts, post a parts → post' (f a) parts) :
    Visits announce globals define past marks post' (do return f (← m)) := by
  have hreturn : ∀ a parts, post a parts → Visits announce globals define (marks.reverse ++ past) []
      (fun b parts' => post' b (parts ++ parts')) (Pure.pure (f a) : Compiling β) :=
    fun a parts ha => pure (by rw [List.append_nil]; exact hf a parts ha)
  have hbind := h.bind hreturn
  rwa [List.append_nil] at hbind

end Visits

/-- A default comes to what its evaluation comes to. -/
theorem visits_default {past : List Mark} (h : Mark.Bare past) (param : String) (e : Expression) :
    Visits announce globals define past [.default param e] (fun v parts => parts = [.value param v])
      (evalDefault announce globals define param e) := by
  intro w
  have hrun := evalDefault_run announce globals define h param e w
  cases hfault : (Mark.default param e).fault? globals past with
  | some err =>
      rw [hfault] at hrun
      rw [hrun]
      exact fun _ _ => FirstFault.of_fault hfault
  | none =>
      rw [hfault] at hrun
      obtain ⟨code, n, hcode, hrun⟩ := hrun
      -- Without a name to blame, the evaluation fails or the first violation lies further on.
      have hcases : ∀ rest err, FirstFault announce globals define w past
          (.default param e :: rest) err ↔
          (∃ cause w', (evalDefault announce globals define param e).run w =
            some (.error (.default define param cause), w') ∧ err = .default define param cause) ∨
          ∃ v w', (evalDefault announce globals define param e).run w = some (.ok v, w') ∧
            FirstFault announce globals define w' (.default param e :: past) rest err := by
        intro rest err
        constructor
        · intro hfirst
          cases hfirst with
          | here h' => cases h'.symm.trans hfault
          | fails _ h => exact .inl ⟨_, _, h, rfl⟩
          | later _ hpasses hfirst =>
              obtain ⟨v, hv⟩ := hpasses
              exact .inr ⟨v, _, hv, hfirst⟩
        · rintro (⟨cause, w', h, rfl⟩ | ⟨v, w', h, hfirst⟩)
          · exact .fails hfault h
          · exact .later hfault ⟨v, h⟩ hfirst
      simp only [List.singleton_append, hcases, hrun]
      cases hvalue : code.value (applyFunc announce) { frame := {} }
          { w with nextFunction := n } with
      | none => simp
      | some r =>
          obtain ⟨r, w'⟩ := r
          cases r with
          | error cause => simp [Except.mapError]
          | ok v =>
              exact ⟨⟨_, rfl, .default hcode hvalue .done⟩, by simp [Except.mapError]⟩

/-- The value of the default of one parameter. -/
def evalParameter (announce : Announce) (globals : Globals) (d : Define) (param : String × Nat) :
    Compiling (String × Option Value) := do
  match d.parameters.default? param.2 with
  | some e => return (param.1, some (← evalDefault announce globals d.name param.1 e))
  | none => return (param.1, none)

theorem evalParameters_eq (announce : Announce) (globals : Globals) (d : Define) :
    evalParameters announce globals d =
      (d.parameters.names.zip (List.range d.parameters.names.length)).mapM
        (evalParameter announce globals d) :=
  rfl

/-- The defaults are evaluated along the walk through them. -/
theorem visits_parameters (announce : Announce) (globals : Globals) (d : Define)
    (params : List (String × Nat)) {past : List Mark} (h : Mark.Bare past) :
    Visits announce globals d.name past (params.filterMap (defaultMark? d.parameters))
      (fun values parts => Mark.Bare
          ((params.filterMap (defaultMark? d.parameters)).reverse ++ past) ∧
        parts = values.filterMap fun (param, v) => v.map (.value param))
      (params.mapM (evalParameter announce globals d)) := by
  induction params generalizing past with
  | nil => exact .pure ⟨h, rfl⟩
  | cons param params ih =>
      rw [List.mapM_cons, List.filterMap_cons]
      cases hdefault : d.parameters.default? param.2 with
      | none =>
          simp only [evalParameter, defaultMark?, hdefault, Option.map_none, pure_bind]
          refine (ih h).map fun values parts ⟨hbare, hparts⟩ => ⟨hbare, ?_⟩
          rw [hparts, List.filterMap_cons, Option.map_none]
      | some e =>
          simp only [evalParameter, defaultMark?, hdefault, Option.map_some, bind_assoc, pure_bind]
          refine (visits_default h param.1 e).bind fun v parts hparts => ?_
          refine (ih (h.default param.1 e)).map fun values parts' ⟨hbare, hparts'⟩ => ⟨?_, ?_⟩
          · simpa using hbare
          · rw [hparts, hparts', List.filterMap_cons, Option.map_some, List.singleton_append]

/-! ## Defines -/

/-- Compiling a define fails just with the first violation of the walk through it: a name without a
meaning, a `:=` without an attribute path or a default that has no value. Without a violation it
gives every name the meaning that it has on the walk, and what is introduced the slots that it takes
there. -/
theorem compileDefine_scoped (announce : Announce) (globals : Globals) (d : Define) (w : World) :
    (∀ e, (∃ w', (compileDefine announce globals d).run w = some (.error e, w')) ↔
      FirstFault announce globals d.name w [] (walkDefine d) e) ∧
    ∀ compiled w', (compileDefine announce globals d).run w = some (.ok compiled, w') →
      ∃ w₁, Resolves announce globals w [] (walkDefine d) compiled.parts w₁ := by
  have hbare : Mark.Bare [] := ⟨rfl, rfl, rfl⟩
  have hparams := visits_parameters announce globals d
    (d.parameters.names.zip (List.range d.parameters.names.length)) hbare w
  rw [← evalParameters_eq] at hparams
  simp only [compileDefine, run_bind_eq, compiling_run_lift, withFunctions_run, walkDefine]
  -- The defaults are evaluated before the body is compiled, so their faults come first.
  cases hvalues : (evalParameters announce globals d).run w with
  | none =>
      rw [hvalues] at hparams
      refine ⟨fun e => iff_of_false (fun h => ?_) (hparams _ e), fun compiled w' h => ?_⟩
      · obtain ⟨w', h⟩ := h
        cases h
      · cases h
  | some r =>
      obtain ⟨r, w₁⟩ := r
      rw [hvalues] at hparams
      cases r with
      | error e' =>
          refine ⟨fun e => ((hparams _ e).trans ?_).symm, fun compiled w' h => ?_⟩
          · simp [eq_comm]
          · cases h
      | ok values =>
          obtain ⟨⟨parts, ⟨hbehind, hparts⟩, hresolves⟩, hiff⟩ := hparams
          have hlength : values.length = d.parameters.names.length := by
            rw [← evalParameters_names hvalues, List.length_map]
          have hemit := emitProgram_run announce globals d.parameters.names d.body w₁.nextFunction
            hbehind.slots hbehind.introduced hbehind.owner
          have hinner : Mark.Inner
              (d.parameters.names.map .name ++ d.body.flatMap walkConstruct) :=
            (Mark.Inner.map .name).append (Mark.Inner.flatMap Mark.walkConstruct_inner)
          simp only [walkDefaults, hiff, firstFault_iff hinner.noDefault, Option.bind_some]
          cases hfault : firstFault? globals
              ((List.filterMap (defaultMark? d.parameters) _).reverse ++ [])
              (d.parameters.names.map .name ++ d.body.flatMap walkConstruct) with
          | some e' =>
              rw [hfault] at hemit
              simp only [hemit]
              refine ⟨fun e => ?_, fun compiled w' h => ?_⟩
              · simp
              · cases h
          | none =>
              rw [hfault] at hemit
              obtain ⟨p, n, hrun, hbody⟩ := hemit
              simp only [hrun]
              refine ⟨fun e => iff_of_false (fun h => ?_) (fun h => nomatch h),
                fun compiled w' h => ?_⟩
              · obtain ⟨w', h⟩ := h
                cases h
              · cases h
                refine ⟨w₁, ?_⟩
                rw [CompiledDefine.parts, hlength, ← hparts]
                exact hresolves.append (hbody w₁)

/-- A box with a label in it that reads the box and the changes of itself. -/
def panel : Define where
  name := "Panel"
  parameters := { names := ["size"], defaults := [⟨"limit", .name "limit", {}⟩] }
  body := [{
    typeName := "Box"
    unpack := ["box"]
    body := [.child {
      typeName := "Label"
      arguments := [.positional ⟨"self.title", .attr (.name "self") "title", {}⟩]
      captures := [⟨"title", "text"⟩]
      body := [.assignment {
        target := .own "clicked", op := .notify, value := ⟨"args", .name "args", {}⟩ }] }] }]

/-- A label in front of the box that it reads. -/
def misplaced : Define where
  name := "Panel"
  body := [
    { typeName := "Label"
      arguments := [.positional ⟨"box.title", .attr (.name "box") "title", {}⟩] },
    { typeName := "Box", unpack := ["box"] }]

def limits : Globals :=
  [("limit", .int 3), ("limit", .int 5)]

theorem compileDefine_scoped_panel :
    (∃ compiled w' w₁,
      (compileDefine (LiveUI.announce 8) limits panel).run {} = some (.ok compiled, w') ∧
      Resolves (LiveUI.announce 8) limits {} [] (walkDefine panel) compiled.parts w₁) ∧
    ∃ place w', (compileDefine (LiveUI.announce 8) limits misplaced).run {} =
        some (.error (.unknownName "box" place), w') ∧
      FirstFault (LiveUI.announce 8) limits "Panel" {} [] (walkDefine misplaced)
        (.unknownName "box" place) := by
  have hpanel : ∃ compiled w', (compileDefine (LiveUI.announce 8) limits panel).run {} =
      some (.ok compiled, w') := by
    have hok : ((compileDefine (LiveUI.announce 8) limits panel).run {}).map (·.1.isOk) =
        some true := by decide +kernel
    obtain ⟨⟨r, w'⟩, hrun, hr⟩ := Option.map_eq_some_iff.1 hok
    cases r with
    | error e => cases hr
    | ok compiled => exact ⟨compiled, w', hrun⟩
  have hmisplaced : ∃ place w', (compileDefine (LiveUI.announce 8) limits misplaced).run {} =
      some (.error (.unknownName "box" place), w') := ⟨_, _, rfl⟩
  constructor
  · obtain ⟨compiled, w', hrun⟩ := hpanel
    obtain ⟨w₁, hresolves⟩ := (compileDefine_scoped _ limits panel {}).2 _ _ hrun
    exact ⟨compiled, w', w₁, hrun, hresolves⟩
  · obtain ⟨place, w', hrun⟩ := hmisplaced
    exact ⟨place, w', hrun, ((compileDefine_scoped _ limits misplaced {}).1 _).mp ⟨w', hrun⟩⟩

end LiveUI.Template
