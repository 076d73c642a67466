import LiveUI.Proofs.Template.Nesting

/-! # Compiled templates do what the interpreter does

A program runs on a fresh frame that holds the values of its parameters. It comes to the instances
and the exports to which the interpreter comes, or to the same error, and leaves the same world: the
bindings that it has made read their values from the frame, those of the interpreter have them in
their code. -/

namespace LiveUI.Template

open Markup

section Agreements

variable {announce : Announce} {globals : Globals} {registry : Registry}
  {builder : Factory → Builder}

/-! ## Roots -/

/-- The last operation of an outermost construct adds what it has built to the roots. -/
theorem closeRoot_agrees {m : Machine} {done : List Instance} (hstack : m.stack = [done]) :
    runOp announce registry builder m .close =
      pure { m with stack := [], roots := m.roots ++ done } := by
  simp only [runOp, closeConstruct, hstack]
  rfl

theorem roots_agree (ha : ∀ c, Step.Respects (announce c)) (hb : Blind registry builder)
    {s s' : Scope} {env : Environment} {m : Machine} {body : List Construct}
    {parts : List (List Op)} (hstack : m.stack = []) (h : Mirrors s m.frame env)
    (hemit : body.mapM (emitConstruct globals none) s = .ok (parts, s')) :
    Building.Agrees (fun m' p => m'.roots = m.roots ++ p.1.flatten ∧ Goes s s' m.frame m'.frame p.2)
      (parts.flatten.foldlM (runOp announce registry builder) m)
      ((body.mapM (interpretConstruct announce globals registry builder none)).run env) := by
  induction body generalizing s env m parts with
  | nil =>
      cases hemit
      exact .pure ⟨(List.append_nil _).symm, h.goes⟩
  | cons c body ih =>
      rw [List.mapM_cons] at hemit
      obtain ⟨ops, s₁, hfirst, hemit⟩ := emit_bind hemit
      obtain ⟨parts, s₂, hrest, hemit⟩ := emit_bind hemit
      cases hemit
      obtain ⟨opening, rfl, hconstruct⟩ := construct_agrees ha hb h .none hfirst
      simp only [List.mapM_cons, StateT.run_bind, StateT.run_pure, List.flatten_cons,
        List.foldlM_append, List.foldlM_cons, List.foldlM_nil, bind_assoc, pure_bind]
      refine hconstruct.bind fun m₁ ⟨instances, env₁⟩ hran => ?_
      have hstack₁ : m₁.stack = [instances] := hran.stack.trans (congrArg _ hstack)
      rw [closeRoot_agrees hstack₁, pure_bind]
      rw [← bind_pure (List.foldlM ..)]
      refine (ih (m := { m₁ with stack := [], roots := m₁.roots ++ instances }) rfl
        hran.goes.mirrors hrest).bind fun m' ⟨roots, env'⟩ ⟨hroots, hgoes⟩ => .pure ⟨?_, ?_⟩
      · dsimp only at hroots
        rw [hroots, hran.roots, List.flatten_cons, List.append_assoc]
      · exact hran.goes.trans hgoes

/-! ## Programs -/

theorem emit_params (params : List String) (s : Scope) :
    (forIn params PUnit.unit fun name _ => do
      modify fun s => (s.bindLocal name).2
      pure (ForInStep.yield PUnit.unit) : Emit PUnit) s =
        .ok (⟨⟩, params.foldl (fun s name => (s.bindLocal name).2) s) := by
  induction params generalizing s with
  | nil => rfl
  | cons name params ih =>
      rw [List.forIn_cons]
      exact ih _

theorem emitProgram_ok {params : List String} {body : List Construct} {functions n : Nat}
    {p : Program} (hemit : emitProgram globals params body functions = .ok (p, n)) :
    ∃ parts s', body.mapM (emitConstruct globals none)
        (params.foldl (fun s name => (s.bindLocal name).2) { functions }) = .ok (parts, s') ∧
      p = ⟨parts.flatten, s'.slots, s'.exports⟩ := by
  simp only [emitProgram] at hemit
  generalize hrun : StateT.run _ _ = r at hemit
  cases r with
  | error e => cases hemit
  | ok r =>
      obtain ⟨ops, s⟩ := r
      cases hemit
      obtain ⟨_, s₁, hparams, hrun⟩ := emit_bind hrun
      rw [emit_params] at hparams
      cases hparams
      obtain ⟨parts, s', hparts, hrun⟩ := emit_bind hrun
      cases hrun
      exact ⟨parts, _, hparts, rfl⟩

/-- A run has a number, by which nothing goes that the interpreter does. -/
theorem beginRun_agrees {γ δ : Type} {R : γ → δ → Prop} {n : Building δ} {values : List Value}
    {k : Nat → Building γ} (h : ∀ run, Building.Agrees R (k run) n) :
    Building.Agrees R (modifyGetThe World (·.beginRun values) >>= k) n :=
  fun w w' hw => h w.nextRun (w.beginRun values).2 w' hw

theorem program_agrees (ha : ∀ c, Step.Respects (announce c)) (hb : Blind registry builder)
    {params : List String} {values : List Value} {body : List Construct} {functions n : Nat}
    {p : Program} (hlength : values.length = params.length)
    (hemit : emitProgram globals params body functions = .ok (p, n)) :
    Building.Agrees Eq
      (p.run announce registry builder (values.zipIdx.foldl
        (fun (frame : Frame) (v, slot) => frame.set slot v) (Frame.ofSize p.slots)))
      (interpret announce globals registry builder (params.zip values) body functions) := by
  obtain ⟨parts, s', hparts, rfl⟩ := emitProgram_ok hemit
  have hstart : Mirrors { functions } (Frame.ofSize s'.slots) { functions } := by
    refine ⟨rfl, rfl, rfl, ?_, ?_⟩ <;> simp
  have hparams := (hstart.bindLocals hlength).mirrors
  simp only [List.append_nil] at hparams
  refine beginRun_agrees fun run => ?_
  have hroots := roots_agree ha hb (m := { run, frame := _ }) rfl hparams hparts
  refine hroots.bind fun m' ⟨roots, env'⟩ ⟨hroots, hgoes⟩ => .pure ?_
  have hexports := hgoes.mirrors.exports
  dsimp only at hroots hexports
  rw [hroots, hexports, List.nil_append]

/-! ## Defines -/

theorem bindKeywords_length {params : List (String × Option Value)} :
    ∀ {keywords : List (String × Value)} {bound bound' : List (Option Value)},
      bindKeywords params keywords bound = .ok bound' → bound'.length = bound.length
  | [], bound, bound', h => by
      cases h
      rfl
  | (name, v) :: rest, bound, bound', h => by
      simp only [bindKeywords] at h
      split at h
      · cases h
      · split at h
        · cases h
        · rw [bindKeywords_length h, List.length_set]

theorem bindDefaults_length : ∀ {bound : List (Option Value × String × Option Value)}
    {values : List Value}, bindDefaults bound = .ok values → values.length = bound.length
  | [], values, h => by
      cases h
      rfl
  | (given, name, default) :: rest, values, h => by
      simp only [bindDefaults] at h
      split at h
      next v heq =>
        cases hrest : bindDefaults rest with
        | error e =>
            rw [hrest] at h
            cases h
        | ok values' =>
            rw [hrest] at h
            cases h
            simp only [List.length_cons, bindDefaults_length hrest]
      next => cases h

/-- Each parameter gets a value. -/
theorem bindArguments_length {params : List (String × Option Value)} {args : List Value}
    {keywords : List (String × Value)} {values : List Value}
    (h : bindArguments params args keywords = .ok values) : values.length = params.length := by
  simp only [bindArguments] at h
  split at h
  · cases h
  next hle =>
    generalize hbound : bindKeywords _ _ _ = r at h
    cases r with
    | error e => cases h
    | ok bound =>
        have hlength := bindKeywords_length hbound
        have hvalues := bindDefaults_length h
        simp only [List.length_append, List.length_map, List.length_replicate,
          List.length_zip] at hlength hvalues
        omega

theorem instantiate_agrees (ha : ∀ c, Step.Respects (announce c)) (hb : Blind registry builder)
    {d : CompiledDefine} {body : List Construct} {functions n : Nat}
    (hemit : emitProgram globals (d.params.map (·.1)) body functions = .ok (d.program, n))
    (args : List Value) (keywords : List (String × Value)) :
    Building.Agrees Eq (d.instantiate announce registry builder args keywords)
      (interpretDefine announce globals registry builder d.name d.params body functions args
        keywords) := by
  simp only [CompiledDefine.instantiate, interpretDefine]
  cases hvalues : bindArguments d.params args keywords with
  | error fault => exact .throw _
  | ok values =>
      refine program_agrees ha hb ?_ hemit
      rw [bindArguments_length hvalues, List.length_map]

/-! ## Compiling -/

theorem run_bind_eq {ε α β : Type} (m : ExceptT ε Step α) (f : α → ExceptT ε Step β) (w : World) :
    (m >>= f).run w = (m.run w).bind fun r => match r.1 with
      | .ok a => (f a).run r.2
      | .error e => some (.error e, r.2) := by
  change (m.run w).bind _ = _
  congr 1
  funext ⟨r, v⟩
  cases r <;> rfl

theorem compiling_bind {α β : Type} {m : Compiling α} {f : α → Compiling β} {b : β} {w w' : World}
    (h : (m >>= f).run w = some (.ok b, w')) :
    ∃ a v, m.run w = some (.ok a, v) ∧ (f a).run v = some (.ok b, w') := by
  rw [run_bind_eq] at h
  cases hm : m.run w with
  | none => simp [hm] at h
  | some r =>
      obtain ⟨r, v⟩ := r
      cases r with
      | error e => simp [hm] at h
      | ok a => exact ⟨a, v, rfl, by simpa [hm] using h⟩

theorem withFunctions_run {α : Type} (f : Nat → Except CompileError (α × Nat)) (w : World) :
    (withFunctions f).run w = match f w.nextFunction with
      | .ok (a, n) => some (.ok a, { w with nextFunction := n })
      | .error e => some (.error e, w) := by
  rw [withFunctions, run_bind_eq]
  change Option.bind (some (Except.ok w, w)) _ = _
  simp only [Option.bind_some]
  cases f w.nextFunction <;> rfl

theorem withFunctions_ok {α : Type} {f : Nat → Except CompileError (α × Nat)} {a : α} {w w' : World}
    (h : (withFunctions f).run w = some (.ok a, w')) : ∃ n, f w.nextFunction = .ok (a, n) := by
  rw [withFunctions_run] at h
  cases hf : f w.nextFunction with
  | error e =>
      rw [hf] at h
      cases h
  | ok r =>
      rw [hf] at h
      cases h
      exact ⟨r.2, rfl⟩

/-- A define that compiles consists of its parameters, which are evaluated first, and of the program
of its body. -/
theorem compileDefine_ok {announcing : Announce} {d : Define} {compiled : CompiledDefine}
    {w w' : World} (h : (compileDefine announcing globals d).run w = some (.ok compiled, w')) :
    ∃ params w₁, (evalParameters announcing globals d).run w = some (.ok params, w₁) ∧
      ∃ program n, emitProgram globals d.parameters.names d.body w₁.nextFunction =
        .ok (program, n) ∧ compiled = ⟨d.name, params, program⟩ := by
  obtain ⟨params, w₁, hparams, h⟩ := compiling_bind h
  obtain ⟨program, w₂, hprogram, h⟩ := compiling_bind h
  obtain ⟨_, _, -, h⟩ := compiling_bind h
  cases h
  obtain ⟨n, hemit⟩ := withFunctions_ok hprogram
  exact ⟨params, w₁, hparams, program, n, hemit, rfl⟩

theorem compileConstruct_ok {c : Construct} {compiled : CompiledConstruct} {w w' : World}
    (h : (compileConstruct globals c).run w = some (.ok compiled, w')) :
    ∃ program n, emitProgram globals [] [c] w.nextFunction = .ok (program, n) ∧
      compiled = ⟨program⟩ := by
  obtain ⟨program, w₁, hprogram, h⟩ := compiling_bind h
  obtain ⟨_, _, -, h⟩ := compiling_bind h
  cases h
  obtain ⟨n, hemit⟩ := withFunctions_ok hprogram
  exact ⟨program, n, hemit, rfl⟩

theorem compiling_mapM {α β γ : Type} {f : α → Compiling β} {p : α → γ} {q : β → γ}
    (hf : ∀ {a b w w'}, (f a).run w = some (.ok b, w') → q b = p a) {as : List α} {bs : List β}
    {w w' : World} (h : (as.mapM f).run w = some (.ok bs, w')) : bs.map q = as.map p := by
  induction as generalizing bs w with
  | nil =>
      cases h
      rfl
  | cons a as ih =>
      rw [List.mapM_cons] at h
      obtain ⟨b, v, hfirst, h⟩ := compiling_bind h
      obtain ⟨bs, v', hrest, h⟩ := compiling_bind h
      cases h
      rw [List.map_cons, List.map_cons, hf hfirst, ih hrest]

/-- Each parameter keeps its name. -/
theorem evalParameters_names {d : Define} {params : List (String × Option Value)} {w w' : World}
    (h : (evalParameters announce globals d).run w = some (.ok params, w')) :
    params.map (·.1) = d.parameters.names := by
  rw [compiling_mapM (p := (·.1)) (q := (·.1)) ?_ h,
    List.map_fst_zip (Nat.le_of_eq List.length_range.symm)]
  intro p param w w' h
  dsimp only at h
  split at h
  · obtain ⟨v, _, -, h⟩ := compiling_bind h
    cases h
    rfl
  · cases h
    rfl

/-- What building comes to from a world, with the bindings of the world behind it closed. -/
def outcome {α : Type} (m : Building α) (w : World) : Option (Except RuntimeError α × World) :=
  (m.run w).map fun (r, w') => (r, w'.closed)

theorem Building.Agrees.outcome_eq {α : Type} {m m' : Building α} (h : Building.Agrees Eq m m')
    (w : World) : outcome m w = outcome m' w := by
  have hrel := h w w rfl
  simp only [outcome]
  generalize m.run w = r, m'.run w = r' at hrel ⊢
  cases hrel with
  | none => rfl
  | @some p q h =>
      obtain ⟨r, v⟩ := p
      obtain ⟨r', v'⟩ := q
      obtain ⟨hr, hv⟩ := h
      have heq : r = r' := by
        cases hr with
        | ok h => rw [h]
        | error e => rfl
      simp only [Option.map_some, heq, hv]

end Agreements

/-- What the compiler accepts, a define with any arguments or a construct that stands by itself, runs
as it is interpreted. Both have the same outcome from any world with any factories. -/
theorem compiled_eq_interpreted {globals : Globals} {registry : Registry}
    {builder : Factory → Builder} (hb : Blind registry builder) (depth : Nat) :
    (∀ {d : Define} {compiled : CompiledDefine} {announcing : Announce} {w₀ w₁ : World},
      (compileDefine announcing globals d).run w₀ = some (.ok compiled, w₁) →
      ∃ params w', (evalParameters announcing globals d).run w₀ = some (.ok params, w') ∧
        ∀ args keywords w,
          outcome (compiled.instantiate (announce depth) registry builder args keywords) w =
            outcome (interpretDefine (announce depth) globals registry builder d.name params d.body
              w'.nextFunction args keywords) w) ∧
    (∀ {c : Construct} {compiled : CompiledConstruct} {w₀ w₁ : World},
      (compileConstruct globals c).run w₀ = some (.ok compiled, w₁) →
      ∀ w,
        outcome (compiled.program.run (announce depth) registry builder
          (Frame.ofSize compiled.program.slots)) w =
          outcome (interpret (announce depth) globals registry builder [] [c] w₀.nextFunction) w) := by
  have ha := announce_respects depth
  constructor
  · intro d compiled announcing w₀ w₁ hcompile
    obtain ⟨params, w', hparams, program, n, hemit, rfl⟩ := compileDefine_ok hcompile
    refine ⟨params, w', hparams, fun args keywords w => ?_⟩
    rw [← evalParameters_names hparams] at hemit
    exact (instantiate_agrees (d := ⟨d.name, params, program⟩) ha hb hemit args
      keywords).outcome_eq w
  · intro c compiled w₀ w₁ hcompile w
    obtain ⟨program, n, hemit, rfl⟩ := compileConstruct_ok hcompile
    have hlength : ([] : List Value).length = ([] : List String).length := rfl
    exact (program_agrees ha hb hlength hemit).outcome_eq w

/-- A box that shows a title, and a label in it. -/
def card : Define where
  name := "Card"
  parameters := { names := ["title"] }
  body :=
    let title : Expression := ⟨"title", .name "title", {}⟩
    [{ typeName := "Box"
       unpack := ["box"]
       body := [
        .assignment { target := .own "title", op := .bind, value := title },
        .child { typeName := "Label", arguments := [.positional title] }] }]

def cardRegistry : Registry :=
  ⟨"cards", [("Box", .component {}), ("Label", .component { positional := ["text"] })]⟩

def cardBuilder : Factory → Builder :=
  Factory.build (announce 8) cardRegistry 2

theorem compiled_eq_interpreted_card :
    Blind cardRegistry cardBuilder ∧
    (∃ compiled w₁, (compileDefine (announce 8) [] card).run {} = some (.ok compiled, w₁) ∧
      ∃ params w', (evalParameters (announce 8) [] card).run {} = some (.ok params, w') ∧
        ∀ args keywords w,
          outcome (compiled.instantiate (announce 8) cardRegistry cardBuilder args keywords) w =
            outcome (interpretDefine (announce 8) [] cardRegistry cardBuilder card.name params
              card.body w'.nextFunction args keywords) w) ∧
    ∃ compiled w₁, (compileConstruct [] { typeName := "Label" }).run {} =
        some (.ok compiled, w₁) ∧
      ∀ w,
        outcome (compiled.program.run (announce 8) cardRegistry cardBuilder
          (Frame.ofSize compiled.program.slots)) w =
          outcome (interpret (announce 8) [] cardRegistry cardBuilder []
            [{ typeName := "Label" }] ({} : World).nextFunction) w := by
  have hprocedures : cardRegistry.Blind :=
    Registry.blind_of_ne_procedure (by simp [cardRegistry])
  have hb : Blind cardRegistry cardBuilder := hprocedures.build (announce_respects 8) 2
  have hcard : ∃ compiled w₁, (compileDefine (announce 8) [] card).run {} =
      some (.ok compiled, w₁) := ⟨_, _, rfl⟩
  have hlabel : ∃ compiled w₁, (compileConstruct [] { typeName := "Label" }).run {} =
      some (.ok compiled, w₁) := ⟨_, _, rfl⟩
  obtain ⟨compiled, w₁, hcompile⟩ := hcard
  obtain ⟨compiled', w₁', hcompile'⟩ := hlabel
  refine ⟨hb, ⟨compiled, w₁, hcompile, ?_⟩, compiled', w₁', hcompile', ?_⟩
  · exact (compiled_eq_interpreted hb 8).1 hcompile
  · exact (compiled_eq_interpreted hb 8).2 hcompile'

end LiveUI.Template
