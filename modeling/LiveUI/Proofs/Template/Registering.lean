import Mathlib
import LiveUI.Proofs.Template.Compilation
import LiveUI.Proofs.Template.Labels
import LiveUI.Proofs.Template.Rearing

/-! # Defines as types

A module that is registered makes types of its defines, and a later define takes the place of an
earlier one of its name. A construct of such a type runs the program that a call of the define runs,
on the same values: it comes to the same trees and the same exports, or to the same error. All that
differs is the notice before, and that a construct needs an instance at least. -/

namespace LiveUI

/-- Before a template is built, there is a notice of how it comes to be. It is hidden here, and the
numbers of runs with it. -/
def Veil.heralds : Veil where
  code c _ := c
  frame f := f
  label _ _ l := l
  keepsRuns := false
  entry e := if e.isHerald then .notice (.building "" "") else e
  journal := List.map fun e => if e.isHerald then .notice (.building "" "") else e
  journal_cons _ _ := rfl
  evaluate_eq := Veil.labels.evaluate_eq
  attrPath?_eq := Veil.labels.attrPath?_eq
  label_of_pathless _ _ := rfl
  entry_relabel _ _ e := by
    cases e with
    | notice n => cases n <;> rfl
    | _ => rfl
  entry_of_plain _ hherald := by simp [hherald]

namespace Template

open Markup Building

/-! ## Registries -/

namespace Registry

variable {r : Registry} {n typeName : String} {f : Factory}

theorem factory?_insert :
    (r.insert typeName f).factory? n = if typeName = n then some f else r.factory? n := by
  obtain ⟨name, factories⟩ := r
  simp only [insert, factory?]
  induction factories with
  | nil => by_cases h : typeName = n <;> simp [putFactory, h]
  | cons q rest ih =>
      obtain ⟨other, g⟩ := q
      by_cases hother : other = typeName
      · subst hother
        by_cases h : other = n <;> simp [putFactory, h]
      · rw [putFactory, if_neg hother]
        -- An entry of another name stays where it is, in front of what is put behind it.
        by_cases h : other = n
        · subst h
          simp [Ne.symm hother]
        · simpa [h] using ih

theorem lookup_eq_ok_iff : r.lookup n = .ok f ↔ r.factory? n = some f := by
  simp only [lookup]
  cases r.factory? n <;> simp

end Registry

/-- The registry with all defines of a module, in order. -/
def registered (defines : List CompiledDefine) (r : Registry) : Registry :=
  defines.foldl (fun r d => r.insert d.name (.define d)) r

/-- The last define of a name is the one that the name leads to. -/
theorem factory?_registered (defines : List CompiledDefine) (r : Registry) (n : String) :
    (registered defines r).factory? n =
      ((defines.reverse.find? (·.name == n)).map Factory.define).or (r.factory? n) := by
  induction defines generalizing r with
  | nil => rfl
  | cons d defines ih =>
      rw [registered, List.foldl_cons, ← registered, ih, Registry.factory?_insert,
        List.reverse_cons, List.find?_append]
      cases hfind : defines.reverse.find? (·.name == n) with
      | some d' => rfl
      | none => by_cases hname : d.name = n <;> simp [hname]

theorem registerInto_run (m : CompiledModule) (r : Registry) (w : World) :
    ∃ w', (m.registerInto r).run w = some (registered m.defines r, w') := by
  simp only [CompiledModule.registerInto, registered]
  induction m.defines generalizing r w with
  | nil => exact ⟨w, rfl⟩
  | cons d defines ih => exact ih (r.insert d.name (.define d)) _

/-- A name that occurs once is found from either end. -/
theorem find?_eq_of_count_eq_one {defines : List CompiledDefine} {n : String}
    (h : (defines.map (·.name)).count n = 1) :
    defines.find? (·.name == n) = defines.reverse.find? (·.name == n) := by
  have hlength : (defines.filter (·.name == n)).length = 1 := by
    rw [← h, List.count, List.countP_map, List.countP_eq_length_filter]
    rfl
  obtain ⟨d, hd⟩ := List.length_eq_one_iff.mp hlength
  rw [← List.head?_filter, ← List.head?_filter, List.filter_reverse, hd]
  rfl

/-! ## Modules -/

section Modules

variable {announcing : Announce} {globals : Globals} {w₀ w₁ : World}

theorem compileDefine_name {d : Define} {compiled : CompiledDefine}
    (h : (compileDefine announcing globals d).run w₀ = some (.ok compiled, w₁)) :
    compiled.name = d.name := by
  obtain ⟨_, _, -, _, _, -, rfl⟩ := compileDefine_ok h
  rfl

/-- A compiled module has the defines of its text. -/
theorem compileSource_names {source : String} {m : CompiledModule}
    (h : (compileSource announcing globals source).run w₀ = some (.ok m, w₁)) :
    ∃ t, Module.parse source = .ok t ∧ m.defines.map (·.name) = t.defines.map (·.name) := by
  simp only [compileSource] at h
  cases hparse : Module.parse source with
  | error e =>
      rw [hparse] at h
      cases h
  | ok t =>
      rw [hparse] at h
      obtain ⟨defines, _, hdefines, h⟩ := compiling_bind h
      obtain ⟨_, _, -, h⟩ := compiling_bind h
      obtain ⟨_, _, -, h⟩ := compiling_bind h
      cases h
      exact ⟨t, rfl, compiling_mapM compileDefine_name hdefines⟩

end Modules

/-! ## Constructs -/

section Uses

variable {limits : Limits} {announce : Announce} {registry : Registry}
  {builder : Factory → Builder} {n : String} {d : CompiledDefine}

/-- The values of the arguments of a construct. -/
def evalArguments (announce : Announce) (frame : Frame) (b : Build) :
    Building (List Value × List (String × Value)) := do
  let args ← b.args.mapM (evalAt announce frame b.place)
  let keywords ← b.keywords.mapM fun (name, code) => do
    return (name, ← evalAt announce frame b.place code)
  return (args, keywords)

/-- What a construct of a type builds from the values of its arguments. -/
def useType (registry : Registry) (builder : Factory → Builder) (typeName : String)
    (args : List Value) (keywords : List (String × Value)) : Building Output := do
  let factory ← openConstruct.liftExcept (registry.lookup typeName)
  ExceptT.lift (Step.notice (.building typeName registry.name))
  let output ← builder factory ⟨typeName, args, keywords⟩
  if output.instances.isEmpty then throw (.factory typeName .noInstances) else return output

theorem openConstruct_useType (m : Machine) (b : Build) :
    openConstruct announce registry builder m b = (do
      let (args, keywords) ← evalArguments announce m.frame b
      let output ← useType registry builder b.typeName args keywords
      receiving m b output) := by
  simp only [openConstruct_eq, calling, evalArguments, useType, bind_assoc, pure_bind]
  refine bind_congr fun args => bind_congr fun keywords => bind_congr fun factory =>
    bind_congr fun _ => bind_congr fun output => ?_
  cases hinstances : output.instances with
  | nil => simp [receiving, hinstances]
  | cons first others => simp [receiving, hinstances]

/-- A construct whose type is a define builds what the define does. -/
theorem useType_define (h : registry.lookup n = .ok (.define d)) (depth : Nat) (args : List Value)
    (keywords : List (String × Value)) :
    useType registry (Factory.build announce registry (depth + 1)) n args keywords = do
      ExceptT.lift (Step.notice (.building n registry.name))
      let built ← d.instantiate announce registry (Factory.build announce registry depth) args
        keywords
      if built.roots.isEmpty then throw (.factory n .noInstances)
      else return ⟨built.roots, built.exports⟩ := by
  have hlookup : openConstruct.liftExcept (registry.lookup n) = pure (.define d) := by
    rw [h]
    rfl
  simp only [useType, hlookup, Factory.build, bind_assoc, pure_bind]

end Uses

/-! ## Constructs that stand by themselves -/

/-- What a construct of the type `n` comes to, and what a call comes to: the same trees or the same
error. Where the call has no tree to show, the construct is refused. -/
inductive Parallel (n : String) :
    Except RuntimeError View × World → Except RuntimeError View × World → Prop where
  | forest {u v : View} {w w' : World} (hroots : u.roots = v.roots) (hsome : v.roots ≠ [])
      (hworld : Veil.heralds.world w = Veil.heralds.world w') : Parallel n (.ok u, w) (.ok v, w')
  | fails (e : RuntimeError) {w w' : World}
      (hworld : Veil.heralds.world w = Veil.heralds.world w') :
      Parallel n (.error e, w) (.error e, w')
  | refused {v : View} (w w' : World) (hempty : v.roots = []) :
      Parallel n (.error (.factory n .noInstances), w) (.ok v, w')

theorem beginRun_run_bind {β : Type} (values : List Value) (f : Nat → Building β) (w : World) :
    (modifyGetThe World (·.beginRun values) >>= f).run w =
      (f w.nextRun).run (w.beginRun values).2 :=
  rfl

/-- What is done alike before makes no difference. -/
theorem Parallel.bind {α : Type} {n : String} {m m' : Building α} {f f' : α → Building View}
    {w w' : World} (hm : Concurs .heralds id Eq m m')
    (hw : Veil.heralds.world w = Veil.heralds.world w')
    (hf : ∀ a v v', Veil.heralds.world v = Veil.heralds.world v' →
      Option.Rel (Parallel n) ((f a).run v) ((f' a).run v')) :
    Option.Rel (Parallel n) ((m >>= f).run w) ((m' >>= f').run w') := by
  have hrel := hm w w' hw
  rw [run_bind_eq, run_bind_eq]
  simp only [Veil.AgreesFrom] at hrel
  generalize m.run w = r, m'.run w' = r' at hrel ⊢
  cases hrel with
  | none => exact .none
  | @some p q h =>
      obtain ⟨r, v⟩ := p
      obtain ⟨r', v'⟩ := q
      obtain ⟨hr, hv⟩ := h
      cases hr with
      | ok hab => exact hab ▸ hf _ v v' hv
      | @error e e' he =>
          rw [RuntimeError.replace_id, RuntimeError.replace_id] at he
          exact .some (he ▸ .fails e hv)

section Calls

variable {limits : Limits} {registry : Registry} {n : String} {d : CompiledDefine}

theorem registered_veiled {V : Veil} {place : Location → Location} (defines : List CompiledDefine)
    (hr : registry.Veiled V place) : (registered defines registry).Veiled V place := by
  intro typeName f keeps hlookup
  rw [Registry.lookup_eq_ok_iff, factory?_registered] at hlookup
  cases hfind : defines.reverse.find? (·.name == typeName) with
  | some d => simp [hfind] at hlookup
  | none =>
      rw [hfind] at hlookup
      exact hr typeName f keeps (Registry.lookup_eq_ok_iff.mpr hlookup)

theorem evalArguments_concurs {V : Veil} {announce : Announce}
    (ha : ∀ c, V.Respects (announce c)) (frame : Frame) (b : Build) :
    Concurs V id Eq (evalArguments announce frame b) (evalArguments announce frame b) := by
  refine (Concurs.mapM_eq (evalAt_concurs ha _ rfl) b.args).bind_eq fun args => ?_
  refine (Concurs.mapM_eq (fun q => (evalAt_concurs ha _ rfl _).bind_eq fun v => .pure rfl)
    b.keywords).bind_eq fun keywords => .pure rfl

/-- A construct without names behind it takes what it has built as it is. -/
theorem receiving_bare (m : Machine) {b : Build} (first : Instance) (others : List Instance)
    (exports : List (String × Value)) (hunpack : b.unpack = []) (hcaptures : b.captures = [])
    (w : World) :
    ∃ frame, (receiving m b ⟨first :: others, exports⟩).run w =
      some (.ok { m with frame, stack := (first :: others) :: m.stack },
        w.setRun m.run frame.slots) := by
  refine ⟨m.frame.set b.selfSlot (.object first.object), ?_⟩
  simp only [receiving, hunpack, hcaptures, List.length_nil]
  rfl

/-- The program of a construct without names behind it and without a body. -/
theorem compileConstruct_bare {globals : Globals} {arguments : List Argument}
    {pos : Source.Position}
    {c : CompiledConstruct} {w w' : World}
    (h : (compileConstruct globals ⟨n, arguments, [], [], [], pos⟩).run w = some (.ok c, w')) :
    ∃ b : Build, c.program.ops = [.build b, .close] ∧ b.typeName = n ∧ b.unpack = [] ∧
      b.captures = [] := by
  obtain ⟨program, _, hemit, rfl⟩ := compileConstruct_ok h
  obtain ⟨parts, s, hparts, rfl⟩ := emitProgram_ok hemit
  rw [List.mapM_cons] at hparts
  obtain ⟨ops, s₁, hops, hparts⟩ := emit_bind hparts
  cases hparts
  obtain ⟨b, s₂, hbuild, hops⟩ := emit_bind hops
  cases hops
  obtain ⟨args, _, -, hbuild⟩ := emit_bind hbuild
  obtain ⟨keywords, _, -, hbuild⟩ := emit_bind hbuild
  obtain ⟨slot, _, -, hbuild⟩ := emit_bind hbuild
  cases hbuild
  exact ⟨_, rfl, rfl, rfl, rfl⟩

theorem heralds_agree {e e' : Notice} (he : (Entry.notice e).isHerald)
    (he' : (Entry.notice e').isHerald) :
    Veil.heralds.Agrees Eq (Step.notice e) (Step.notice e') := by
  refine fun w w' hw => .some ⟨rfl, ?_⟩
  simp only [World.notice, Veil.world_log, hw]
  simp [Veil.heralds, he, he']

/-- From worlds that look the same, a construct of the type comes to the trees to which a call comes
with the values of its arguments. -/
theorem view_parallel (hr : registry.Veiled .heralds id)
    (hlookup : registry.lookup n = .ok (.define d)) {c : CompiledConstruct} {b : Build}
    (hops : c.program.ops = [.build b, .close]) (hname : b.typeName = n) (hunpack : b.unpack = [])
    (hcaptures : b.captures = []) {w w' : World}
    (hw : Veil.heralds.world w = Veil.heralds.world w') :
    Option.Rel (Parallel n)
      ((c.view ⟨limits.announcements, limits.factories + 1⟩ registry).run w)
      ((do
        let (args, keywords) ← evalArguments (announce limits.announcements)
          (Frame.ofSize c.program.slots) b
        d.call limits registry args keywords : Building View).run w') := by
  have ha := Veil.announce_respects (V := .heralds) limits.announcements
  have hbegun : Veil.heralds.world (w.beginRun (Frame.ofSize c.program.slots).slots).2 =
      Veil.heralds.world w' := hw
  simp only [CompiledConstruct.view, Program.run, hops, List.foldlM_cons, List.foldlM_nil, runOp,
    openConstruct_useType, bind_assoc, pure_bind, hname, useType_define hlookup]
  rw [beginRun_run_bind]
  -- Both sides evaluate the arguments, give a notice each and run the program of the define.
  refine Parallel.bind (evalArguments_concurs ha _ b) hbegun fun p v v' hv => ?_
  obtain ⟨args, keywords⟩ := p
  simp only [CompiledDefine.call]
  refine Parallel.bind (.lift (heralds_agree rfl rfl)) hv fun _ v v' hv => ?_
  have hbuild := instantiate_concurs ha (hr.build ha limits.factories) (d := d) rfl rfl
    (List.forall₂_same.mpr fun op _ => .refl op) rfl rfl args keywords
  refine Parallel.bind hbuild hv fun built v v' hv => ?_
  obtain ⟨roots, exports⟩ := built
  cases roots with
  | nil => exact .some (.refused _ _ rfl)
  | cons first others =>
      obtain ⟨frame, hentered⟩ := receiving_bare
        { run := w.nextRun, frame := Frame.ofSize c.program.slots } first others exports hunpack
        hcaptures v
      simp only [List.isEmpty_cons, Bool.false_eq_true, if_false, pure_bind]
      -- The construct alone writes its frame back to a run, which nobody sees behind the veil.
      rw [run_bind_eq, hentered]
      have hlife : Concurs .heralds id Eq
          (ExceptT.lift (runLifecycle (announce limits.announcements) (first :: others)))
          (ExceptT.lift (runLifecycle (announce limits.announcements) (first :: others))) :=
        .lift (runLifecycle_veiled ha _)
      have hset : Veil.heralds.world (v.setRun w.nextRun frame.slots) = Veil.heralds.world v' := hv
      exact Parallel.bind hlife hset fun _ v v' hv => .some (.forest rfl (List.cons_ne_nil _ _) hv)

end Calls

/-! ## Types and calls -/

/-- The name `n` stands for the define `d`. A construct of the type evaluates its arguments, builds
what the define builds from them and goes on with that. A call builds the same and begins its
life. -/
structure Serves (r : Registry) (n : String) (d : CompiledDefine) : Prop where
  found : r.lookup n = .ok (.define d)
  opens (announce : Announce) (builder : Factory → Builder) (m : Machine) {b : Build}
    (hname : b.typeName = n) : openConstruct announce r builder m b = (do
      let (args, keywords) ← evalArguments announce m.frame b
      let output ← useType r builder n args keywords
      receiving m b output)
  builds (announce : Announce) (depth : Nat) (args : List Value)
    (keywords : List (String × Value)) :
    useType r (Factory.build announce r (depth + 1)) n args keywords = (do
      ExceptT.lift (Step.notice (.building n r.name))
      let built ← d.instantiate announce r (Factory.build announce r depth) args keywords
      if built.roots.isEmpty then throw (.factory n .noInstances)
      else return ⟨built.roots, built.exports⟩)
  calls (limits : Limits) (args : List Value) (keywords : List (String × Value)) :
    d.call limits r args keywords = (do
      ExceptT.lift (Step.notice (.calling n r.name))
      let built ← d.instantiate (announce limits.announcements) r
        (Factory.build (announce limits.announcements) r limits.factories) args keywords
      built.finish (announce limits.announcements))

theorem serves_of_lookup {r : Registry} {n : String} {d : CompiledDefine}
    (hlookup : r.lookup n = .ok (.define d)) (hname : d.name = n) : Serves r n d where
  found := hlookup
  opens _ _ m b hb := hb ▸ openConstruct_useType m b
  builds _ depth args keywords := useType_define hlookup depth args keywords
  calls _ _ _ := by
    rw [← hname]
    rfl

/-- In a registry with the defines of a module, each of their names stands for the last define of
the name, which is the one of the module where there is one only. As a type it does what a call
does. A construct that stands by itself comes to the same trees as a call with its arguments, or to
the same error, unless there are no trees, which it refuses. -/
theorem name_serves {announcing : Announce} {globals : Globals} {source : String}
    {m : CompiledModule} {w₀ w₁ : World}
    (hcompile : (compileSource announcing globals source).run w₀ = some (.ok m, w₁)) :
    ∃ t, Module.parse source = .ok t ∧ ∀ n ∈ t.defines.map (·.name), ∀ (r : Registry) (w : World),
      ∃ d r' w', m.defines.reverse.find? (·.name == n) = some d ∧
        (m.registerInto r).run w = some (r', w') ∧
        ((t.defines.map (·.name)).count n = 1 → m.define? n = some d) ∧
        Serves r' n d ∧
        (r.Veiled .heralds id → ∀ (globals : Globals) (arguments : List Argument)
          (pos : Source.Position) (c : CompiledConstruct) (v₀ v₁ : World),
          (compileConstruct globals ⟨n, arguments, [], [], [], pos⟩).run v₀ = some (.ok c, v₁) →
          ∃ b, c.program.ops = [.build b, .close] ∧ b.typeName = n ∧
            ∀ (limits : Limits) (v v' : World),
              Veil.heralds.world v = Veil.heralds.world v' →
              Option.Rel (Parallel n)
                ((c.view ⟨limits.announcements, limits.factories + 1⟩ r').run v)
                ((do
                  let (args, keywords) ← evalArguments (announce limits.announcements)
                    (Frame.ofSize c.program.slots) b
                  d.call limits r' args keywords : Building View).run v')) := by
  obtain ⟨t, hparse, hnames⟩ := compileSource_names hcompile
  refine ⟨t, hparse, fun n hn r w => ?_⟩
  rw [← hnames] at hn ⊢
  obtain ⟨d, hfind⟩ : ∃ d, m.defines.reverse.find? (·.name == n) = some d := by
    refine Option.isSome_iff_exists.mp (List.find?_isSome.mpr ?_)
    obtain ⟨d, hd, rfl⟩ := List.mem_map.mp hn
    exact ⟨d, List.mem_reverse.mpr hd, beq_self_eq_true _⟩
  have hname : d.name = n := by simpa using List.find?_some hfind
  have hlookup : (registered m.defines r).lookup n = .ok (.define d) := by
    rw [Registry.lookup_eq_ok_iff, factory?_registered, hfind]
    rfl
  obtain ⟨w', hregister⟩ := registerInto_run m r w
  refine ⟨d, _, w', hfind, hregister, fun hcount => ?_, serves_of_lookup hlookup hname,
    fun hr globals arguments pos c v₀ v₁ hc => ?_⟩
  · rw [CompiledModule.define?, find?_eq_of_count_eq_one hcount, hfind]
  · obtain ⟨b, hops, hb, hunpack, hcaptures⟩ := compileConstruct_bare hc
    exact ⟨b, hops, hb, fun limits v v' hv =>
      view_parallel (registered_veiled _ hr) hlookup hops hb hunpack hcaptures hv⟩

/-- A tag is a label with a text. -/
def tagSource : String :=
  "defn Tag(text):\n    Label(text)\n"

theorem name_serves_tag :
    ∃ m w₁ t, (compileSource (announce 8) [] tagSource).run {} = some (.ok m, w₁) ∧
      Module.parse tagSource = .ok t ∧ "Tag" ∈ t.defines.map (·.name) ∧
      (t.defines.map (·.name)).count "Tag" = 1 ∧ cardRegistry.Veiled .heralds id ∧
      ∃ d r' w', (m.registerInto cardRegistry).run {} = some (r', w') ∧
        m.define? "Tag" = some d ∧ Serves r' "Tag" d ∧
        ∃ b c v₁, (compileConstruct [] { typeName := "Tag" }).run {} = some (.ok c, v₁) ∧
          Option.Rel (Parallel "Tag") ((c.view ⟨8, 3⟩ r').run {})
            ((do
              let (args, keywords) ← evalArguments (announce 8) (Frame.ofSize c.program.slots) b
              d.call ⟨8, 2⟩ r' args keywords : Building View).run {}) := by
  have hparse : Module.parse tagSource = .ok ⟨[.define
      { name := "Tag"
        parameters := { names := ["text"] }
        body := [
          { typeName := "Label"
            arguments := [.positional ⟨"text", .name "text", ⟨2, 11⟩⟩]
            pos := ⟨2, 5⟩ }]
        pos := ⟨1, 1⟩ }]⟩ := by cbv
  have hcompile : ∃ m w₁, (compileSource (announce 8) [] tagSource).run {} =
      some (.ok m, w₁) := by
    simp only [compileSource, hparse]
    exact ⟨_, _, rfl⟩
  have hveiled : cardRegistry.Veiled .heralds id := by
    intro typeName f keeps hlookup
    have hmem := Registry.mem_of_lookup hlookup
    simp [cardRegistry] at hmem
  have hconstruct : ∃ c v₁, (compileConstruct [] { typeName := "Tag" }).run {} =
      some (.ok c, v₁) := ⟨_, _, rfl⟩
  obtain ⟨m, w₁, hcompile⟩ := hcompile
  obtain ⟨c, v₁, hconstruct⟩ := hconstruct
  obtain ⟨t, hparse', hserves⟩ := name_serves hcompile
  obtain rfl := Except.ok.inj (hparse.symm.trans hparse')
  obtain ⟨d, r', w', -, hregister, hdefine, hserves, hview⟩ :=
    hserves "Tag" (by decide) cardRegistry {}
  obtain ⟨b, -, -, hparallel⟩ := hview hveiled [] [] {} c {} v₁ hconstruct
  exact ⟨m, w₁, _, hcompile, hparse, by decide, by decide, hveiled, d, r', w', hregister,
    hdefine (by decide), hserves, b, c, v₁, hconstruct, hparallel ⟨8, 2⟩ {} {} rfl⟩

/-- The program of a construct that has a type and nothing else. -/
def standing (typeName : String) (line col : Nat) : Program where
  ops := [.build ⟨typeName, [], [], 0, [], [], ⟨⟨line, col⟩, typeName⟩⟩, .close]
  slots := 1

/-- A template without a body can be called, but it is no type of constructs. And of two defines
with one name, the first is called by it and the second is the type. -/
theorem name_serves_twice :
    (∃ m w₁ d r' w' v w₂, (compileSource (announce 1) [] "defn F():\n    pass\n\nF()\n").run {} =
        some (.ok m, w₁) ∧
      m.define? "F" = some d ∧ (m.registerInto ⟨"bare", []⟩).run w₁ = some (r', w') ∧
      (d.call ⟨1, 1⟩ r' [] []).run w' = some (.ok v, w₂) ∧ v.roots = [] ∧
      ∃ c w₃, m.constructs = [c] ∧
        (c.view ⟨1, 2⟩ r').run w' = some (.error (.factory "F" .noInstances), w₃)) ∧
    ∃ m w₁ d d' r' w', (compileSource (announce 1) []
        "defn A():\n    B\n\ndefn A():\n    C\n").run {} = some (.ok m, w₁) ∧
      m.define? "A" = some d ∧ (m.registerInto ⟨"bare", []⟩).run w₁ = some (r', w') ∧
      r'.lookup "A" = .ok (.define d') ∧
      ∃ w₂ w₃, (d.call ⟨1, 1⟩ r' [] []).run w' = some (.error (.unknownType "B" "bare"), w₂) ∧
        (d'.call ⟨1, 1⟩ r' [] []).run w' = some (.error (.unknownType "C" "bare"), w₃) := by
  have hempty : (compileSource (announce 1) [] "defn F():\n    pass\n\nF()\n").run {} = some
      (.ok ⟨[{ name := "F", params := [], program := {} }], [⟨standing "F" 4 1⟩]⟩, { journal := [
        .notice (.compiledModule 1 1), .notice (.compiledConstruct "F" 2 1),
        .notice (.compiledDefine "F" 0 0 [])] }) := by
    have hparse : Module.parse "defn F():\n    pass\n\nF()\n" = .ok ⟨[
        .define { name := "F", pos := ⟨1, 1⟩ },
        .construct { typeName := "F", pos := ⟨4, 1⟩ }]⟩ := by cbv
    simp only [compileSource, hparse]
    rfl
  have htwice : (compileSource (announce 1) [] "defn A():\n    B\n\ndefn A():\n    C\n").run {} =
      some (.ok ⟨[{ name := "A", params := [], program := standing "B" 2 5 },
          { name := "A", params := [], program := standing "C" 5 5 }], []⟩, { journal := [
        .notice (.compiledModule 2 0), .notice (.compiledDefine "A" 2 1 []),
        .notice (.compiledDefine "A" 2 1 [])] }) := by
    have hparse : Module.parse "defn A():\n    B\n\ndefn A():\n    C\n" = .ok ⟨[
        .define { name := "A", body := [{ typeName := "B", pos := ⟨2, 5⟩ }], pos := ⟨1, 1⟩ },
        .define { name := "A", body := [{ typeName := "C", pos := ⟨5, 5⟩ }], pos := ⟨4, 1⟩ }]⟩ :=
      by cbv
    simp only [compileSource, hparse]
    rfl
  constructor
  · exact ⟨_, _, _, _, _, _, _, hempty, rfl, rfl, rfl, rfl, _, _, rfl, rfl⟩
  · exact ⟨_, _, _, _, _, _, htwice, rfl, rfl, rfl, _, _, rfl, rfl⟩

end Template

end LiveUI
