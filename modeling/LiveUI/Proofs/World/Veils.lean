import LiveUI.World.Binding
import LiveUI.Proofs.World.Reading

/-! # Veils

A veil hides something of the bindings of a world: their code and frames, or their labels. What is
left of the code has to come to the same, and a label has to be left where an evaluation can fail
with it. Then nothing that is done in a world tells it from another one that looks the same behind
the veil. Steps have equal results in both, and leave worlds that look the same again. -/

namespace LiveUI

/-- The notice with `f` applied to the label in it. -/
def Notice.relabel (f : String → String) : Notice → Notice
  | alreadyUpdating label => .alreadyUpdating (f label)
  | targetNotifying label => .targetNotifying (f label)
  | sourceNotifying label => .sourceNotifying (f label)
  | reevaluating label => .reevaluating (f label)
  | dependsOn label count => .dependsOn (f label) count
  | writingBack label => .writingBack (f label)
  | notifying label => .notifying (f label)
  | bindingFailed label cause => .bindingFailed (f label) cause
  | n => n

def Entry.relabel (f : String → String) : Entry → Entry
  | .notice n => .notice (n.relabel f)
  | e => e

/-- The entry tells that a template is about to be built, by a call or as a type. -/
def Entry.isHerald : Entry → Bool
  | .notice (.building ..) => true
  | .notice (.calling ..) => true
  | _ => false

/-- What is left of bindings and of the journal, and whether runs are. -/
structure Veil where
  code : Code → Frame → Code
  frame : Frame → Frame
  label : BindingKind → Code → String → String
  keepsRuns : Bool
  entry : Entry → Entry
  journal : List Entry → List Entry
  journal_cons (e : Entry) (es : List Entry) : journal (e :: es) = entry e :: journal es
  evaluate_eq (apply : Apply) (c : Code) (f : Frame) (change : Value) (recording : Bool) :
    (code c f).evaluate apply ⟨frame f, change⟩ recording = c.evaluate apply ⟨f, change⟩ recording
  attrPath?_eq (c : Code) (f : Frame) :
    (code c f).attrPath? = c.attrPath?.map fun p => (code p.1 f, p.2)
  label_of_pathless {c : Code} (h : c.attrPath? = none) (l : String) : label .delegate c l = l
  entry_relabel (kind : BindingKind) (c : Code) (e : Entry) :
    entry (e.relabel (label kind c)) = entry e
  entry_of_plain {e : Entry} (h : ∀ f, e.relabel f = e) (hherald : e.isHerald = false) : entry e = e

namespace Veil

variable (V : Veil)

def binding (x : Binding) : Binding :=
  { x with
    code := V.code x.code x.frame
    frame := V.frame x.frame
    run := bif V.keepsRuns then x.run else none
    label := V.label x.kind x.code x.label }

def world (w : World) : World :=
  { w with
    bindings := w.bindings.map V.binding
    runs := bif V.keepsRuns then w.runs else []
    nextRun := bif V.keepsRuns then w.nextRun else 0
    journal := V.journal w.journal }

/-! ## Operations behind a veil -/

theorem world_log (w : World) (e : Entry) : V.world (w.log e) = (V.world w).log (V.entry e) := by
  simp only [world, World.log, V.journal_cons]

/-- An entry without a label is taken as it is. -/
theorem world_log_plain (w : World) {e : Entry} (h : ∀ f, e.relabel f = e)
    (hherald : e.isHerald = false) : V.world (w.log e) = (V.world w).log e := by
  rw [world_log, V.entry_of_plain h hherald]

theorem world_binding? (w : World) (b : Nat) :
    (V.world w).binding? b = (w.binding? b).map V.binding := by
  simp only [World.binding?, world, List.find?_map]
  rfl

theorem world_modifyBinding (w : World) (b : Nat) {f : Binding → Binding}
    (hf : ∀ x, V.binding (f x) = f (V.binding x)) :
    V.world (w.modifyBinding b f) = (V.world w).modifyBinding b f := by
  simp only [World.modifyBinding, world, List.map_map]
  congr 1
  refine List.map_congr_left fun x _ => ?_
  have hid : (V.binding x).id = x.id := rfl
  simp only [Function.comp, hid]
  split
  · exact hf x
  · rfl

theorem world_foldl {α : Type} {f : World → α → World}
    (hf : ∀ w a, V.world (f w a) = f (V.world w) a) (as : List α) (w : World) :
    V.world (as.foldl f w) = as.foldl f (V.world w) := by
  induction as generalizing w with
  | nil => rfl
  | cons a as ih =>
      rw [List.foldl_cons, List.foldl_cons, ← hf]
      exact ih (f w a)

theorem world_disconnect (w : World) (b : Nat) :
    V.world (w.disconnect b) = (V.world w).disconnect b := by
  simp only [World.disconnect, world_binding?]
  cases w.binding? b with
  | none => rfl
  | some x =>
      simp only [Option.map_some]
      rw [V.world_modifyBinding _ b
        (f := fun x => { x with sources := [], targetListener := none }) fun _ => rfl,
        V.world_foldl fun _ _ => rfl, V.world_foldl fun _ _ => rfl]
      rfl

theorem world_release (w : World) (b : Nat) :
    V.world (w.release b) = (V.world w).release b := by
  simp only [World.release, world_binding?]
  cases w.binding? b with
  | none => rfl
  | some x =>
      change V.world (if (x.owned || x.held || x.busy) = true then w else w.disconnect b) =
        if (x.owned || x.held || x.busy) = true then V.world w else (V.world w).disconnect b
      split
      · rfl
      · exact V.world_disconnect w b

theorem world_dismantle (w : World) (o : Handle) :
    V.world (w.dismantle o) = (V.world w).dismantle o := by
  simp only [World.dismantle, World.notice]
  rw [V.world_log_plain _ (fun _ => rfl) rfl]
  change ((V.world _).modifyObject o _).log _ = _
  rw [V.world_foldl fun w b => V.world_modifyBinding w b (f := fun x => { x with owned := false })
    fun _ => rfl, V.world_foldl V.world_disconnect]
  rfl

theorem world_destroyTo (depth : Nat) (w : World) (o : Handle) :
    V.world (World.destroyTo depth w o) = World.destroyTo depth (V.world w) o := by
  induction depth generalizing w o with
  | zero => rfl
  | succ depth ih =>
      simp only [World.destroyTo]
      have hobject : (V.world w).object? o = w.object? o := rfl
      rw [hobject]
      cases w.object? o with
      | none => rfl
      | some x =>
          dsimp only
          split
          · rfl
          · rw [world_dismantle, V.world_foldl ih]
            rfl

theorem world_destroy (w : World) (o : Handle) : V.world (w.destroy o) = (V.world w).destroy o :=
  V.world_destroyTo w.objects.length w o

/-! ## What looks the same -/

variable {V} {w w' : World}

/-- What does not look at bindings, runs and the journal is the same. -/
theorem congr {α : Type} (f : World → α) (h : V.world w = V.world w') :
    f (V.world w) = f (V.world w') :=
  congrArg f h

theorem attr?_eq (h : V.world w = V.world w') (o : Handle) (attr : String) :
    w.attr? o attr = w'.attr? o attr :=
  congr (·.attr? o attr) h

theorem isAlive_eq (h : V.world w = V.world w') (o : Handle) : w.isAlive o = w'.isAlive o :=
  congr (·.isAlive o) h

theorem isInFlight_eq (h : V.world w = V.world w') (o : Handle) (attr : String) :
    w.isInFlight o attr = w'.isInFlight o attr :=
  congr (·.isInFlight o attr) h

theorem binding?_rel (h : V.world w = V.world w') (b : Nat) :
    Option.Rel (fun x x' => V.binding x = V.binding x') (w.binding? b) (w'.binding? b) := by
  have heq : (w.binding? b).map V.binding = (w'.binding? b).map V.binding := by
    rw [← world_binding?, ← world_binding?, h]
  generalize w.binding? b = r, w'.binding? b = r' at heq
  cases r <;> cases r' <;> simp at heq
  · exact .none
  · exact .some heq

/-- What is left of bindings that look the same is the same. -/
theorem binding_congr {x x' : Binding} {α : Type} (f : Binding → α)
    (h : V.binding x = V.binding x') : f (V.binding x) = f (V.binding x') :=
  congrArg f h

/-! ### Runs -/

theorem world_setRun (hw : V.world w = V.world w') {run run' : Nat}
    (hrun : V.keepsRuns → run = run') (values : List Value) :
    V.world (w.setRun run values) = V.world (w'.setRun run' values) := by
  have hset (v : World) (run : Nat) : V.world (v.setRun run values) =
      bif V.keepsRuns then (V.world v).setRun run values else V.world v := by
    cases h : V.keepsRuns <;> simp [world, World.setRun, h]
  rw [hset, hset, hw]
  cases h : V.keepsRuns with
  | true => rw [hrun h]
  | false => rfl

theorem world_beginRun (hw : V.world w = V.world w') (values : List Value) :
    V.world (w.beginRun values).2 = V.world (w'.beginRun values).2 := by
  have hbegin (v : World) : V.world (v.beginRun values).2 =
      bif V.keepsRuns then ((V.world v).beginRun values).2 else V.world v := by
    cases h : V.keepsRuns <;> simp [world, World.beginRun, h]
  rw [hbegin, hbegin, hw]

theorem nextRun_eq (hw : V.world w = V.world w') (h : V.keepsRuns) : w.nextRun = w'.nextRun := by
  simpa [world, h] using congrArg World.nextRun hw

/-! ## Steps behind a veil -/

section Steps

variable {α β γ δ : Type} {R : α → β → Prop} {S : γ → δ → Prop}

variable (V) in
/-- From `w` and `w'` the steps come to related results, and to worlds that look the same. -/
def AgreesFrom (R : α → β → Prop) (m : Step α) (m' : Step β) (w w' : World) : Prop :=
  Option.Rel (fun p q => R p.1 q.1 ∧ V.world p.2 = V.world q.2) (m w) (m' w')

variable (V) in
/-- So it is from all worlds that look the same. -/
def Agrees (R : α → β → Prop) (m : Step α) (m' : Step β) : Prop :=
  ∀ w w', V.world w = V.world w' → V.AgreesFrom R m m' w w'

variable (V) in
/-- The step cannot tell such worlds apart. -/
abbrev Respects (m : Step α) : Prop :=
  V.Agrees Eq m m

namespace AgreesFrom

theorem pure {a : α} {b : β} (h : R a b) (hw : V.world w = V.world w') :
    V.AgreesFrom R (Pure.pure a) (Pure.pure b) w w' :=
  .some ⟨h, hw⟩

theorem bind {m : Step α} {m' : Step β} {f : α → Step γ} {f' : β → Step δ}
    (hm : V.AgreesFrom R m m' w w') (hf : ∀ a b, R a b → V.Agrees S (f a) (f' b)) :
    V.AgreesFrom S (m >>= f) (m' >>= f') w w' := by
  change Option.Rel _ ((m w).bind _) ((m' w').bind _)
  simp only [AgreesFrom] at hm
  generalize m w = r, m' w' = r' at hm ⊢
  cases hm with
  | none => exact .none
  | some h => exact hf _ _ h.1 _ _ h.2

/-- A step that is done in both worlds before the rest. -/
theorem bind_same {m : Step α} {f : α → Step γ} {f' : α → Step δ}
    (hm : V.AgreesFrom Eq m m w w') (hf : ∀ a, V.Agrees S (f a) (f' a)) :
    V.AgreesFrom S (m >>= f) (m >>= f') w w' :=
  hm.bind fun a _ hab => hab ▸ hf a

theorem get_bind {f : World → Step γ} {f' : World → Step δ}
    (h : V.AgreesFrom S (f w) (f' w') w w') :
    V.AgreesFrom S (get >>= f) (get >>= f') w w' :=
  h

end AgreesFrom

namespace Agrees

theorem pure {a : α} {b : β} (h : R a b) : V.Agrees R (Pure.pure a) (Pure.pure b) :=
  fun _ _ hw => .pure h hw

theorem failure : V.Agrees R Alternative.failure Alternative.failure :=
  fun _ _ _ => .none

theorem imp {R' : α → β → Prop} {m : Step α} {m' : Step β} (h : V.Agrees R m m')
    (himp : ∀ a b, R a b → R' a b) : V.Agrees R' m m' := by
  intro w w' hw
  have hrel := h w w' hw
  simp only [AgreesFrom] at hrel ⊢
  generalize m w = r, m' w' = r' at hrel ⊢
  cases hrel with
  | none => exact .none
  | some h => exact .some ⟨himp _ _ h.1, h.2⟩

theorem bind {m : Step α} {m' : Step β} {f : α → Step γ} {f' : β → Step δ}
    (hm : V.Agrees R m m') (hf : ∀ a b, R a b → V.Agrees S (f a) (f' b)) :
    V.Agrees S (m >>= f) (m' >>= f') :=
  fun w w' hw => (hm w w' hw).bind hf

theorem bind_same {m : Step α} {f : α → Step γ} {f' : α → Step δ} (hm : V.Respects m)
    (hf : ∀ a, V.Agrees S (f a) (f' a)) : V.Agrees S (m >>= f) (m >>= f') :=
  hm.bind fun a _ hab => hab ▸ hf a

theorem get_bind {f : World → Step γ} {f' : World → Step δ}
    (hf : ∀ w w' : World, V.world w = V.world w' → V.AgreesFrom S (f w) (f' w') w w') :
    V.Agrees S (get >>= f) (get >>= f') :=
  fun w w' hw => hf w w' hw

theorem of_modify {f : World → World} (hf : ∀ w, V.world (f w) = f (V.world w)) :
    V.Respects (modify f : Step PUnit) :=
  fun w w' hw => .some ⟨rfl, by rw [hf, hf, hw]⟩

theorem log (e : Entry) : V.Respects (modify (·.log e) : Step PUnit) :=
  fun w w' hw => .some ⟨rfl, by rw [world_log, world_log, hw]⟩

theorem of_modifyGet {f : World → α × World}
    (hf : ∀ w : World, f (V.world w) = ((f w).1, V.world (f w).2)) :
    V.Respects (modifyGet f : Step α) := by
  intro w w' hw
  have hpair : ((f w).1, V.world (f w).2) = ((f w').1, V.world (f w').2) := by
    rw [← hf, ← hf, hw]
  obtain ⟨hresult, hworld⟩ := by simpa using hpair
  exact .some ⟨hresult, hworld⟩

end Agrees

end Steps

end Veil

end LiveUI
