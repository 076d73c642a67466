import LiveUI.Proofs.Template.Simulation
import LiveUI.Proofs.World.Seclusion
import LiveUI.Template.Retained

/-! # Templates build within a realm

A define whose constants are plain data has nothing to work on but its arguments and what it builds.
Run on arguments of a realm with a registry of plain components, it leaves all else alone, and the
bindings that it makes know the realm only. -/

namespace LiveUI

/-- No object and no function of the host is a part of the value. -/
def Value.isInert (v : Value) : Bool :=
  v.objects.isEmpty && v.isInnocent

theorem Realm.contains_of_isInert {R : Realm} {w : World} {v : Value} (h : v.isInert = true) :
    R.Contains w v := by
  simp only [Value.isInert, Bool.and_eq_true, List.isEmpty_iff] at h
  exact ⟨by simp [h.1], h.2⟩

namespace Template

open Step

/-- Components without hooks, whose initial values are plain data. -/
def Registry.Plain (registry : Registry) : Prop :=
  ∀ f ∈ registry.factories.map (·.2), ∃ c : Component, f = .component c ∧ c.hooks = {} ∧
    ∀ a ∈ c.defaults, a.2.isInert = true

/-! ## Building along -/

namespace Building

variable {α β γ : Type} {T T' : World → World → Prop} {w : World}

/-- Begun in `w`, building comes to a world that is to `w` as `T` says, and what it builds, if it does
not fail, is as `post` says. -/
def Along (T : World → World → Prop) (w : World) (m : Building α) (post : α → World → Prop) : Prop :=
  Step.Along T w m.run fun r w' => ∀ a, r = .ok a → post a w'

namespace Along

variable {m : Building α} {Q : α → World → Prop} {P : β → World → Prop}

theorem pure (h : T w w) {a : α} (ha : Q a w) : Along T w (Pure.pure a) Q :=
  Step.Along.pure h fun b hb => by cases hb; exact ha

theorem throw (h : T w w) (e : RuntimeError) : Along T w (MonadExcept.throw e : Building α) Q :=
  Step.Along.pure h nofun

theorem imp {Q' : α → World → Prop} (h : Along T w m Q)
    (himp : ∀ a w', T w w' → Q a w' → Q' a w') : Along T w m Q' :=
  fun r w' hrun => ⟨(h r w' hrun).1, fun a ha => himp a w' (h r w' hrun).1 ((h r w' hrun).2 a ha)⟩

theorem weaken (h : Along T w m Q) (hT : ∀ w', T w w' → T' w w') : Along T' w m Q :=
  fun r w' hrun => (h r w' hrun).imp_left (hT w')

theorem bind [Trans T T T] {f : α → Building β} (hm : Along T w m Q)
    (hf : ∀ a w₁, T w w₁ → Q a w₁ → Along T w₁ (f a) P) : Along T w (m >>= f) P := by
  refine Step.Along.bind_from hm fun r w₁ hT hr => ?_
  cases r with
  | ok a => exact Step.Along.since (hf a w₁ hT (hr a rfl)) hT
  | error e => exact Step.Along.pure hT nofun

theorem lift {m : Step α} (h : Step.Along T w m Q) : Along T w (ExceptT.lift m) Q :=
  Step.Along.bind_from h fun _ _ hT ha => Step.Along.pure hT fun b hb => by cases hb; exact ha

theorem ofExcept_bind (h : T w w) {r : Except RuntimeError α} {f : α → Building β}
    (hf : ∀ a, r = .ok a → Along T w (f a) P) : Along T w (ExceptT.mk (Pure.pure r) >>= f) P := by
  cases r with
  | ok a => exact hf a rfl
  | error e => exact throw h e

theorem get_bind {f : World → Building β} (h : Along T w (f w) P) :
    Along T w (getThe World >>= f) P := h

/-- Elements one after another, each of which keeps what is known so far. -/
theorem foldlM [Trans T T T] {I : β → World → Prop} {f : β → γ → Building β} (l : List γ)
    (hf : ∀ c ∈ l, ∀ b w₁, T w w₁ → I b w₁ → Along T w₁ (f b c) I) (h : T w w) {b : β}
    (hb : I b w) :
    Along T w (l.foldlM f b) I := by
  suffices hrest : ∀ w₁, T w w₁ → ∀ b, I b w₁ → Along (fun _ => T w) w₁ (l.foldlM f b) I from
    hrest w h b hb
  induction l with
  | nil => exact fun w₁ hT b hb => pure hT hb
  | cons c l ih =>
      intro w₁ hT b hb
      rw [List.foldlM_cons]
      refine Step.Along.bind_from (hf c List.mem_cons_self b w₁ hT hb) fun r w₂ hT' hr => ?_
      have hT₂ : T w w₂ := Trans.trans hT hT'
      cases r with
      | ok b' => exact ih (fun c hc => hf c (List.mem_cons_of_mem _ hc)) w₂ hT₂ b' (hr b' rfl)
      | error e => exact Step.Along.pure hT₂ nofun

/-- A loop that is not left early. -/
theorem forIn [Trans T T T] {f : γ → PUnit → Building (ForInStep PUnit)} (l : List γ)
    (hf : ∀ c ∈ l, ∀ w₁, T w w₁ → Along T w₁ (f c ⟨⟩) fun r _ => r = .yield ⟨⟩) (h : T w w) :
    Along T w (ForIn.forIn l PUnit.unit f) fun _ _ => True := by
  suffices hrest : ∀ w₁, T w w₁ →
      Along (fun _ => T w) w₁ (ForIn.forIn l PUnit.unit f) fun _ _ => True from hrest w h
  induction l with
  | nil => exact fun w₁ hT => pure hT trivial
  | cons c l ih =>
      intro w₁ hT
      rw [List.forIn_cons]
      refine Step.Along.bind_from (hf c List.mem_cons_self w₁ hT) fun r w₂ hT' hr => ?_
      have hT₂ : T w w₂ := Trans.trans hT hT'
      cases r with
      | ok r =>
          obtain rfl := hr r rfl
          exact ih (fun c hc => hf c (List.mem_cons_of_mem _ hc)) w₂ hT₂
      | error e => exact Step.Along.pure hT₂ nofun

end Along

end Building

/-! ## Building that stays in a realm -/

namespace Building

variable {α β : Type} {R : Realm} {w : World}

/-- Begun in `w`, building changes the world within the realm only, and what it comes to, if it does
not fail, is as `post` says. -/
def Minds (R : Realm) (w : World) (m : Building α) (post : α → World → Prop) : Prop :=
  Step.Minds R w m.run fun r w' => ∀ a, r = .ok a → post a w'

namespace Minds

variable {m : Building α} {Q : α → World → Prop} {P : β → World → Prop}

theorem pure (h : R.Sealed w) {a : α} (ha : Q a w) : Minds R w (Pure.pure a) Q :=
  Along.pure (.refl h) ha

theorem throw (h : R.Sealed w) (e : RuntimeError) :
    Minds R w (MonadExcept.throw e : Building α) Q :=
  Along.throw (.refl h) e

theorem bind {f : α → Building β} (hm : Minds R w m Q)
    (hf : ∀ a w₁, R.Within w w₁ → Q a w₁ → Minds R w₁ (f a) P) : Minds R w (m >>= f) P :=
  Along.bind hm hf

theorem lift {m : Step α} (h : Step.Minds R w m Q) : Minds R w (ExceptT.lift m) Q :=
  Along.lift h

theorem ofExcept_bind (h : R.Sealed w) {r : Except RuntimeError α} {f : α → Building β}
    (hf : ∀ a, r = .ok a → Minds R w (f a) P) :
    Minds R w (ExceptT.mk (Pure.pure r) >>= f) P :=
  Along.ofExcept_bind (.refl h) hf

theorem get_bind {f : World → Building β} (h : Minds R w (f w) P) :
    Minds R w (getThe World >>= f) P := h

/-- Elements one after another, each of which keeps what is known so far. -/
theorem foldlM {γ : Type} {I : β → World → Prop} {f : β → γ → Building β} {l : List γ}
    (hf : ∀ b, ∀ c ∈ l, ∀ w₁, R.Sealed w₁ → w.nextObject ≤ w₁.nextObject → I b w₁ →
      Minds R w₁ (f b c) I) (h : R.Sealed w) {b : β} (hb : I b w) :
    Minds R w (l.foldlM f b) I :=
  Along.foldlM l (fun c hc b w₁ hin => hf b c hc w₁ hin.isSealed hin.nextObject) (.refl h) hb

/-- A loop that is not left early. -/
theorem forIn {γ : Type} {f : γ → PUnit → Building (ForInStep PUnit)} {l : List γ} (h : R.Sealed w)
    (hf : ∀ c ∈ l, ∀ w₁, R.Within w w₁ → Minds R w₁ (f c ⟨⟩) fun r _ => r = .yield ⟨⟩) :
    Minds R w (ForIn.forIn l PUnit.unit f) fun _ _ => True :=
  Along.forIn l hf (.refl h)

/-- Values that are computed one after another. -/
theorem mapM {γ : Type} {P : α → Prop} {f : γ → Building α} {l : List γ} (h : R.Sealed w)
    (hf : ∀ c ∈ l, Minds R w (f c) fun a w' => w' = w ∧ P a) :
    Minds R w (l.mapM f) fun as w' => w' = w ∧ ∀ a ∈ as, P a := by
  induction l with
  | nil => exact pure h ⟨rfl, nofun⟩
  | cons c l ih =>
      rw [List.mapM_cons]
      refine (hf c List.mem_cons_self).bind ?_
      rintro a w - ⟨rfl, ha⟩
      refine (ih fun c hc => hf c (List.mem_cons_of_mem _ hc)).bind ?_
      rintro as w - ⟨rfl, has⟩
      exact pure h ⟨rfl, List.forall_mem_cons.mpr ⟨ha, has⟩⟩

end Minds

end Building

/-! ## Instances -/

/-- Each node of the tree is as `P` says. -/
inductive Instance.All (P : Handle → Hooks → Prop) : Instance → Prop where
  | node {object : Handle} {hooks : Hooks} {children : List Instance} (h : P object hooks)
      (hchildren : ∀ c ∈ children, All P c) : All P ⟨object, hooks, children⟩

namespace Instance

variable {P : Handle → Hooks → Prop} {i : Instance}

theorem All.here (h : i.All P) : P i.object i.hooks := by
  cases h with
  | node h _ => exact h

theorem All.imp {P' : Handle → Hooks → Prop} (h : i.All P) (himp : ∀ o hooks, P o hooks → P' o hooks) :
    i.All P' := by
  induction h with
  | node h _ ih => exact .node (himp _ _ h) ih

theorem All.adopt (h : i.All P) {child : Instance} (hchild : child.All P) : (i.adopt child).All P := by
  cases h with
  | node h hchildren =>
      refine .node h fun c hc => ?_
      rcases List.mem_append.mp hc with hc | hc
      · exact hchildren c hc
      · rwa [List.mem_singleton.mp hc]

theorem mem_walkAll {parent : Option Handle} {p : Instance × Option Handle} {is : List Instance}
    (h : p ∈ walkAll parent is) : ∃ i ∈ is, p ∈ walk parent i := by
  induction is with
  | nil => simp [walkAll] at h
  | cons i is ih =>
      rw [walkAll] at h
      rcases List.mem_append.mp h with h | h
      · exact ⟨i, List.mem_cons_self, h⟩
      · obtain ⟨j, hj, h⟩ := ih h
        exact ⟨j, List.mem_cons_of_mem _ hj, h⟩

theorem All.walk (h : i.All P) (parent : Option Handle) :
    ∀ p ∈ i.walk parent, P p.1.object p.1.hooks := by
  induction h generalizing parent with
  | node h _ ih =>
      intro p hp
      rw [Instance.walk] at hp
      rcases List.mem_cons.mp hp with rfl | hp
      · exact h
      · obtain ⟨c, hc, hp⟩ := mem_walkAll hp
        exact ih c hc _ p hp

/-- A tree of objects of the realm, without hooks. -/
def Inside (R : Realm) (w : World) : Instance → Prop :=
  All fun o hooks => R.Has w o.id ∧ hooks = {}

theorem Inside.mono {R : Realm} {w w' : World} (h : i.Inside R w)
    (hle : w.nextObject ≤ w'.nextObject) : i.Inside R w' :=
  All.imp h fun _ _ hroot => ⟨hroot.1.mono hle, hroot.2⟩

theorem Inside.object {R : Realm} {w : World} (h : i.Inside R w) : R.Has w i.object.id :=
  (All.here h).1

end Instance

section Lifecycle

variable {R : Realm} {announce : Announce}

theorem enterPhase_stays {w : World} (h : R.Sealed w) {i : Instance} (hi : R.Has w i.object.id)
    (hhooks : i.hooks = {}) (phase : Phase) (parent : Option Handle) :
    Stays R w (enterPhase announce phase i parent) := by
  have hphase := Realm.Within.setPhase h hi.1 phase
  have hlog := Realm.Within.log hphase.isSealed (.hooked phase i.object parent)
  have hskip : i.hooks.routine phase i.object parent = .skip := by
    rw [hhooks]
    cases phase <;> rfl
  refine .modify_bind hphase (.modify_bind hlog ?_)
  rw [hskip]
  exact .pure hlog.isSealed trivial

/-- Without hooks the life of a tree is of no consequence but for the phases. -/
theorem runLifecycle_stays {w : World} (h : R.Sealed w) {roots : List Instance}
    (hroots : ∀ i ∈ roots, i.Inside R w) : Stays R w (runLifecycle announce roots) := by
  refine Step.Along.forM _ (.refl h) fun phase _ w₁ hin => ?_
  refine Step.Minds.bind (Step.Along.forM _ (.refl hin.isSealed) fun p hp w₂ hin' => ?_) fun _ w₂ hin' _ =>
    (Step.Minds.notice hin'.isSealed _).stays
  obtain ⟨i, hi, hp⟩ := Instance.mem_walkAll hp
  obtain ⟨hnode, hhooks⟩ := Instance.All.walk (hroots i hi) none p hp
  exact enterPhase_stays hin'.isSealed (hnode.mono (hin.trans hin').nextObject) hhooks phase p.2

end Lifecycle

/-! ## Statements -/

section Statements

variable {R : Realm} {announce : Announce} {w w' : World}

theorem evalAt_minds (h : R.Sealed w) {frame : Frame} (hslots : ∀ v ∈ frame.slots, R.Contains w v)
    (place : Location) {code : Code} (hcode : ∀ v ∈ code.constants, R.Contains w v) :
    Building.Minds R w (evalAt announce frame place code) fun v w' => w' = w ∧ R.Contains w v := by
  refine (Building.Minds.lift (Code.value_minds h hslots Realm.contains_nil hcode announce)).bind ?_
  rintro r w - ⟨rfl, hr⟩
  cases r with
  | ok v => exact .pure h ⟨rfl, hr v rfl⟩
  | error e => exact .throw h _

theorem targetObject_minds (h : R.Sealed w) {frame : Frame}
    (hslots : ∀ v ∈ frame.slots, R.Contains w v) {t : TargetCode}
    (hbase : ∀ v ∈ t.base.constants, R.Contains w v) (place : Location) :
    Building.Minds R w (targetObject announce frame t place) fun o w' => w' = w ∧ R.Has w o.id := by
  refine (evalAt_minds h hslots place hbase).bind ?_
  rintro base w - ⟨rfl, hv⟩
  simp only [pure_bind]
  split
  next =>
    split
    next o => exact .pure h ⟨rfl, Realm.contains_object.mp hv⟩
    next => exact .throw h _
  next i items _ =>
    split
    next u hu =>
      have hitem := (R.partwise_contains w).subscript hv (.int i) u hu
      split
      next o => exact .pure h ⟨rfl, Realm.contains_object.mp hitem⟩
      next => exact .throw h _
    next => exact .throw h _
  next => exact .throw h _

/-- An operator at a site of the realm. -/
theorem applyOperator_stays (ha : R.Secludes announce) (h : R.Sealed w) {site : Site}
    (hsite : site.Inside R w) {code : Code} (hcode : ∀ v ∈ code.constants, R.Contains w v)
    (op : Markup.Operator) : Stays R w (applyOperator announce site op code) := by
  cases op with
  | default =>
      exact (site.assign_stays ha h hsite hcode).bind fun _ _ hin _ => .pure hin.isSealed trivial
  | bind =>
      exact (site.bind_stays ha h hsite hcode).bind fun _ _ hin _ => .pure hin.isSealed trivial
  | delegate =>
      exact (site.delegate_stays ha h hsite hcode).bind fun _ _ hin _ => .pure hin.isSealed trivial
  | notify => exact (site.notify_stays h hsite hcode).bind fun _ _ hin _ => .pure hin.isSealed trivial

end Statements

/-! ## Runs -/

theorem forall_slots_set {P : Value → Prop} {f : Frame} (hf : ∀ v ∈ f.slots, P v) (hnil : P .nil)
    (slot : Nat) {u : Value} (hu : P u) : ∀ v ∈ (f.set slot u).slots, P v := by
  intro v hv
  rcases List.mem_or_eq_of_mem_set hv with hv | rfl
  · rcases List.mem_append.mp hv with hv | hv
    · exact hf v hv
    · rwa [List.eq_of_mem_replicate hv]
  · exact hu

/-- A machine that has slots and instances of the realm only. -/
structure Machine.Inside (R : Realm) (w : World) (m : Machine) : Prop where
  slots : ∀ v ∈ m.frame.slots, R.Contains w v
  stack : ∀ is ∈ m.stack, ∀ i ∈ is, i.Inside R w
  roots : ∀ i ∈ m.roots, i.Inside R w

/-- What a factory or a run has built in the realm. -/
structure Output.Inside (R : Realm) (w : World) (out : Output) : Prop where
  instances : ∀ i ∈ out.instances, i.Inside R w
  exports : ∀ p ∈ out.exports, R.Contains w p.2

/-- Given values of the realm, the factories of the registry build in the realm. -/
def Registry.Secludes (registry : Registry) (R : Realm) (builder : Factory → Builder) : Prop :=
  ∀ w typeName factory, registry.lookup typeName = .ok factory → R.Sealed w →
    ∀ call : FactoryCall, (∀ v ∈ call.args, R.Contains w v) → (∀ p ∈ call.keywords, R.Contains w p.2) →
      Building.Minds R w (builder factory call) fun out w' => out.Inside R w'

section Runs

variable {R : Realm} {announce : Announce} {registry : Registry} {builder : Factory → Builder}
  {w w' : World} {m : Machine}

theorem Machine.Inside.mono (h : m.Inside R w) (hle : w.nextObject ≤ w'.nextObject) : m.Inside R w' :=
  ⟨fun v hv => (h.slots v hv).mono hle, fun is his i hi => (h.stack is his i hi).mono hle,
    fun i hi => (h.roots i hi).mono hle⟩

theorem Output.Inside.mono {out : Output} (h : out.Inside R w) (hle : w.nextObject ≤ w'.nextObject) :
    out.Inside R w' :=
  ⟨fun i hi => (h.instances i hi).mono hle, fun p hp => (h.exports p hp).mono hle⟩

theorem write_minds (h : R.Sealed w) (hm : m.Inside R w) (slot : Nat) {v : Value}
    (hv : R.Contains w v) : Building.Minds R w (ExceptT.lift (m.write slot v))
      fun m' w' => m'.Inside R w' := by
  have hrun : R.Within w (w.setRun m.run (m.frame.set slot v).slots) := .of_same h rfl rfl rfl rfl
  refine .lift (.modify_bind hrun (.pure hrun.isSealed (Machine.Inside.mono ?_ hrun.nextObject)))
  exact ⟨forall_slots_set hm.slots Realm.contains_nil slot hv, hm.stack, hm.roots⟩

theorem writeAll_minds (h : R.Sealed w) (hm : m.Inside R w) {slots : List (Nat × Value)}
    (hslots : ∀ p ∈ slots, R.Contains w p.2) :
    Building.Minds R w (ExceptT.lift (m.writeAll slots)) fun m' w' => m'.Inside R w' := by
  refine .lift ?_
  unfold Machine.writeAll
  induction slots generalizing w m with
  | nil => exact .pure h hm
  | cons p slots ih =>
      rw [List.foldlM_cons]
      have hv := hslots p List.mem_cons_self
      have hrun : R.Within w (w.setRun m.run (m.frame.set p.1 p.2).slots) := .of_same h rfl rfl rfl rfl
      refine Step.Minds.bind (.modify_bind hrun (.pure hrun.isSealed
        (Machine.Inside.mono ?_ hrun.nextObject) : Step.Minds R _ _ fun m' w' => m'.Inside R w'))
        fun m₁ w₁ hin hm₁ => ?_
      · exact ⟨forall_slots_set hm.slots Realm.contains_nil p.1 hv, hm.stack, hm.roots⟩
      · exact ih hin.isSealed hm₁ fun q hq =>
          (hslots q (List.mem_cons_of_mem _ hq)).mono hin.nextObject

theorem unpackValues_contains {names : Nat} {is : List Instance} {place : Location}
    (his : ∀ i ∈ is, i.Inside R w) {vs : List Value} (h : unpackValues names is place = .ok vs) :
    ∀ v ∈ vs, R.Contains w v := by
  have hobjects : ∀ v ∈ is.map (.object ·.object), R.Contains w v := by
    intro v hv
    obtain ⟨i, hi, rfl⟩ := List.mem_map.mp hv
    exact Realm.contains_object.mpr (his i hi).object
  unfold unpackValues at h
  split at h
  · cases h
    exact List.forall_mem_nil _
  · cases h
    simpa using hobjects
  · cases h
    simpa using (R.partwise_contains w).list _ |>.mpr hobjects
  · split at h
    · cases h
      exact hobjects
    · cases h

theorem captured_contains (h : R.Sealed w) {out : Output} (hout : out.Inside R w) {attr : String}
    {place : Location} {v : Value} (hv : captured w out attr place = .ok v) : R.Contains w v := by
  unfold captured at hv
  split at hv
  next hfind =>
    cases hv
    exact hout.exports _ (List.mem_of_find?_eq_some hfind)
  next =>
    split at hv
    next i hinstances =>
      split at hv
      next u hattr =>
        cases hv
        exact h.attrs _ _ _ (hout.instances i (by simp [hinstances])).object.1 hattr
      next => cases hv
    next => cases hv

variable (hbuilder : registry.Secludes R builder)

include hbuilder

theorem openConstruct_minds (h : R.Sealed w) (hm : m.Inside R w) {b : Build}
    (hb : ∀ v ∈ b.retained, v.isInert = true) :
    Building.Minds R w (openConstruct announce registry builder m b) fun m' w' => m'.Inside R w' := by
  simp only [Build.retained, List.forall_mem_append, List.forall_mem_flatMap] at hb
  unfold openConstruct
  refine (Building.Minds.mapM h fun c hc => evalAt_minds h hm.slots b.place fun v hv =>
    Realm.contains_of_isInert (hb.1 c hc v hv)).bind ?_
  rintro args w - ⟨rfl, hargs⟩
  refine (Building.Minds.mapM (P := fun p : String × Value => R.Contains w p.2) h fun p hp =>
    (evalAt_minds h hm.slots b.place fun v hv =>
      Realm.contains_of_isInert (hb.2 p hp v hv)).bind ?_).bind ?_
  · rintro v w - ⟨rfl, hv⟩
    exact .pure h ⟨rfl, hv⟩
  rintro keywords w - ⟨rfl, hkeywords⟩
  refine .ofExcept_bind h fun factory hfactory => ?_
  have hlog := Realm.Within.log h (.notice (.building b.typeName registry.name))
  refine (Building.Minds.lift (Step.Minds.notice h _)).bind ?_
  rintro _ _ - rfl
  refine (hbuilder _ b.typeName factory hfactory hlog.isSealed ⟨b.typeName, args, keywords⟩
    (fun v hv => (hargs v hv).mono hlog.nextObject)
    fun p hp => (hkeywords p hp).mono hlog.nextObject).bind fun out w₁ hin hout => ?_
  have hm₁ := hm.mono (hlog.trans hin).nextObject
  cases hinstances : out.instances with
  | nil => exact .throw hin.isSealed _
  | cons first others =>
      have hfirst := hout.instances first (by simp [hinstances])
      refine (write_minds hin.isSealed hm₁ b.selfSlot (Realm.contains_object.mpr hfirst.object)).bind
        fun m₂ w₂ hin₂ hm₂ => ?_
      refine .ofExcept_bind hin₂.isSealed fun values hvalues => ?_
      have hunpack : ∀ p ∈ b.unpack.zip values, R.Contains w₂ p.2 := fun p hp =>
        (unpackValues_contains (fun i hi => hout.instances i (hinstances ▸ hi)) hvalues p.2
          (List.of_mem_zip hp).2).mono hin₂.nextObject
      refine (writeAll_minds hin₂.isSealed hm₂ hunpack).bind fun m₃ w₃ hin₃ hm₃ => ?_
      have hout₃ := hout.mono (hin₂.trans hin₃).nextObject
      refine (Building.Minds.foldlM (I := fun m w => m.Inside R w) (fun m capture _ w₄ h₄ hle hm =>
        .get_bind <| .ofExcept_bind h₄ fun v hv => ?_) hin₃.isSealed hm₃).bind
          fun m₄ w₄ hin₄ hm₄ => ?_
      · exact write_minds h₄ hm capture.1 (captured_contains h₄ (hout₃.mono hle) hv)
      · refine .pure hin₄.isSealed ⟨hm₄.slots, fun is his => ?_, hm₄.roots⟩
        rcases List.mem_cons.mp his with rfl | his
        · rw [← hinstances]
          exact (hout₃.mono hin₄.nextObject).instances
        · exact hm₄.stack is his

omit hbuilder in
theorem closeConstruct_minds (h : R.Sealed w) (hm : m.Inside R w) :
    Step.Minds R w (closeConstruct m) fun m' w' => m'.Inside R w' := by
  have hstack := hm.stack
  unfold closeConstruct
  split
  next => exact .pure h hm
  next done heq =>
    rw [heq] at hstack
    refine .pure h ⟨hm.slots, nofun, fun i hi => ?_⟩
    rcases List.mem_append.mp hi with hi | hi
    · exact hm.roots i hi
    · exact hstack done (by simp) i hi
  next done rest heq =>
    rw [heq] at hstack
    refine .pure h ⟨hm.slots, fun is his => hstack is (List.mem_cons_of_mem _ his), fun i hi => ?_⟩
    rcases List.mem_append.mp hi with hi | hi
    · exact hm.roots i hi
    · exact hstack done (by simp) i hi
  next done parent others rest heq =>
    rw [heq] at hstack
    have hdone : ∀ i ∈ done, i.Inside R w := hstack done (by simp)
    have hparent : parent.Inside R w := hstack (parent :: others) (by simp) parent (by simp)
    have hadds : Step.Stays R w
        (done.forM fun child => modify (·.addChild parent.object child.object)) :=
      Step.Along.forM _ (.refl h) fun child hchild w₁ hin => (Step.Minds.of_modify
        (.addChild hin.isSealed hparent.object.1 (hdone child hchild).object.1)).stays
    refine hadds.bind fun _ w₁ hin _ => ?_
    have hadopted : (done.foldl Instance.adopt parent).Inside R w₁ :=
      List.foldlRecOn done Instance.adopt (hparent.mono hin.nextObject) fun i hi child hchild =>
        Instance.All.adopt hi ((hdone child hchild).mono hin.nextObject)
    have hm₁ := hm.mono hin.nextObject
    refine .pure hin.isSealed ⟨hm₁.slots, fun is his i hi => ?_, hm₁.roots⟩
    have hkept {js : List Instance} (hjs : js ∈ (parent :: others) :: rest) (hi : i ∈ js) :
        i.Inside R w₁ := (hstack js (List.mem_cons_of_mem _ hjs) i hi).mono hin.nextObject
    rcases List.mem_cons.mp his with rfl | his
    · rcases List.mem_cons.mp hi with rfl | hi
      · exact hadopted
      · exact hkept List.mem_cons_self (List.mem_cons_of_mem _ hi)
    · exact hkept (List.mem_cons_of_mem _ his) hi

theorem runOp_minds (ha : R.Secludes announce) (h : R.Sealed w) (hm : m.Inside R w) {op : Op}
    (hop : ∀ v ∈ op.retained, v.isInert = true) :
    Building.Minds R w (runOp announce registry builder m op) fun m' w' => m'.Inside R w' := by
  cases op with
  | build b => exact openConstruct_minds hbuilder h hm hop
  | assign target op code place =>
      simp only [Op.retained, List.forall_mem_append] at hop
      refine (targetObject_minds h hm.slots (fun v hv =>
        Realm.contains_of_isInert (hop.1 v hv)) place).bind ?_
      rintro o w - ⟨rfl, ho⟩
      have hcode : ∀ v ∈ code.constants, R.Contains w v :=
        fun v hv => Realm.contains_of_isInert (hop.2 v hv)
      refine (Building.Minds.lift (applyOperator_stays ha h ⟨ho, hm.slots⟩ hcode op)).bind
        fun r w₁ hin _ => ?_
      cases r with
      | ok _ => exact .pure hin.isSealed (hm.mono hin.nextObject)
      | error cause => exact .throw hin.isSealed _
  | close => exact .lift (closeConstruct_minds h hm)

/-- A program without objects and functions of the host in its code runs in the realm of its frame. -/
theorem Program.run_minds (ha : R.Secludes announce) (h : R.Sealed w) {p : Program}
    (hp : ∀ v ∈ p.retained, v.isInert = true) {frame : Frame}
    (hframe : ∀ v ∈ frame.slots, R.Contains w v) :
    Building.Minds R w (p.run announce registry builder frame)
      fun built w' => ∀ i ∈ built.roots, i.Inside R w' := by
  simp only [Program.retained, List.forall_mem_flatMap] at hp
  have hbegin : R.Within w (w.beginRun frame.slots).2 := .of_same h rfl rfl rfl rfl
  have hstart : Machine.Inside R (w.beginRun frame.slots).2 { run := w.nextRun, frame } :=
    ⟨fun v hv => (hframe v hv).mono hbegin.nextObject, nofun, nofun⟩
  refine Building.Minds.bind (.lift (m := modifyGet (·.beginRun frame.slots)) (.of_modifyGet hbegin)) ?_
  rintro _ _ - ⟨rfl, rfl⟩
  refine (Building.Minds.foldlM (I := fun m w => m.Inside R w) (fun m op hop w₁ h₁ _ hm =>
    runOp_minds hbuilder ha h₁ hm (hp op hop)) hbegin.isSealed hstart).bind fun m w₁ hin hm => ?_
  exact .pure hin.isSealed hm.roots


end Runs

/-! ## Defines and components -/

section Arguments

variable {P : Value → Prop} {params : List (String × Option Value)}

theorem bindKeywords_forall {keywords : List (String × Value)} (hkeywords : ∀ p ∈ keywords, P p.2)
    {bound result : List (Option Value)} (hbound : ∀ v, some v ∈ bound → P v)
    (h : bindKeywords params keywords bound = .ok result) : ∀ v, some v ∈ result → P v := by
  induction keywords generalizing bound with
  | nil =>
      cases h
      exact hbound
  | cons p rest ih =>
      obtain ⟨name, u⟩ := p
      simp only [bindKeywords] at h
      split at h
      next => cases h
      next i _ =>
        split at h
        next => cases h
        next =>
          refine ih (fun q hq => hkeywords q (List.mem_cons_of_mem _ hq)) (fun v hv => ?_) h
          rcases List.mem_or_eq_of_mem_set hv with hv | hv
          · exact hbound v hv
          · cases hv
            exact hkeywords _ List.mem_cons_self

theorem bindDefaults_forall {slots : List (Option Value × String × Option Value)}
    (hslots : ∀ q ∈ slots, ∀ v, q.1 = some v ∨ q.2.2 = some v → P v) {values : List Value}
    (h : bindDefaults slots = .ok values) : ∀ v ∈ values, P v := by
  induction slots generalizing values with
  | nil =>
      cases h
      exact List.forall_mem_nil _
  | cons q rest ih =>
      obtain ⟨bound, name, default⟩ := q
      simp only [bindDefaults] at h
      split at h
      next v hv =>
        cases hrest : bindDefaults rest with
        | error e =>
            rw [hrest] at h
            cases h
        | ok vs =>
            rw [hrest] at h
            cases h
            have hhere := hslots _ List.mem_cons_self
            refine List.forall_mem_cons.mpr ⟨hhere v ?_, ih (fun q hq =>
              hslots q (List.mem_cons_of_mem _ hq)) hrest⟩
            cases bound with
            | some u => exact .inl hv
            | none => exact .inr hv
      next => cases h

/-- The values of the parameters are the arguments and defaults. -/
theorem bindArguments_forall {args : List Value} {keywords : List (String × Value)}
    (hargs : ∀ v ∈ args, P v) (hkeywords : ∀ p ∈ keywords, P p.2)
    (hparams : ∀ v ∈ params.filterMap (·.2), P v) {values : List Value}
    (h : bindArguments params args keywords = .ok values) : ∀ v ∈ values, P v := by
  unfold bindArguments at h
  split at h
  · cases h
  · simp only at h
    cases hbound : bindKeywords params keywords
        (args.map some ++ List.replicate (params.length - args.length) none) with
    | error e =>
        rw [hbound] at h
        cases h
    | ok bound =>
        rw [hbound] at h
        have hpositional : ∀ v, some v ∈ args.map some ++
            List.replicate (params.length - args.length) none → P v := by
          intro v hv
          rcases List.mem_append.mp hv with hv | hv
          · obtain ⟨u, hu, heq⟩ := List.mem_map.mp hv
            exact Option.some.inj heq ▸ hargs u hu
          · cases List.eq_of_mem_replicate hv
        have hvalues := bindKeywords_forall hkeywords hpositional hbound
        refine bindDefaults_forall (fun q hq v hv => ?_) h
        rcases hv with hv | hv
        · exact hvalues v (hv ▸ (List.of_mem_zip hq).1)
        · exact hparams v (List.mem_filterMap.mpr ⟨q.2, (List.of_mem_zip hq).2, hv⟩)

end Arguments

section Defines

variable {R : Realm} {announce : Announce} {registry : Registry} {w : World}

theorem CompiledDefine.instantiate_minds (ha : R.Secludes announce) {builder : Factory → Builder}
    (hbuilder : registry.Secludes R builder) (h : R.Sealed w) {d : CompiledDefine}
    (hd : ∀ v ∈ d.retained, v.isInert = true) {args : List Value} {keywords : List (String × Value)}
    (hargs : ∀ v ∈ args, R.Contains w v) (hkeywords : ∀ p ∈ keywords, R.Contains w p.2) :
    Building.Minds R w (d.instantiate announce registry builder args keywords)
      fun built w' => ∀ i ∈ built.roots, i.Inside R w' := by
  simp only [CompiledDefine.retained, List.forall_mem_append] at hd
  unfold CompiledDefine.instantiate
  split
  next => exact .throw h _
  next values hvalues =>
    have hbound := bindArguments_forall hargs hkeywords
      (fun v hv => Realm.contains_of_isInert (hd.1 v hv)) hvalues
    refine Program.run_minds hbuilder ha h hd.2 ?_
    refine List.foldlRecOn (motive := fun f : Frame => ∀ v ∈ f.slots, R.Contains w v) values.zipIdx _
      (fun v hv => List.eq_of_mem_replicate hv ▸ Realm.contains_nil) fun f hf p hp => ?_
    exact forall_slots_set hf Realm.contains_nil p.2 (hbound p.1 (List.fst_mem_of_mem_zipIdx hp))

/-- A component without hooks makes one object and gives it its attributes. -/
theorem Component.build_minds (ha : R.Secludes announce) (h : R.Sealed w) {c : Component}
    (hhooks : c.hooks = {}) (hdefaults : ∀ a ∈ c.defaults, a.2.isInert = true) {call : FactoryCall}
    (hargs : ∀ v ∈ call.args, R.Contains w v) (hkeywords : ∀ p ∈ call.keywords, R.Contains w p.2) :
    Building.Minds R w (c.build announce call) fun out w' => out.Inside R w' := by
  unfold Component.build
  split
  · exact .throw h _
  · obtain ⟨hmade, hnew⟩ := Realm.Within.create h call.typeName fun a ha =>
      Realm.contains_of_isInert (hdefaults a ha)
    refine Building.Minds.bind (.lift (m := modifyGet (·.create call.typeName c.defaults))
      (.of_modifyGet hmade)) ?_
    rintro _ _ - ⟨rfl, rfl⟩
    have hattrs : ∀ p ∈ c.positional.zip call.args ++ call.keywords, R.Contains w p.2 := by
      intro p hp
      rcases List.mem_append.mp hp with hp | hp
      · exact hargs p.2 (List.of_mem_zip hp).2
      · exact hkeywords p hp
    refine Building.Minds.bind (Q := fun _ _ => True) ?_ fun _ w₁ hin _ =>
      .pure hin.isSealed ⟨?_, nofun⟩
    · refine .forIn hmade.isSealed fun p hp w₁ hin => ?_
      exact (Building.Minds.lift (setAttr_stays ha hin.isSealed (hnew.mono hin.nextObject) p.1
        ((hattrs p hp).mono (hmade.trans hin).nextObject))).bind fun _ _ hin' _ =>
          .pure hin'.isSealed rfl
    · intro i hi
      obtain rfl := List.mem_singleton.mp hi
      exact .node ⟨hnew.mono hin.nextObject, hhooks⟩ fun _ hc => absurd hc List.not_mem_nil

theorem Registry.Plain.secludes (hr : registry.Plain) (ha : R.Secludes announce) (depth : Nat) :
    registry.Secludes R (Factory.build announce registry depth) := by
  intro w typeName factory hfactory h call hargs hkeywords
  obtain ⟨c, rfl, hhooks, hdefaults⟩ := hr factory (Registry.mem_of_lookup hfactory)
  cases depth with
  | zero => exact .lift (m := failure) nofun
  | succ depth => exact c.build_minds ha h hhooks hdefaults hargs hkeywords

/-- A call stays in every realm that its arguments belong to. -/
theorem CompiledDefine.call_minds (hr : registry.Plain) (h : R.Sealed w) {d : CompiledDefine}
    (hd : ∀ v ∈ d.retained, v.isInert = true) {args : List Value} {keywords : List (String × Value)}
    (hargs : ∀ v ∈ args, R.Contains w v) (hkeywords : ∀ p ∈ keywords, R.Contains w p.2)
    (limits : Limits) :
    Building.Minds R w (d.call limits registry args keywords) fun _ _ => True := by
  have ha := announce_secludes R limits.announcements
  have hlog := Realm.Within.log h (.notice (.calling d.name registry.name))
  refine (Building.Minds.lift (Step.Minds.notice h _)).bind ?_
  rintro _ _ - rfl
  refine (CompiledDefine.instantiate_minds ha (hr.secludes ha limits.factories) hlog.isSealed hd
    (fun v hv => (hargs v hv).mono hlog.nextObject)
    fun p hp => (hkeywords p hp).mono hlog.nextObject).bind fun built w₁ hin hroots => ?_
  exact (Building.Minds.lift (runLifecycle_stays hin.isSealed hroots)).bind fun _ _ hin' _ =>
    .pure hin'.isSealed trivial

end Defines

end Template

end LiveUI
