import LiveUI.Proofs.Template.Everyday
import Mathlib.Data.List.Chain

/-! # Phases that move forward

A life leads its objects from one phase to the next, and whatever else is done can only destroy them. The
one step back is that of an object that has been destroyed before the life is through: its turn comes
all the same. So the phases of an object move forward wherever no such object is called back, whatever
hooks, observers and functions of the host do meanwhile. -/

namespace LiveUI

open Template World

/-- The phase is followed by one that is no step back, or it is that of an object that has been
destroyed. -/
def Phase.GivesWay (p q : Phase) : Prop :=
  p ≤ q ∨ p = .destroyed

theorem Phase.GivesWay.mono {p q r : Phase} (h : p.GivesWay q) (hle : q ≤ r) : p.GivesWay r :=
  h.imp_left fun h => le_trans h hle

namespace World

variable {w w' w'' : World} {o : Handle} {phase : Phase} {ps : List Phase}

/-! ## The way of an object -/

/-- The phases of an object from one world to a later one: that in which it is at first, and those that
it enters. -/
def phasesUntil (w w' : World) (o : Handle) : List Phase :=
  w.stage o :: (w'.phasesOf o).drop (w.phasesOf o).length

/-- No phase is followed by an earlier one. -/
def Matures (o : Handle) (w w' : World) : Prop :=
  (w.phasesUntil w' o).IsChain (· ≤ ·)

/-- The object has been destroyed, and a callback of the lifecycle follows. -/
def Recalls (o : Handle) (w w' : World) : Prop :=
  ∃ before phase after, phase ≠ .destroyed ∧
    w.phasesUntil w' o = before ++ .destroyed :: phase :: after

theorem Enters.phasesUntil (h : Enters o ps w w') : w.phasesUntil w' o = w.stage o :: ps := by
  rw [World.phasesUntil, h.phasesOf, List.drop_left]

/-- The object has moved forward, or it had been destroyed. -/
structure Lives (o : Handle) (w w' : World) : Prop extends Augments w w' where
  phases : ∃ ps, Enters o ps w w' ∧ (w.stage o :: ps).IsChain Phase.GivesWay

/-- What is entered later is entered from the phase that was entered last. -/
theorem isChain_cons_append {R : Phase → Phase → Prop} {p : Phase} {ps qs : List Phase}
    (h : (p :: ps).IsChain R) (h' : (ps.getLastD p :: qs).IsChain R) : (p :: (ps ++ qs)).IsChain R := by
  induction ps generalizing p with
  | nil => exact h'
  | cons q ps ih =>
      obtain ⟨hfirst, hrest⟩ := List.isChain_cons_cons.mp h
      rw [List.getLastD_cons] at h'
      exact List.isChain_cons_cons.mpr ⟨hfirst, ih hrest h'⟩

/-- Without a life there are no callbacks. -/
theorem Ages.matures (h : Ages w w') (o : Handle) : Matures o w w' := by
  rcases h.phases o with hin | ⟨-, hin⟩
  · rw [Matures, hin.phasesUntil]
    exact List.isChain_singleton _
  · rw [Matures, hin.phasesUntil]
    exact List.isChain_cons_cons.mpr ⟨(w.stage o).le_destroyed, List.isChain_singleton _⟩

namespace Lives

theorem of_ages (h : Ages w w') : Lives o w w' := by
  refine ⟨h.toAugments, ?_⟩
  rcases h.phases o with hin | ⟨-, hin⟩
  · exact ⟨_, hin, List.isChain_singleton _⟩
  · exact ⟨_, hin, List.isChain_cons_cons.mpr ⟨.inl (w.stage o).le_destroyed, List.isChain_singleton _⟩⟩

theorem refl (w : World) : Lives o w w :=
  of_ages (Ages.mild.refl w)

theorem trans (h : Lives o w w') (h' : Lives o w' w'') : Lives o w w'' := by
  obtain ⟨ps, hin, hchain⟩ := h.phases
  obtain ⟨qs, hin', hchain'⟩ := h'.phases
  exact ⟨h.toAugments.trans h'.toAugments, ps ++ qs, hin.trans hin',
    isChain_cons_append hchain (hin.stage ▸ hchain')⟩

instance : Trans (Lives o) (Lives o) (Lives o) :=
  ⟨trans⟩

/-- The object is in the last of its phases, and they move forward if it is not called back. -/
theorem matures_iff_not_recalls (h : Lives o w w') :
    (w.phasesUntil w' o).getLast? = some (w'.stage o) ∧ (Matures o w w' ↔ ¬Recalls o w w') := by
  obtain ⟨ps, hin, hchain⟩ := h.phases
  rw [Matures, Recalls, hin.phasesUntil, hin.stage]
  refine ⟨?_, fun hmatures ⟨before, phase, after, hcalled, hphases⟩ => ?_, fun hnone => ?_⟩
  · rw [List.getLast?_cons, List.getLastD_eq_getLast?]
  · have hback := List.isChain_iff_forall_rel_of_append_cons_cons.mp hmatures hphases
    exact hcalled (le_antisymm phase.le_destroyed hback)
  · refine List.isChain_iff_forall_rel_of_append_cons_cons.mpr fun p q before after hphases => ?_
    -- A step back starts from a destruction, and the callback that it ends with is the one excluded.
    rcases List.isChain_iff_forall_rel_of_append_cons_cons.mp hchain hphases with hle | rfl
    · exact hle
    · by_cases hq : q = .destroyed
      · exact hq ▸ le_refl _
      · exact absurd ⟨before, q, after, hq, hphases⟩ hnone

end Lives

/-! ## One phase of a life -/

/-- If the object had not come further than the phase, it has not done so since. -/
structure Enacts (o : Handle) (phase : Phase) (w w' : World) : Prop extends Lives o w w' where
  givesWay : (w.stage o).GivesWay phase → (w'.stage o).GivesWay phase

namespace Enacts

theorem of_ages (h : Ages w w') : Enacts o phase w w' := by
  refine ⟨.of_ages h, fun hway => ?_⟩
  rcases h.phases o with hin | ⟨-, hin⟩
  · exact hin.stage ▸ hway
  · exact .inr hin.stage

theorem trans (h : Enacts o phase w w') (h' : Enacts o phase w' w'') : Enacts o phase w w'' :=
  ⟨h.toLives.trans h'.toLives, fun hway => h'.givesWay (h.givesWay hway)⟩

instance : Trans (Enacts o phase) (Enacts o phase) (Enacts o phase) :=
  ⟨trans⟩

/-- An object that has not come further enters the phase, and its callback is told of. -/
theorem setPhase {p : Handle} (halive : w.isAlive p = true)
    (hway : p.id = o.id → (w.stage p).GivesWay phase) (parent : Option Handle) :
    Enacts o phase w ((w.setPhase p phase).log (.hooked phase p parent)) := by
  have haugments : Augments w ((w.setPhase p phase).log (.hooked phase p parent)) :=
    .of_alive rfl fun q => isAlive_modifyObject w p q fun _ => rfl
  have htold : ((w.setPhase p phase).log (.hooked phase p parent)).phasesOf o =
      w.phasesOf o ++ if p.id = o.id then [phase] else [] :=
    phasesOf_log_of_phase? _ rfl o
  have hstage : ((w.setPhase p phase).log (.hooked phase p parent)).stage o = _ :=
    stage_setPhase halive phase o
  by_cases hid : p.id = o.id
  · rw [if_pos hid] at htold hstage
    refine ⟨⟨haugments, [phase], ⟨htold, hstage⟩, ?_⟩, fun _ => .inl (le_of_eq hstage)⟩
    exact List.isChain_cons_cons.mpr ⟨stage_congr hid ▸ hway hid, List.isChain_singleton _⟩
  · rw [if_neg hid] at htold hstage
    exact ⟨⟨haugments, [], ⟨htold, hstage⟩, List.isChain_singleton _⟩, fun h => hstage ▸ h⟩

end Enacts

/-- The objects of the trees are there, and the one among them has not begun its life unless it has been
destroyed. -/
def YetToLive (o : Handle) (w : World) (roots : List Instance) : Prop :=
  ∀ p ∈ Instance.objectsOf roots, w.isAlive p = true ∧
    (p.id = o.id → (w.stage p).GivesWay .created)

end World

namespace Template

open Instance Markup

variable {announcements : Nat} {registry : Registry} {limits : Limits} {o : Handle} {w w' : World}

/-! ## Lives -/

theorem enterPhase_enacts {phase : Phase} {i : Instance} (halive : w.isAlive i.object = true)
    (hway : i.object.id = o.id → (w.stage i.object).GivesWay phase) (parent : Option Handle) :
    Step.Along (Enacts o phase) w (enterPhase (announce announcements) phase i parent)
      fun _ _ => True := by
  intro _ w' hrun
  obtain ⟨⟨_, w₁⟩, hhook, hdone⟩ := Option.bind_eq_some_iff.mp hrun
  cases hdone
  have hin := (Host.run_everyday Ages.everyday announcements _ _ _ _ hhook).1
  exact ⟨(Enacts.setPhase halive hway parent).trans (.of_ages hin), trivial⟩

/-- Every node enters the phase. -/
theorem enterAll_enacts {phase : Phase} {roots : List Instance}
    (hroots : ∀ p ∈ objectsOf roots, w.isAlive p = true ∧
      (p.id = o.id → (w.stage p).GivesWay phase)) :
    Step.Along (Enacts o phase) w ((walkAll none roots).forM fun (i, parent) =>
      enterPhase (announce announcements) phase i parent) fun _ _ => True := by
  refine Step.Along.forM _ (.of_ages (Ages.mild.refl w)) fun p hp w₁ hin => ?_
  -- A hook of an earlier node may have destroyed this one, and then its phase gives way all the same.
  obtain ⟨halive, hway⟩ := hroots p.1.object (List.mem_map_of_mem hp)
  refine enterPhase_enacts ((hin.isAlive _).mpr (.inl halive)) (fun hid => ?_) p.2
  have hway := hway hid
  rw [stage_congr hid] at hway ⊢
  exact hin.givesWay hway

/-- Trees are led through phases that come one after the other. -/
theorem phases_lives {phases : List Phase} (hphases : phases.Pairwise (· ≤ ·)) {roots : List Instance}
    (hroots : ∀ p ∈ objectsOf roots, w.isAlive p = true ∧
      (p.id = o.id → ∀ phase ∈ phases, (w.stage p).GivesWay phase)) :
    Step.Along (Lives o) w (phases.forM fun phase => do
      (walkAll none roots).forM fun (i, parent) => enterPhase (announce announcements) phase i parent
      Step.notice (.lifecycle phase roots.length)) fun _ _ => True := by
  induction phases generalizing w with
  | nil => exact .pure (.refl w) trivial
  | cons phase phases ih =>
      -- After the pass no object has come further than its phase, unless it has been destroyed.
      obtain ⟨hlater, hphases⟩ := List.pairwise_cons.mp hphases
      have hpass : Step.Along (Enacts o phase) w (do
          (walkAll none roots).forM fun (i, parent) => enterPhase (announce announcements) phase i parent
          Step.notice (.lifecycle phase roots.length)) fun _ _ => True := by
        refine (enterAll_enacts fun p hp => (hroots p hp).imp_right fun h hid =>
          h hid phase List.mem_cons_self).bind fun _ w₁ _ _ => ?_
        exact (Step.Along.of_modify (.of_ages (Ages.mild.log w₁ rfl))).imp fun _ _ _ => trivial
      refine Step.Along.bind_from hpass fun _ w₁ hin _ => (ih hphases fun p hp => ?_).since hin.toLives
      obtain ⟨halive, hway⟩ := hroots p hp
      refine ⟨(hin.isAlive p).mpr (.inl halive), fun hid next hnext => ?_⟩
      have hway := hway hid phase List.mem_cons_self
      rw [stage_congr hid] at hway ⊢
      exact (hin.givesWay hway).mono (hlater next hnext)

theorem runLifecycle_lives {roots : List Instance} (hroots : w.YetToLive o roots) :
    Step.Along (Lives o) w (runLifecycle (announce announcements) roots) fun _ _ => True := by
  refine phases_lives (by decide) fun p hp => (hroots p hp).imp_right fun hway hid phase hphase => ?_
  refine (hway hid).mono ?_
  revert phase
  decide

/-! ## Views -/

/-- What has been made since, and has perhaps been destroyed, has not begun its life. -/
theorem yetToLive_of_adds {roots : List Instance} (hadds : w.Adds w' (objectsOf roots))
    (hages : w.Ages w') (hlt : ∀ p, w.isAlive p = true → p.id < w.nextObject) (o : Handle) :
    w'.YetToLive o roots := by
  intro p hp
  obtain ⟨hnew, hmade⟩ := hadds.fresh p hp
  have hdead : w.isAlive p = false :=
    Bool.eq_false_iff.mpr fun halive => Nat.not_lt.mpr hnew (hlt p halive)
  refine ⟨(hages.isAlive p).mpr (.inr ⟨hnew, hmade⟩), fun _ => ?_⟩
  rcases hages.phases p with hin | ⟨-, hin⟩
  · rw [hin.stage, List.getLastD_nil, stage_of_dead hdead]
    exact .inl (by decide)
  · exact .inr hin.stage

/-- The life of what has been built begins when it is finished. -/
theorem finish_lives {m : Building Built} (hlt : ∀ p, w.isAlive p = true → p.id < w.nextObject)
    (hrears : Building.Along World.Unhooked w m fun built w' => w.Adds w' (objectsOf built.roots))
    (hages : Building.Along Ages w m fun _ _ => True) :
    Building.Along (Lives o) w (m >>= fun built => built.finish (announce announcements))
      fun _ _ => True := by
  have hbuilt : Building.Along (Lives o) w m fun built w' => w'.YetToLive o built.roots := by
    intro r w' hrun
    have hin := (hages r w' hrun).1
    exact ⟨.of_ages hin, fun built hr =>
      yetToLive_of_adds ((hrears r w' hrun).2 built hr) hin hlt o⟩
  refine hbuilt.bind fun built w₁ _ hroots => ?_
  rw [Built.finish]
  exact (Building.Along.lift (runLifecycle_lives hroots)).bind fun _ w₂ _ _ => .pure (.refl w₂) trivial

/-- The construct has been compiled. -/
def CompiledConstruct.Compiled (c : CompiledConstruct) : Prop :=
  ∃ globals source w w', (compileConstruct globals source).run w = some (.ok c, w')

theorem CompiledConstruct.Compiled.balanced {c : CompiledConstruct} (h : c.Compiled) :
    nesting? 0 c.program.ops = some 0 := by
  obtain ⟨globals, source, w, w', hcompile⟩ := h
  obtain ⟨program, n, hemit, rfl⟩ := compileConstruct_ok hcompile
  exact (emitProgram_laidOut hemit).balanced

section Views

variable (hr : registry.Sound) (hr' : registry.Within Ages)
  (hlt : ∀ p, w.isAlive p = true → p.id < w.nextObject)

include hr hr' hlt

theorem CompiledDefine.call_lives {d : CompiledDefine} (hd : d.Compiled) (args : List Value)
    (keywords : List (String × Value)) :
    Building.Along (Lives o) w (d.call limits registry args keywords) fun _ _ => True := by
  have hnotice := Ages.mild.log w (e := .notice (.calling d.name registry.name)) rfl
  refine (Building.Along.lift (Step.Along.of_modify (.of_ages hnotice))).bind ?_
  rintro _ _ - rfl
  refine finish_lives (hnotice.lt_nextObject hlt) ?_ ?_
  · exact CompiledDefine.instantiate_rears (hr.rears _) hd args keywords _
  · exact d.instantiate_everyday Ages.everyday (hr'.build_everyday Ages.everyday _) args keywords _

theorem CompiledConstruct.view_lives {c : CompiledConstruct} (hc : c.Compiled) :
    Building.Along (Lives o) w (c.view limits registry) fun _ _ => True := by
  refine finish_lives hlt ?_ ?_
  · exact Program.run_rears (hr.rears _) hc.balanced _ w
  · exact Program.run_everyday Ages.everyday (hr'.build_everyday Ages.everyday _) _ _ w

end Views

theorem View.destroy_ages (v : View) (w : World) : Step.Along Ages w v.destroy fun _ _ => True :=
  Step.Along.forM v.roots (Ages.mild.refl w) fun root _ w₁ _ =>
    (Step.Along.of_modify (Ages.everyday.destroy w₁ root.object)).imp fun _ _ _ => trivial

/-- Where a construct fails, the views before it are destroyed. -/
theorem buildViews_lives (hr : registry.Sound) (hr' : registry.Within Ages)
    {constructs : List CompiledConstruct} (hconstructs : ∀ c ∈ constructs, c.Compiled)
    (hlt : ∀ p, w.isAlive p = true → p.id < w.nextObject) (done : List View) :
    Building.Along (Lives o) w (buildViews limits registry constructs done) fun _ _ => True := by
  induction constructs generalizing w done with
  | nil => exact .pure (.refl w) trivial
  | cons c constructs ih =>
      rw [buildViews]
      have hview : Step.Along (Lives o) w (c.view limits registry).run fun _ _ => True :=
        fun r w₁ hrun => ⟨(CompiledConstruct.view_lives hr hr' hlt
          (hconstructs c List.mem_cons_self) r w₁ hrun).1, trivial⟩
      refine (Building.Along.lift hview).bind fun r w₁ hin _ => ?_
      cases r with
      | ok v =>
          exact ih (fun c hc => hconstructs c (List.mem_cons_of_mem _ hc)) (hin.lt_nextObject hlt) _
      | error e =>
          have hdestroyed := Step.Along.forM done (Ages.mild.refl w₁) fun v _ w₂ _ => v.destroy_ages w₂
          refine (Building.Along.lift fun r w₂ hrun => (hdestroyed r w₂ hrun).imp_left .of_ages).bind
            fun _ w₂ _ _ => .throw (.refl w₂) e

/-! ## Acts -/

/-- What is done from outside. -/
inductive Act where
  | call (d : CompiledDefine) (args : List Value) (keywords : List (String × Value))
  | construct (c : CompiledConstruct)
  | build (m : CompiledModule)
  /-- Finished trees are led through their life. -/
  | live (roots : List Instance)
  | letGo (v : View)
  | destroy (o : Handle)
  /-- Whatever an observer, a hook or a function of the host may do. -/
  | routine (h : Host)

namespace Act

/-- What comes of an act is the world that it leads to. -/
def run (limits : Limits) (registry : Registry) : Act → Step Unit
  | call d args keywords => do let _ ← (d.call limits registry args keywords).run
  | construct c => do let _ ← (c.view limits registry).run
  | build m => do let _ ← (m.build limits registry).run
  | live roots => runLifecycle (announce limits.announcements) roots
  | letGo v => v.destroy
  | destroy o => modify (·.destroy o)
  | routine h => do let _ ← h.run (announce limits.announcements)

/-- Templates are those of the compiler, and no life is begun in which the object has a second one. -/
def Fits (o : Handle) (w : World) : Act → Prop
  | call d _ _ => d.Compiled
  | construct c => c.Compiled
  | build m => ∀ c ∈ m.constructs, c.Compiled
  | live roots => w.YetToLive o roots
  | letGo _ | destroy _ | routine _ => True

/-- The act begins no life. -/
def BeginsNothing : Act → Prop
  | letGo _ | destroy _ | routine _ => True
  | call .. | construct _ | build _ | live _ => False

theorem BeginsNothing.ages {a : Act} (h : a.BeginsNothing) (w : World) :
    Step.Along Ages w (a.run limits registry) fun _ _ => True := by
  cases a with
  | letGo v => exact v.destroy_ages w
  | destroy o =>
      exact (Step.Along.of_modify (Ages.everyday.destroy w o)).imp fun _ _ _ => trivial
  | routine routine =>
      exact (routine.run_everyday Ages.everyday limits.announcements w).bind fun _ w₁ _ _ =>
        .pure (Ages.mild.refl w₁) trivial
  | _ => cases h

theorem Fits.lives (hr : registry.Sound) (hr' : registry.Within Ages)
    (hlt : ∀ p, w.isAlive p = true → p.id < w.nextObject) {a : Act} (ha : a.Fits o w) :
    Step.Along (Lives o) w (a.run limits registry) fun _ _ => True := by
  have hdone {α : Type} {m : Building α} (hm : Building.Along (Lives o) w m fun _ _ => True) :
      Step.Along (Lives o) w (do let _ ← m.run) fun _ _ => True :=
    Step.Along.bind (Q := fun _ _ => True) (fun r w₁ hrun => ⟨(hm r w₁ hrun).1, trivial⟩)
      fun _ w₁ _ _ => .pure (.refl w₁) trivial
  have hquiet (h : a.BeginsNothing) : Step.Along (Lives o) w (a.run limits registry) fun _ _ => True :=
    fun r w₁ hrun => (h.ages w r w₁ hrun).imp_left .of_ages
  cases a with
  | call d args keywords => exact hdone (CompiledDefine.call_lives hr hr' hlt ha args keywords)
  | construct c => exact hdone (CompiledConstruct.view_lives hr hr' hlt ha)
  | build m => exact hdone (buildViews_lives hr hr' ha hlt [])
  | live roots => exact runLifecycle_lives ha
  | letGo v => exact hquiet trivial
  | destroy o => exact hquiet trivial
  | routine h => exact hquiet trivial

end Act

/-- The worlds that acts lead to, one after the other. -/
inductive Course (limits : Limits) (registry : Registry) (o : Handle) (w : World) : World → Prop where
  | start : Course limits registry o w w
  | act {w₁ w' : World} (a : Act) (h : Course limits registry o w w₁) (ha : a.Fits o w₁)
      (hrun : a.run limits registry w₁ = some ((), w')) : Course limits registry o w w'

theorem Course.lives (hr : registry.Sound) (hr' : registry.Within Ages)
    (hlt : ∀ p, w.isAlive p = true → p.id < w.nextObject) (h : Course limits registry o w w') :
    Lives o w w' := by
  induction h with
  | start => exact .refl w
  | act a _ ha hrun ih => exact ih.trans (ha.lives hr hr' (ih.lt_nextObject hlt) _ _ hrun).1

/-- Whatever is built, led through its life, destroyed or done by routines of the host, one after the
other: an object is in the last of the phases that it has entered, and these move forward just if no
callback of the lifecycle is made for the object once it has been destroyed. An act that begins no life
moves every object forward. -/
theorem Course.moves_forward (hr : registry.Sound) (hr' : registry.Within Ages)
    (hlt : ∀ p, w.isAlive p = true → p.id < w.nextObject) (h : Course limits registry o w w') :
    (w.phasesUntil w' o).getLast? = some (w'.stage o) ∧
      (Matures o w w' ↔ ¬Recalls o w w') ∧
      ∀ a w'', Act.BeginsNothing a → a.run limits registry w' = some ((), w'') → Matures o w' w'' := by
  obtain ⟨hlast, hiff⟩ := (h.lives hr hr' hlt).matures_iff_not_recalls
  exact ⟨hlast, hiff, fun a w'' ha hrun => (ha.ages w' _ _ hrun).1.matures o⟩

/-- A rack with a jar. -/
def shelf : Define where
  name := "Shelf"
  body := [{ typeName := "Rack", body := [.child { typeName := "Jar" }] }]

def shelfRegistry (hooks : Hooks) : Registry where
  name := "shelves"
  factories := [("Rack", .component {}), ("Jar", .component { hooks })]

def rack : Handle := ⟨1, "Rack"⟩
def jar : Handle := ⟨2, "Jar"⟩

theorem shelfRegistry_sound (hooks : Hooks) :
    (shelfRegistry hooks).Sound ∧ (shelfRegistry hooks).Within Ages := by
  constructor <;> intro f hf <;>
    simp only [shelfRegistry, List.map_cons, List.map_nil, List.mem_cons, List.not_mem_nil,
      or_false] at hf <;>
    rcases hf with rfl | rfl <;> trivial

/-- The jar is destroyed as soon as it is bound, and the rack when the call is through. -/
theorem Course.moves_forward_shelf :
    ∃ (d : CompiledDefine) (w₁ w₂ : World), d.Compiled ∧
      (shelfRegistry { bind o := .destroy o .skip }).Sound ∧
      (shelfRegistry { bind o := .destroy o .skip }).Within Ages ∧
      (∀ o, ({} : World).isAlive o = true → o.id < ({} : World).nextObject) ∧
      (∀ o, Course ⟨8, 4⟩ (shelfRegistry { bind o := .destroy o .skip }) o {} w₁) ∧
      ({} : World).phasesUntil w₁ jar = [.pending, .created, .initialized, .bound, .destroyed] ∧
      w₁.stage jar = .destroyed ∧ ¬Recalls jar {} w₁ ∧
      (Act.destroy rack).BeginsNothing ∧
      (Act.destroy rack).run ⟨8, 4⟩ (shelfRegistry { bind o := .destroy o .skip }) w₁ =
        some ((), w₂) ∧
      w₁.phasesUntil w₂ rack = [.bound, .destroyed] ∧ Matures rack w₁ w₂ := by
  have hruns : Building.succeeds (compileDefine (announce 8) [] shelf) {} (fun d =>
      ((Act.call d [] []).run ⟨8, 4⟩ (shelfRegistry { bind o := .destroy o .skip }) {}).any fun p =>
        ({} : World).phasesUntil p.2 jar =
          [.pending, .created, .initialized, .bound, .destroyed] &&
        p.2.phasesUntil (p.2.destroy rack) rack = [.bound, .destroyed]) = true := by
    decide +kernel
  obtain ⟨d, _, hcompile, hcall⟩ := Building.exists_of_succeeds hruns
  obtain ⟨⟨_, w₁⟩, hrun, hphases⟩ := Option.any_eq_true _ _ |>.mp hcall
  simp only [Bool.and_eq_true, decide_eq_true_eq] at hphases
  have hd : d.Compiled := ⟨_, _, _, _, _, hcompile⟩
  have hempty : ∀ o, ({} : World).isAlive o = true → o.id < ({} : World).nextObject := nofun
  obtain ⟨hr, hr'⟩ := shelfRegistry_sound { bind o := .destroy o .skip }
  have hcourse (o : Handle) : Course ⟨8, 4⟩ (shelfRegistry { bind o := .destroy o .skip }) o {} w₁ :=
    .act (.call d [] []) .start hd hrun
  obtain ⟨hlast, hiff, -⟩ := Course.moves_forward hr hr' hempty (hcourse jar)
  obtain ⟨-, -, hquiet⟩ := Course.moves_forward hr hr' hempty (hcourse rack)
  have hmatures : Matures jar {} w₁ := by
    rw [Matures, hphases.1]
    decide
  rw [hphases.1] at hlast
  exact ⟨d, w₁, _, hd, hr, hr', hempty, hcourse, hphases.1, (Option.some.inj hlast).symm,
    hiff.mp hmatures, trivial, rfl, hphases.2, hquiet (.destroy rack) _ trivial rfl⟩

/-- A jar that is destroyed as soon as it is created is initialized and bound all the same. -/
theorem not_matures_jar :
    ∃ (d : CompiledDefine) (w' : World), d.Compiled ∧
      (Act.call d [] []).run ⟨8, 4⟩ (shelfRegistry { create o _ := .destroy o .skip }) {} =
        some ((), w') ∧
      ({} : World).phasesUntil w' jar = [.pending, .created, .destroyed, .initialized, .bound] ∧
      w'.stage jar = .bound ∧ ¬Matures jar {} w' := by
  have hruns : Building.succeeds (compileDefine (announce 8) [] shelf) {} (fun d =>
      ((Act.call d [] []).run ⟨8, 4⟩ (shelfRegistry { create o _ := .destroy o .skip }) {}).any
        fun p => ({} : World).phasesUntil p.2 jar =
          [.pending, .created, .destroyed, .initialized, .bound] && p.2.stage jar = .bound) =
      true := by
    decide +kernel
  obtain ⟨d, _, hcompile, hcall⟩ := Building.exists_of_succeeds hruns
  obtain ⟨⟨_, w'⟩, hrun, hphases⟩ := Option.any_eq_true _ _ |>.mp hcall
  simp only [Bool.and_eq_true, decide_eq_true_eq] at hphases
  refine ⟨d, w', ⟨_, _, _, _, _, hcompile⟩, hrun, hphases.1, hphases.2, ?_⟩
  rw [Matures, hphases.1]
  decide

end Template

end LiveUI
