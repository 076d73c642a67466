import LiveUI.World.Reclaim
import LiveUI.Proofs.World.Step
import LiveUI.Proofs.World.Flights
import LiveUI.Proofs.World.Orderly
import LiveUI.Proofs.World.Reclaiming
import LiveUI.Proofs.World.Requests

/-! # The worlds that are reached

From the empty world on a program asks for one operation after another, and routines and functions of
the host do what they like in the meantime. Every world that is reached so is orderly and at rest. -/

namespace LiveUI

open Step

namespace World

variable {w w' w'' : World}

/-- Numbers of bindings and observers are used once, and bindings hold on to their observers. -/
structure Orderly (w : World) : Prop where
  bindings : ∀ x ∈ w.bindings, x.id < w.nextBinding
  tidy : w.Tidy
  heard : w.Heard

/-- The numbers of bindings stay below the next one. -/
theorem lt_nextBinding_enduring : Enduring fun w w' : World =>
    (∀ x ∈ w.bindings, x.id < w.nextBinding) → ∀ x ∈ w'.bindings, x.id < w'.nextBinding := by
  have hmark (w : World) (b : Nat) {f : Binding → Binding} (hid : ∀ x, (f x).id = x.id)
      (h : ∀ x ∈ w.bindings, x.id < w.nextBinding) :
      ∀ x ∈ (w.modifyBinding b f).bindings, x.id < w.nextBinding := by
    intro y hy
    obtain ⟨x, hx, ⟨-, rfl⟩ | ⟨-, rfl⟩⟩ := w.mem_bindings_modifyBinding hy
    · rw [hid]
      exact h x hx
    · exact h y hx
  refine ⟨.of_parts (fun _ => id) (fun h h' hw => h' (h hw)) (fun hobjects hbindings hnext h => ?_)
    (fun _ _ _ _ => id) (fun _ _ _ => id) (fun _ _ _ _ => id) (fun w b _ hid _ _ => hmark w b hid),
    fun _ _ _ => id, fun w b _ => hmark w b fun _ => rfl⟩
  rwa [hbindings, hnext]

/-- Deeds lead from one world to the other. -/
def Comes (w w' : World) : Prop :=
  ∀ T, Lasting T → T w w'

theorem Comes.lasting : Lasting Comes where
  refl w _ hT := hT.refl w
  trans h h' T hT := hT.trans (h T hT) (h' T hT)
  same hobjects hbindings hnext _ hT := hT.same hobjects hbindings hnext
  shed w o _ hf _ hT := hT.shed w o hf
  create w typeName attrs _ hT := hT.create w typeName attrs
  observe w o attr routine _ hT := hT.observe w o attr routine
  mark w b _ hf _ hT := hT.mark w b hf
  disconnect w b _ hT := hT.disconnect w b
  follow w b reads hfound _ hT := hT.follow w b reads hfound

/-- The same is under way as before, and an orderly world has stayed orderly. -/
structure Upholds (w w' : World) : Prop where
  restores : w.Restores w'
  orderly : w.Orderly → w'.Orderly

namespace Upholds

theorem refl (w : World) : Upholds w w :=
  ⟨Restores.lasting.refl w, id⟩

theorem trans (h : Upholds w w') (h' : Upholds w' w'') : Upholds w w'' :=
  ⟨Restores.lasting.trans h.restores h'.restores, fun hw => h'.orderly (h.orderly hw)⟩

instance : Trans Upholds Upholds Upholds :=
  ⟨trans⟩

theorem of_comes (h : Comes w w') : Upholds w w' :=
  ⟨h _ Restores.lasting, fun hw => ⟨h _ lt_nextBinding_enduring.toLasting hw.bindings,
    (h _ StaysTidy.enduring.toLasting hw.tidy).1, h _ Heard.enduring.toLasting hw.heard⟩⟩

theorem run {α : Type} {p : Script α} {a : α} (hrun : p.run w = some (a, w')) : Upholds w w' :=
  ⟨.run hrun, fun hw => ⟨lt_nextBinding_enduring.run hrun hw.bindings,
    (StaysTidy.enduring.run hrun hw.tidy).1, Heard.enduring.run hrun hw.heard⟩⟩

end Upholds

theorem Orderly.passes {α : Type} {p : Script α} {s : List Stretch} (h : w.Orderly)
    (hpass : p.Passes w s w') : w'.Orderly :=
  ⟨lt_nextBinding_enduring.passes hpass h.bindings, (StaysTidy.enduring.passes hpass h.tidy).1,
    Heard.enduring.passes hpass h.heard⟩

theorem Orderly.begin (h : w.Orderly) (t : Stretch) : (t.begin w).Orderly :=
  ⟨lt_nextBinding_enduring.begin t w h.bindings, (StaysTidy.enduring.begin t w h.tidy).1,
    Heard.enduring.begin t w h.heard⟩

end World

/-! ## Making bindings -/

/-- What the step does upholds the world that it begins in. -/
abbrev Step.Upholds {α : Type} (w : World) (m : Step α) : Prop :=
  Along World.Upholds w m fun _ _ => True

theorem Script.PlaysAll.upholds {α : Type} {p : Script α} {m : Step α} (h : p.PlaysAll m) (w : World) :
    Step.Upholds w m :=
  fun _ _ hrun => ⟨.run ((h w).trans hrun), trivial⟩

namespace World

variable {w w' : World}

theorem isBusy_addBinding (w : World) {x : Binding} (hidle : x.busy = false) (b : Nat) :
    (w.addBinding x).isBusy b = w.isBusy b := by
  simp only [isBusy, binding?, addBinding, List.find?_append]
  cases w.bindings.find? (·.id == b) with
  | some y => rfl
  | none => by_cases hb : x.id = b <;> simp [hb, hidle]

theorem Upholds.addBinding (w : World) (site : Site) (kind : BindingKind) (code : Code) :
    Upholds w (w.addBinding (site.record kind code w.nextBinding)) := by
  have htidy : StaysTidy w (w.addBinding (site.record kind code w.nextBinding)) := .of_objects rfl
  refine ⟨⟨fun _ => rfl, isBusy_addBinding w rfl⟩, fun hw => ⟨lt_addBinding hw.bindings rfl,
    (htidy hw.tidy).1, hw.heard.of_subset (fun _ _ => .inl) fun b => ?_⟩⟩
  rw [entered, binding?_addBinding_of_lt hw.bindings rfl]
  split
  next hb =>
    rw [hb, entered, binding?_next_of_lt hw.bindings]
    rfl
  next => rfl

theorem Upholds.own (w : World) (o : Handle) (b : Nat) : Upholds w (w.own o b) := by
  have hmark : Comes w (w.modifyBinding b fun x => { x with owned := true }) :=
    Comes.lasting.mark w b ⟨fun _ => rfl, fun _ => rfl, fun _ => rfl, fun _ => rfl⟩
  exact of_comes (Comes.lasting.trans hmark
    (Comes.lasting.shed _ o ⟨fun _ => rfl, fun _ => .refl _, fun _ => rfl, fun _ => rfl⟩))

theorem Restores.listen (w : World) (o : Handle) (attr : String) (b : Nat) :
    Restores w (w.listen o attr b) :=
  ⟨fun p => w.underway_modifyObject o p (fun _ => rfl) fun _ => rfl,
    fun c => isBusy_modifyBinding _ b c (f := fun y => { y with
      targetListener := some (w.observe o attr (.target b)).1 }) (fun _ => rfl) fun _ => rfl⟩

/-- A binding that does not listen to its target begins to. -/
theorem Orderly.listen (h : w.Orderly) {b : Nat} {x : Binding} (hx : w.binding? b = some x)
    (hnone : x.targetListener = none) (o : Handle) (attr : String) : (w.listen o attr b).Orderly := by
  have hentered (c : Nat) : (w.listen o attr b).entered c =
      if b = c then x.sources ++ [⟨o, w.nextObserver o⟩] else w.entered c := by
    rw [World.listen, entered_modifyBinding _ b c (f := fun y => { y with
      targetListener := some (w.observe o attr (.target b)).1 }) fun _ => rfl]
    split
    next hc =>
      have hx' : (w.observe o attr (.target b)).2.binding? c = some x := hc ▸ hx
      rw [hx']
      rfl
    next => rfl
  have htidy : StaysTidy w (w.listen o attr b) :=
    (StaysTidy.observe w o attr (.target b)).trans (.of_objects rfl)
  refine ⟨fun y hy => ?_, (htidy h.tidy).1, fun p obs hobs c hcall => ?_⟩
  · obtain ⟨z, hz, hy⟩ := mem_bindings_modifyBinding _ hy
    rcases hy with ⟨-, rfl⟩ | ⟨-, rfl⟩
    · exact h.bindings z hz
    · exact h.bindings y hz
  · have hold (hobs : obs ∈ w.observers p) :
        ∃ s ∈ (w.listen o attr b).entered c, s.object.id = p.id ∧ s.id = obs.id := by
      obtain ⟨s, hs, hsame⟩ := h.heard p obs hobs c hcall
      refine ⟨s, ?_, hsame⟩
      rw [hentered]
      split
      next hc =>
        rw [← hc, entered_of_binding? hx, Binding.subscriptions, hnone] at hs
        exact List.mem_append_left _ (by simpa using hs)
      next => exact hs
    change obs ∈ (w.observe o attr (.target b)).2.observers p at hobs
    obtain hobs | ⟨hid, -, rfl⟩ := mem_observers_observe.mp hobs
    · exact hold hobs
    · obtain rfl : b = c := Option.some.inj hcall
      rw [hentered, if_pos rfl]
      exact ⟨_, List.mem_append_right _ List.mem_cons_self, hid, rfl⟩

/-- A binding that has been entered since listens to its target, and the target takes it. -/
theorem Upholds.listen_own {v : World} (h : Upholds v w) {b : Nat}
    (hfound : v.Orderly → ∃ x, w.binding? b = some x ∧ x.targetListener = none) (o : Handle)
    (attr : String) : Upholds v ((w.listen o attr b).own o b) := by
  have hlisten : Upholds v (w.listen o attr b) := by
    refine ⟨Restores.lasting.trans h.restores (.listen w o attr b), fun hv => ?_⟩
    obtain ⟨x, hx, hnone⟩ := hfound hv
    exact (h.orderly hv).listen hx hnone o attr
  exact hlisten.trans (.own _ o b)

end World

namespace Site

variable {w : World} {n : Nat} {site : Site} {code : Code}

theorem assign_upholds (w : World) : Step.Upholds w (site.assign (announce n) code) := by
  refine (Script.value_plays (Script.applyFunc_plays (Script.announce_plays n)) _ code).upholds w
    |>.bind fun r w₁ _ _ => ?_
  cases r with
  | error e => exact .pure (.refl _) trivial
  | ok v =>
      exact (Script.setAttr_plays (Script.announce_plays n) _ _ v).upholds w₁ |>.bind
        fun _ _ _ _ => .pure (.refl _) trivial

/-- The first evaluation of a binding that has been entered, which may still be there without a
listener at the end. -/
theorem refresh_upholds (w : World) (b : Nat) : Along World.Upholds w (refresh (announce n) b)
    fun _ w' => w.KeepsBindings w' := by
  intro r w' hrun
  have hplays := (Script.refresh_plays (Script.announce_plays n) b w).trans hrun
  exact ⟨.run hplays, World.KeepsBindings.enduring.run hplays⟩

theorem newBinding_upholds (w : World) (kind : BindingKind) :
    Along World.Upholds w (site.newBinding kind code) fun b w' =>
      b = w.nextBinding ∧ w' = w.addBinding (site.record kind code b) := by
  rintro _ _ ⟨⟩
  exact ⟨.addBinding w site kind code, rfl, rfl⟩

theorem disconnect_upholds (w : World) (b : Nat) :
    Step.Upholds w (modify (·.disconnect b) : Step PUnit) :=
  (Along.of_modify (.of_comes (World.Comes.lasting.disconnect w b))).imp fun _ _ _ => trivial

theorem bind_upholds (w : World) : Step.Upholds w (site.bind (announce n) code) := by
  refine (newBinding_upholds w .bind).bind fun b w₁ _ _ => (refresh_upholds w₁ b).bind
    fun r w₂ _ _ => ?_
  cases r with
  | error e => exact (disconnect_upholds w₂ b).bind fun _ _ _ _ => .pure (.refl _) trivial
  | ok _ =>
      rintro _ _ ⟨⟩
      exact ⟨.own w₂ site.target b, trivial⟩

/-- A binding that is being made is there from the beginning, and does not listen. -/
theorem exists_newBinding {w' : World} (hw : w.Orderly) (kind : BindingKind)
    (h : (w.addBinding (site.record kind code w.nextBinding)).KeepsBindings w') :
    ∃ x, w'.binding? w.nextBinding = some x ∧ x.targetListener = none := by
  obtain ⟨x, hx, hnone⟩ := h w.nextBinding _
    ((World.binding?_addBinding_of_lt hw.bindings rfl _).trans (if_pos rfl))
  exact ⟨x, hx, hnone rfl⟩

theorem notify_upholds (w : World) : Step.Upholds w (site.notify code) := by
  rintro _ _ ⟨⟩
  exact ⟨.listen_own (.addBinding w site .notify code)
    (fun hw => exists_newBinding hw .notify (.refl _)) site.target site.attr, trivial⟩

theorem delegate_upholds (w : World) : Step.Upholds w (site.delegate (announce n) code) := by
  unfold delegate
  split
  · exact .pure (.refl _) trivial
  · refine (newBinding_upholds w .delegate).bind_from ?_
    rintro _ _ hmade ⟨rfl, rfl⟩
    refine (refresh_upholds _ _).bind_from fun r w₂ hin hkeeps => ?_
    cases r with
    | error e =>
        rintro _ _ ⟨⟩
        exact ⟨(hmade.trans hin).trans (.of_comes (World.Comes.lasting.disconnect _ _)), trivial⟩
    | ok _ =>
        rintro _ _ ⟨⟩
        exact ⟨.listen_own (hmade.trans hin) (fun hw => exists_newBinding hw .delegate hkeeps)
          site.target site.attr, trivial⟩

end Site

/-! ## Operations -/

/-- What a program asks for from outside. -/
inductive Operation where
  | set (o : Handle) (attr : String) (v : Value)
  | emit (o : Handle) (attr : String) (v : Value)
  /-- Whatever else a routine of the host may ask for. -/
  | routine (h : Host)
  | assign (site : Site) (code : Code)
  | bind (site : Site) (code : Code)
  | delegate (site : Site) (code : Code)
  | notify (site : Site) (code : Code)
  /-- The host keeps a reference to a binding. -/
  | hold (b : Nat)
  /-- The host gives up its reference to a binding. -/
  | letGo (b : Nat)
  | addChild (parent child : Handle)
  | setPhase (o : Handle) (phase : Phase)
  | beginRun (values : List Value)
  | setRun (run : Nat) (values : List Value)
  | log (e : Entry)
  /-- What is not referred to any more is taken away. -/
  | reclaim (kept : List Value)

namespace Operation

def perform (announce : Announce) : Operation → Step Unit
  | set o attr v => do let _ ← setAttr announce o attr v
  | emit o attr v => emitAttr announce o attr v
  | routine h => do let _ ← h.run announce
  | assign site code => do let _ ← site.assign announce code
  | bind site code => do let _ ← site.bind announce code
  | delegate site code => do let _ ← site.delegate announce code
  | notify site code => do let _ ← site.notify code
  | hold b => modify (·.modifyBinding b fun x => { x with held := true })
  | letGo b => modify fun w => (w.modifyBinding b fun x => { x with held := false }).release b
  | addChild parent child => modify (·.addChild parent child)
  | setPhase o phase => modify (·.setPhase o phase)
  | beginRun values => modify fun w => (w.beginRun values).2
  | setRun run values => modify (·.setRun run values)
  | log e => modify (·.log e)
  | reclaim kept => modify (·.reclaim kept)

end Operation

/-- The worlds that a program can come to from `v`, with announcements as deep as it allows. -/
inductive World.LeadsTo (v : World) : World → Prop where
  | start : LeadsTo v v
  | operation {w w' : World} {n : Nat} (op : Operation) (h : LeadsTo v w)
      (hrun : op.perform (announce n) w = some ((), w')) : LeadsTo v w'

/-- The worlds that a program can come to at all. -/
abbrev World.Reached : World → Prop :=
  World.LeadsTo {}

namespace World

variable {w w' : World}

theorem Resting.restores (h : w.Resting) (hr : w.Restores w') : w'.Resting := by
  refine ⟨fun b x hx => ?_, fun o attr => ?_⟩
  · have hbusy : w'.isBusy b = false := by
      rw [hr.isBusy, isBusy]
      cases hy : w.binding? b with
      | none => rfl
      | some y => exact h.idle b y hy
    simpa [isBusy, hx] using hbusy
  · rw [isInFlight_eq_underway, hr.underway, ← isInFlight_eq_underway]
    exact h.quiet o attr

theorem Resting.isBusy (h : w.Resting) (b : Nat) : w.isBusy b = false := by
  rw [World.isBusy]
  cases hx : w.binding? b with
  | none => rfl
  | some x => exact h.idle b x hx

/-- Taking objects away leaves the rest as it was. -/
theorem keepOnly_calm (ids : List Nat) (h : w.Orderly ∧ w.Resting) :
    (w.keepOnly ids).Orderly ∧ (w.keepOnly ids).Resting := by
  have hobservers (o : Handle) : ((w.keepOnly ids).observers o).Sublist (w.observers o) ∧
      ∀ obs ∈ (w.keepOnly ids).observers o,
        (w.keepOnly ids).nextObserver o = w.nextObserver o := by
    rw [observers, nextObserver, object?_keepOnly]
    split
    · exact ⟨.refl _, fun _ _ => rfl⟩
    · exact ⟨List.nil_sublist _, fun _ hobs => absurd hobs List.not_mem_nil⟩
  refine ⟨⟨h.1.bindings, ⟨fun o obs hobs => ?_, fun o => ?_⟩, ?_⟩, h.2.idle, fun o attr => ?_⟩
  · rw [(hobservers o).2 obs hobs]
    exact h.1.tidy.lt o obs ((hobservers o).1.subset hobs)
  · exact (h.1.tidy.increasing o).sublist ((hobservers o).1.map _)
  · exact h.1.heard.of_subset (fun o obs hobs => .inl ((hobservers o).1.subset hobs)) fun _ => rfl
  · rw [isInFlight, object?_keepOnly]
    split
    · exact h.2.quiet o attr
    · rfl

theorem Comes.disown (w : World) (bs : List Nat) : Comes w (w.disown bs) :=
  lasting.foldl (fun w b => lasting.trans (lasting.disown w b) (lasting.release _ b)) bs w

end World

namespace Operation

open World Script

variable {w w' : World} {n : Nat}

/-- All operations but reclaiming uphold the world. -/
theorem perform_upholds (op : Operation) (hop : ∀ kept, op ≠ reclaim kept) (w : World) :
    Step.Upholds w (op.perform (announce n)) := by
  have hdone {α : Type} {m : Step α} (h : Step.Upholds w m) :
      Step.Upholds w (m >>= fun _ => pure ()) :=
    h.bind fun _ _ _ _ => .pure (.refl _) trivial
  have hcomes {f : World → World} (h : Comes w (f w)) : Step.Upholds w (modify f : Step PUnit) :=
    (Along.of_modify (.of_comes h)).imp fun _ _ _ => trivial
  have hhold (b : Nat) (held : Bool) : Comes w (w.modifyBinding b fun x => { x with held }) :=
    Comes.lasting.mark w b ⟨fun _ => rfl, fun _ => rfl, fun _ => rfl, fun _ => rfl⟩
  cases op with
  | set o attr v => exact hdone ((setAttr_plays (announce_plays n) o attr v).upholds w)
  | emit o attr v => exact (emitAttr_plays (announce_plays n) o attr v).upholds w
  | routine h => exact hdone ((routine_plays (announce_plays n) h).upholds w)
  | assign site code => exact hdone (Site.assign_upholds w)
  | bind site code => exact hdone (Site.bind_upholds w)
  | delegate site code => exact hdone (Site.delegate_upholds w)
  | notify site code => exact hdone (Site.notify_upholds w)
  | hold b => exact hcomes (hhold b true)
  | letGo b => exact hcomes (Comes.lasting.trans (hhold b false) (Comes.lasting.release _ b))
  | addChild parent child =>
      have htied : Comes w (w.modifyObject child fun x => { x with parent := some parent }) :=
        Comes.lasting.shed w child ⟨fun _ => rfl, fun _ => .refl _, fun _ => rfl, fun _ => rfl⟩
      exact hcomes (Comes.lasting.trans htied
        (Comes.lasting.shed _ parent ⟨fun _ => rfl, fun _ => .refl _, fun _ => rfl, fun _ => rfl⟩))
  | setPhase o phase =>
      exact hcomes (Comes.lasting.shed w o ⟨fun _ => rfl, fun _ => .refl _, fun _ => rfl, fun _ => rfl⟩)
  | beginRun values => exact hcomes (Comes.lasting.same rfl rfl rfl)
  | setRun run values => exact hcomes (Comes.lasting.same rfl rfl rfl)
  | log e => exact hcomes (Comes.lasting.log w e)
  | reclaim kept => exact absurd rfl (hop kept)

end Operation

namespace World

variable {w : World}

/-- Between operations nothing is under way and no binding is at work. -/
theorem LeadsTo.calm {v : World} (hv : v.Orderly ∧ v.Resting) (h : v.LeadsTo w) :
    w.Orderly ∧ w.Resting := by
  have halong {w w' : World} (hw : w.Orderly ∧ w.Resting) (hup : w.Upholds w') :
      w'.Orderly ∧ w'.Resting :=
    ⟨hup.orderly hw.1, hw.2.restores hup.restores⟩
  induction h with
  | start => exact hv
  | @operation w w' n op _ hrun ih =>
      by_cases hop : ∃ kept, op = .reclaim kept
      · obtain ⟨kept, rfl⟩ := hop
        obtain rfl : w.reclaim kept = w' := congrArg Prod.snd (Option.some.inj hrun)
        -- Reclaiming forgets what is under way on the objects that go, and that is nothing here.
        rw [reclaim_eq]
        exact halong (keepOnly_calm _ ih) (.of_comes
          (Comes.lasting.trans (.disown _ _) (Comes.lasting.same rfl rfl rfl)))
      · exact halong ih (op.perform_upholds (fun kept heq => hop ⟨kept, heq⟩) w _ _ hrun).1

/-- Where there is nothing yet, nothing is out of order. -/
theorem calm_empty : ({} : World).Orderly ∧ ({} : World).Resting := by
  have hnone (o : Handle) : ({} : World).observers o = [] := rfl
  refine ⟨⟨fun _ hx => absurd hx List.not_mem_nil, ⟨fun o obs hobs => ?_, fun o => ?_⟩,
    fun o obs hobs => ?_⟩, ⟨fun b x hx => ?_, fun _ _ => rfl⟩⟩
  · exact absurd (hnone o ▸ hobs) List.not_mem_nil
  · rw [hnone]
    exact .nil
  · exact absurd (hnone o ▸ hobs) List.not_mem_nil
  · cases hx

theorem Reached.calm (h : w.Reached) : w.Orderly ∧ w.Resting :=
  LeadsTo.calm calm_empty h

/-- The worlds that come up at any moment: those that a program comes to, those on the way to them, and
those with a binding that is about to be evaluated for the first time. -/
inductive Occurs : World → Prop where
  | reached {w : World} (h : w.Reached) : Occurs w
  | passed {w v : World} {α : Type} {p : Script α} {s : List Stretch} (h : Occurs w)
      (hpass : p.Passes w s v) : Occurs v
  | entered {w : World} (h : Occurs w) (site : Site) (kind : BindingKind) (code : Code) :
      Occurs (w.addBinding (site.record kind code w.nextBinding))

theorem Occurs.orderly (h : w.Occurs) : w.Orderly := by
  induction h with
  | reached h => exact h.calm.1
  | passed _ hpass ih => exact ih.passes hpass
  | entered _ site kind code ih => exact (Upholds.addBinding _ site kind code).orderly ih

end World

end LiveUI
