import LiveUI.Proofs.World.Runs

/-! # Propagation has an end

Every announcement inside another one is made by a binding that has gone to work, and a binding at
work does not go to work again. So announcements nest no deeper than there are idle bindings, and
one that may nest that deep has a derivation. -/

namespace LiveUI

open World

namespace Binding

/-- Two records of a binding ask for the same, however the binding is faring. -/
structure SamePlan (x y : Binding) : Prop where
  kind : x.kind = y.kind
  target : x.target = y.target
  attr : x.attr = y.attr
  code : x.code = y.code
  frame : x.frame = y.frame
  label : x.label = y.label

theorem SamePlan.of_core {x y : Binding} (h : x.core = y.core) : x.SamePlan y :=
  ⟨congrArg (·.kind) h, congrArg (·.target) h, congrArg (·.attr) h, congrArg (·.code) h,
    congrArg (·.frame) h, congrArg (·.label) h⟩

theorem SamePlan.refl (x : Binding) : x.SamePlan x :=
  ⟨rfl, rfl, rfl, rfl, rfl, rfl⟩

theorem SamePlan.setBusy (x : Binding) (busy : Bool) : x.SamePlan { x with busy } :=
  ⟨rfl, rfl, rfl, rfl, rfl, rfl⟩

theorem SamePlan.symm {x y : Binding} (h : x.SamePlan y) : y.SamePlan x :=
  ⟨h.kind.symm, h.target.symm, h.attr.symm, h.code.symm, h.frame.symm, h.label.symm⟩

theorem SamePlan.trans {x y z : Binding} (h : x.SamePlan y) (h' : y.SamePlan z) : x.SamePlan z :=
  ⟨h.kind.trans h'.kind, h.target.trans h'.target, h.attr.trans h'.attr, h.code.trans h'.code,
    h.frame.trans h'.frame, h.label.trans h'.label⟩

theorem SamePlan.look {x y : Binding} (h : x.SamePlan y) (w : World) : x.look w = y.look w := by
  simp only [Binding.look, h.code, h.frame]

theorem SamePlan.source {x y : Binding} (h : x.SamePlan y) (w : World) :
    x.source w = y.source w := by
  simp only [Binding.source, h.code, h.frame, h.label]

end Binding

theorem World.Keeps.exists_core {w w' : World} (h : Keeps w w') {b : Nat} {x : Binding}
    (hx : w.binding? b = some x) : ∃ x', w'.binding? b = some x' ∧ x'.core = x.core := by
  have heq := h.binding? b
  rw [hx] at heq
  exact Option.map_eq_some_iff.mp heq

theorem Code.HostFree.attrPath {scope : Scope} {code base : Code} {attr : String}
    (h : code.HostFree scope) (hpath : code.attrPath? = some (base, attr)) :
    base.HostFree scope := by
  intro w
  obtain ⟨out, hout⟩ := h w
  cases code with
  | attr value a =>
      obtain ⟨rfl, rfl⟩ := by simpa [attrPath?] using hpath
      rw [evaluate_eq_outcome, eval, Evaluation.outcome_bind] at hout
      obtain ⟨_, hrun, -⟩ := Option.map_eq_some_iff.mp hout
      obtain ⟨_, hbase, -⟩ := Option.bind_eq_some_iff.mp hrun
      rw [evaluate_eq_outcome, hbase]
      exact ⟨_, rfl⟩
  | _ => simp [attrPath?] at hpath

theorem sourceOf_eq (announce : Announce) {x : Binding} (h : x.code.HostFree { frame := x.frame })
    (w : World) : sourceOf announce x w = some (x.source w, w) := by
  unfold sourceOf Binding.source
  cases hpath : x.code.attrPath? with
  | none => rfl
  | some path =>
      obtain ⟨base, attr⟩ := path
      have hvalue := (h.attrPath hpath).evaluate_silent (applyFunc_callsBuiltins announce) w
      change ((base.evaluate _ _ false w).bind _).bind _ = _
      rw [hvalue]
      simp only [Option.bind_some]
      cases (base.look { frame := x.frame } w).1 with
      | error e => rfl
      | ok v => cases v <;> rfl

namespace Step

/-- The work of a binding that was idle goes on between setting the busy mark and removing it. -/
theorem Yields.of_guarded {b : Nat} {work : Binding → Step (Except EvalError Unit)} {w : World}
    {x : Binding} {post : Except EvalError Unit → World → Prop} (hx : w.binding? b = some x)
    (hbusy : x.busy = false)
    (hwork : Yields (work x) (w.setBusy b true) fun r w' => post r (w'.setBusy b false)) :
    Yields (guarded b work) w post := by
  obtain ⟨r, w', hrun, hpost⟩ := hwork
  refine ⟨r, w'.setBusy b false, ?_, hpost⟩
  rw [guarded_of_idle hx hbusy, hrun]
  rfl

theorem Yields.of_guarded_busy {b : Nat} {work : Binding → Step (Except EvalError Unit)} {w : World}
    {x : Binding} {post : Except EvalError Unit → World → Prop} (hx : w.binding? b = some x)
    (hbusy : x.busy = true) (hpost : post (.ok ()) w) : Yields (guarded b work) w post := by
  refine Yields.get_bind ?_
  simp only [hx, hbusy, if_true]
  exact Yields.of_pure hpost

end Step

open Step

theorem noteFailure_notices (label : String) (result : Except EvalError Unit) (w : World) :
    Yields (noteFailure label result) w fun _ w' => Notices w w' := by
  cases result with
  | ok => exact Yields.of_pure (.refl w)
  | error e => exact Yields.of_modify (.notice _ (.refl w))

theorem World.release_of_inService {w : World} {b : Nat} {x : Binding} (hx : w.binding? b = some x)
    (hservice : x.inService = true) : w.release b = w := by
  unfold release
  simp only [hx]
  rw [if_pos]
  simp only [Binding.inService, Bool.or_eq_true] at hservice ⊢
  tauto

section Nested

/-! ## One level of nesting -/

variable {announce : Announce} {m : Nat}

/-- Announcements that may still nest `m` deep have derivations. -/
def Announce.Derives (announce : Announce) (m : Nat) : Prop :=
  ∀ c w, Network w → w.idle < m → Yields (announce c) w fun _ w' => Runs (.announce c) w w'

variable (hann : announce.Derives m)

include hann

theorem setAttr_runs {w : World} (h : Network w) (hm : w.idle < m) (o : Handle) (attr : String)
    (v : Value) : Yields (setAttr announce o attr v) w fun _ w' => Runs (.set o attr v) w w' := by
  have hannounce := hann ⟨o, attr, w.stored o attr, v⟩ (w.write o attr v) (h.write o attr v)
    ((Keeps.write w o attr v).idle ▸ hm)
  refine Yields.get_bind ?_
  cases hattr : w.attr? o attr with
  | none =>
      have hold : w.stored o attr = .nil := by simp [stored, hattr]
      rw [hold] at hannounce
      refine Yields.modify_bind (Yields.bind (hannounce.imp fun _ w' hrun => Yields.of_pure ?_))
      exact .changed (by simp [hattr]) (by rwa [hold])
  | some old =>
      by_cases heq : (old == v) = true
      · simp only [heq, if_true]
        exact Yields.of_pure (.unchanged hattr heq)
      · have hold : w.stored o attr = old := by simp [stored, hattr]
        rw [hold] at hannounce
        simp only [heq]
        refine Yields.modify_bind (Yields.bind (hannounce.imp fun _ w' hrun => Yields.of_pure ?_))
        exact .changed (by simpa [hattr] using heq) (by rwa [hold])

theorem storeValue_runs {w : World} (h : Network w) (hm : w.idle < m) {b : Nat} {x y : Binding}
    (hy : w.binding? b = some y) (hbusy : y.busy = true) (hplan : x.SamePlan y) (v : Value) :
    Yields (storeValue announce x v) w fun r w' => Runs (.store b v r) w w' := by
  have huse := h.inUse y (mem_of_binding? _ hy) (Binding.inService_of_busy hbusy)
  unfold storeValue
  rw [hplan.target, hplan.attr, hplan.kind]
  refine Yields.bind ((setAttr_runs hann h hm y.target y.attr v).imp ?_)
  intro _ w₁ hrun
  obtain ⟨hnet, hkeeps⟩ := hrun.keeps h trivial
  cases hkind : y.kind with
  | notify => exact False.elim (huse.kind hkind)
  | bind => exact Yields.of_pure (.bound hy hkind hrun)
  | delegate =>
      refine Yields.get_bind ?_
      by_cases heq : (w₁.stored y.target y.attr == v) = true
      · have heq' : (((w₁.attr? y.target y.attr).getD .nil) == v) = true := heq
        simp only [heq', if_true]
        exact Yields.of_pure (.agreed hy hkind hrun heq)
      · have hne : (w₁.stored y.target y.attr == v) = false := by simpa using heq
        have hne' : (((w₁.attr? y.target y.attr).getD .nil) == v) = false := hne
        have hfree : x.code.HostFree { frame := x.frame } := by
          rw [hplan.code, hplan.frame]
          exact huse.hostFree
        simp only [hne']
        refine Yields.bind ⟨_, _, sourceOf_eq announce hfree w₁, ?_⟩
        rw [hplan.source]
        cases hsource : y.source w₁ with
        | error e => exact Yields.of_pure (.unreturned hy hkind hrun hne hsource)
        | ok path =>
            obtain ⟨o, attr⟩ := path
            have hnested := setAttr_runs hann hnet (hkeeps.idle ▸ hm) o attr
              (w₁.stored y.target y.attr)
            refine Yields.bind (hnested.imp fun _ w₂ hrunSource => Yields.of_pure ?_)
            exact .handedBack hy hkind hrun hne hsource hrunSource

/-- What a binding comes to that goes to work: `post` is about the world before it goes home. -/
theorem refresh_runs {w : World} (h : Network w) (hm : w.idle ≤ m) {b : Nat} {x : Binding}
    (hx : w.binding? b = some x) (hbusy : x.busy = false) (huse : w.InUse x) :
    Yields (refresh announce b) w fun r w' =>
      ∃ w₁, Runs (.refresh b r) (w.setBusy b true) w₁ ∧ w' = w₁.setBusy b false := by
  have hmem := mem_of_binding? _ hx
  have hid := w.id_of_binding? hx
  have hlt := idle_setBusy_lt hmem hid hbusy
  have hnet := h.setBusy hx huse
  have hset := binding?_setBusy hx true
  refine Yields.of_guarded hx hbusy (Yields.get_bind ?_)
  have halive : (w.setBusy b true).isAlive x.target = true := huse.alive
  simp only [halive, Bool.not_true, Bool.false_eq_true, if_false]
  have hlook := huse.hostFree.evaluate_eq_look (applyFunc_callsBuiltins announce) (w.setBusy b true)
  refine Yields.bind ⟨_, _, hlook, ?_⟩
  cases hresult : x.code.look { frame := x.frame } (w.setBusy b true) with
  | mk result reads =>
      have hservice := Binding.inService_of_busy (x := { x with busy := true }) rfl
      obtain ⟨⟨⟩, w₁, hsub, heval⟩ := hnet.evaluated hset hservice result reads
      refine Yields.modify_bind (Yields.bind ⟨_, w₁, hsub, Yields.modify_bind ?_⟩)
      have hnotices := Notices.notice (.dependsOn x.label reads.length) (.refl w₁)
      have hkeeps := heval.keeps.trans hnotices.keeps
      cases result with
      | error e => exact Yields.of_pure ⟨_, .failed hset hresult hsub hnotices, rfl⟩
      | ok v =>
          obtain ⟨y, hy, hcore⟩ := hkeeps.exists_core hset
          have hplan : x.SamePlan y :=
            (Binding.SamePlan.setBusy x true).trans (Binding.SamePlan.of_core hcore).symm
          have hybusy : y.busy = true := congrArg (·.busy) hcore
          have hstore := storeValue_runs hann (hnotices.network heval.network)
            (by rw [hkeeps.idle]; omega) hy hybusy hplan v
          exact hstore.imp fun r w' hrun => ⟨w', .evaluated hset hresult hsub hnotices hrun, rfl⟩

theorem writeBack_runs {w : World} (h : Network w) (hm : w.idle ≤ m) {b : Nat} {x : Binding}
    (hx : w.binding? b = some x) (hbusy : x.busy = false) (huse : w.InUse x) (c : Change) :
    Yields (writeBack announce b c) w fun r w' =>
      ∃ w₁, Runs (.writeBack b c r) (w.setBusy b true) w₁ ∧ w' = w₁.setBusy b false := by
  have hlt := idle_setBusy_lt (mem_of_binding? _ hx) (w.id_of_binding? hx) hbusy
  have hnet := h.setBusy hx huse
  have hset := binding?_setBusy hx true
  refine Yields.of_guarded hx hbusy ?_
  refine Yields.bind ⟨_, _, sourceOf_eq announce huse.hostFree _, ?_⟩
  cases hsource : x.source (w.setBusy b true) with
  | error e => exact Yields.of_pure ⟨_, .sourceless hset hsource, rfl⟩
  | ok path =>
      obtain ⟨o, attr⟩ := path
      refine Yields.get_bind ?_
      by_cases hflight : (w.setBusy b true).isInFlight o attr = true
      · simp only [hflight, if_true]
        refine Yields.modify_bind (Yields.of_pure ⟨_, ?_, rfl⟩)
        exact .sourceInFlight hset hsource hflight (.notice _ (.refl _))
      · have hidle : (w.setBusy b true).isInFlight o attr = false := by simpa using hflight
        simp only [hidle]
        have hnotices := Notices.notice (.writingBack x.label) (.refl (w.setBusy b true))
        have hset₁ := hnotices.network hnet
        refine Yields.modify_bind (Yields.bind ((setAttr_runs hann hset₁ (by
          rw [hnotices.keeps.idle]; omega) o attr c.new).imp ?_))
        intro _ w₁ hrun
        obtain ⟨hnet₁, hkeeps⟩ := hrun.keeps hset₁ trivial
        refine Yields.get_bind ?_
        by_cases heq : (w₁.stored o attr == c.new) = true
        · have heq' : ((w₁.attr? o attr).getD .nil == c.new) = true := heq
          simp only [heq', if_true]
          exact Yields.of_pure ⟨_, .returned hset hsource hidle hnotices hrun heq, rfl⟩
        · have hne : (w₁.stored o attr == c.new) = false := by simpa using heq
          have hne' : ((w₁.attr? o attr).getD .nil == c.new) = false := hne
          simp only [hne']
          refine Yields.bind ((setAttr_runs hann hnet₁ (by
            rw [hkeeps.idle, hnotices.keeps.idle]; omega) c.object x.attr (w₁.stored o attr)).imp ?_)
          intro _ w₂ hrunTarget
          refine Yields.of_pure ⟨_, ?_, rfl⟩
          exact .normalised hset hsource hidle hnotices hrun hne hrunTarget

theorem onSource_runs {w : World} (h : Network w) (hm : w.idle ≤ m) {c : Change} {b : Nat}
    {x : Binding} (hx : w.binding? b = some x) (hservice : x.inService = true) :
    Yields (onSource announce x) w fun _ w' => Runs (.react c .source b) w w' := by
  have huse := h.inUse x (mem_of_binding? _ hx) hservice
  have halive := huse.alive
  refine Yields.get_bind ?_
  simp only [halive, Bool.not_true, Bool.false_eq_true, if_false]
  split
  next hbusy => exact Yields.of_modify (.skipped hx (.atWork hbusy) (.notice _ (.refl w)))
  next hbusy =>
    split
    next hflight =>
      exact Yields.of_modify (.skipped hx (.targetInFlight hflight) (.notice _ (.refl w)))
    next hflight =>
      have hidle : x.busy = false := by simpa using hbusy
      have hfree : w.isInFlight x.target x.attr = false := by simpa using hflight
      have hnotices := Notices.notice (.reevaluating x.label) (.refl w)
      refine Yields.modify_bind ?_
      rw [w.id_of_binding? hx]
      have hrefresh := refresh_runs hann (hnotices.network h) (hnotices.keeps.idle ▸ hm)
        (hx : (w.notice (.reevaluating x.label)).binding? b = some x) hidle
        (huse.congr (fun _ => rfl) rfl)
      refine Yields.bind (hrefresh.imp ?_)
      rintro r w' ⟨w₁, hrun, rfl⟩
      exact (noteFailure_notices x.label r _).imp fun _ w₂ hn =>
        .refreshed hx hidle hfree hnotices hrun hn

theorem onTarget_runs {w : World} (h : Network w) (hm : w.idle ≤ m) {c : Change} {b : Nat}
    {x : Binding} (hx : w.binding? b = some x) (hservice : x.inService = true)
    (hkind : x.kind = .delegate) :
    Yields (onTarget announce x c) w fun _ w' => Runs (.react c .target b) w w' := by
  have huse := h.inUse x (mem_of_binding? _ hx) hservice
  unfold onTarget
  simp only [hkind]
  rw [w.id_of_binding? hx]
  cases hbusy : x.busy with
  | true =>
      refine Yields.bind (Yields.of_guarded_busy hx hbusy ?_)
      exact Yields.of_pure (.skipped hx (.atWork hbusy) (.refl w))
  | false =>
      refine Yields.bind ((writeBack_runs hann h hm hx hbusy huse c).imp ?_)
      rintro r w' ⟨w₁, hrun, rfl⟩
      exact (noteFailure_notices x.label r _).imp fun _ w₂ hn => .answered hx hbusy hrun hn

theorem react_runs {w : World} (h : Network w) (hm : w.idle ≤ m) {c : Change} {role : Role}
    {b : Nat} (hready : (Work.react c role b).Ready w) :
    Yields (react announce (role.callback b) c) w fun _ w' => Runs (.react c role b) w w' := by
  obtain ⟨x, hx, hservice, hkind⟩ := hready
  have hrelease : ∀ w', Runs (.react c role b) w w' → w'.release b = w' := by
    intro w' hrun
    obtain ⟨-, hkeeps⟩ := hrun.keeps h ⟨x, hx, hservice, hkind⟩
    obtain ⟨x', hx', hcore⟩ := hkeeps.exists_core hx
    exact release_of_inService hx' ((Binding.inService_of_core hcore).trans hservice)
  cases role with
  | source =>
      refine Yields.get_bind ?_
      simp only [hx]
      refine Yields.bind ((onSource_runs (c := c) hann h hm hx hservice).imp fun _ w' hrun => ?_)
      exact Yields.of_modify (by rwa [hrelease w' hrun])
  | target =>
      refine Yields.get_bind ?_
      simp only [hx]
      refine Yields.bind ((onTarget_runs hann h hm hx hservice (hkind rfl)).imp fun _ w' hrun => ?_)
      exact Yields.of_modify (by rwa [hrelease w' hrun])

/-- No other observer has taken the number of one in the list. -/
def Snapshot (w : World) (o : Handle) (observers : List Observer) : Prop :=
  ∀ obs ∈ observers, obs.id < w.nextObserver o ∧
    ∀ obs' ∈ w.observers o, obs'.id = obs.id → obs' = obs

theorem deliver_runs {w : World} (h : Network w) (hm : w.idle ≤ m) (c : Change)
    {observers : List Observer} (hsnapshot : Snapshot w c.object observers)
    (hserved : ∀ obs ∈ observers, ∃ (role : Role) (b : Nat), obs.callback = role.callback b) :
    Yields (deliver announce c observers) w fun _ w' => Runs (.deliver c observers) w w' := by
  induction observers generalizing w with
  | nil => exact Yields.of_pure .delivered
  | cons obs rest ih =>
      have hrest : Snapshot w c.object rest := fun y hy => hsnapshot y (List.mem_cons_of_mem _ hy)
      have hservedRest : ∀ y ∈ rest, ∃ (role : Role) (b : Nat), y.callback = role.callback b :=
        fun y hy => hserved y (List.mem_cons_of_mem _ hy)
      refine Yields.get_bind ?_
      split
      next hregistered =>
        obtain ⟨obs', hobs', hid⟩ := (w.isRegistered_iff _).mp hregistered
        obtain rfl := (hsnapshot obs List.mem_cons_self).2 obs' hobs' hid
        obtain ⟨role, b, hcall⟩ := hserved obs' List.mem_cons_self
        have hready := h.ready hobs' hcall
        rw [hcall]
        refine Yields.modify_bind ?_
        have hlogged : Network (w.log (.called c obs'.id)) := h.log fun _ => rfl
        refine Yields.bind ((react_runs hann hlogged hm hready).imp fun _ w₁ hrun => ?_)
        obtain ⟨hnet, hkeeps⟩ := hrun.keeps hlogged hready
        have hkept : Snapshot w₁ c.object rest := by
          intro y hy
          refine ⟨Nat.lt_of_lt_of_le (hrest y hy).1 (hkeeps.nextObserver c.object), ?_⟩
          intro y' hy' hyid
          rcases hkeeps.observers c.object y' hy' with hold | hnew
          · exact (hrest y hy).2 y' hold hyid
          · have hlt := (hrest y hy).1
            change w.nextObserver c.object ≤ y'.id at hnew
            omega
        have hidle : w₁.idle ≤ m := hkeeps.idle ▸ hm
        exact (ih hnet hidle hkept hservedRest).imp fun _ w' hrunRest =>
          .called hobs' hcall hrun hrunRest
      next hregistered =>
        refine (ih h hm hrest hservedRest).imp fun _ w' hrun => .dropped (fun hobs => ?_) hrun
        exact hregistered ((w.isRegistered_iff _).mpr ⟨obs, hobs, rfl⟩)

end Nested

/-- In a network an announcement that may nest deeper than there are idle bindings has a
derivation. -/
theorem announce_runs (n : Nat) : (announce n).Derives n := by
  induction n with
  | zero => exact fun _ w _ hn => absurd hn (Nat.not_lt_zero _)
  | succ n ih =>
      intro c w h hn
      refine Yields.get_bind ?_
      by_cases hobs : w.observersOf c.object c.attr = []
      · simp only [hobs, List.isEmpty_nil, if_true]
        exact Yields.of_pure (.unheard hobs)
      · have hheard : (w.observersOf c.object c.attr).isEmpty = false := by simpa using hobs
        simp only [hheard]
        have hmem : ∀ obs ∈ w.observersOf c.object c.attr, obs ∈ w.observers c.object :=
          fun obs hobs => (mem_observersOf.mp hobs).1
        have hsnapshot : Snapshot (w.beginFlight c) c.object (w.observersOf c.object c.attr) := by
          intro obs hin
          rw [nextObserver_beginFlight, observers_beginFlight]
          exact ⟨h.wired.lt _ obs (hmem obs hin),
            fun obs' hobs' hid => h.wired.eq_of_id hobs' (hmem obs hin) hid⟩
        have hserved : ∀ obs ∈ w.observersOf c.object c.attr,
            ∃ (role : Role) (b : Nat), obs.callback = role.callback b :=
          fun obs hin => h.served _ obs (hmem obs hin)
        have hdeliver := deliver_runs ih (h.beginFlight c) (Nat.le_of_lt_succ hn) c hsnapshot hserved
        refine Yields.modify_bind (Yields.bind (hdeliver.imp fun _ w' hrun => ?_))
        exact Yields.of_modify (.heard hobs hrun)

end LiveUI
