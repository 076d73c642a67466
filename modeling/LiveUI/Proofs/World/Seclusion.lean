import LiveUI.Proofs.World.Step
import LiveUI.Proofs.World.Realms

/-! # Propagation stays in its realm

A write in a realm is announced to bindings of the realm. They evaluate code that reaches the realm
only, observe what they read there and write there in turn, so that whatever follows from the write
takes place in the realm. -/

namespace LiveUI

open World Step

/-! ## Steps that stay in a realm -/

namespace Step

variable {α β : Type} {R : Realm} {w : World}

/-- Begun in `w`, the step changes the world within the realm only, and what it comes to is as `post`
says. -/
def Minds (R : Realm) (w : World) (m : Step α) (post : α → World → Prop) : Prop :=
  ∀ a w', m w = some (a, w') → R.Within w w' ∧ post a w'

namespace Minds

variable {m : Step α} {Q : α → World → Prop} {P : β → World → Prop}

instance : Trans R.Within R.Within R.Within :=
  ⟨Realm.Within.trans⟩

theorem pure (h : R.Sealed w) {a : α} (ha : Q a w) : Minds R w (Pure.pure a) Q :=
  Along.pure (.refl h) ha

theorem imp {Q' : α → World → Prop} (h : Minds R w m Q) (himp : ∀ a w', Q a w' → Q' a w') :
    Minds R w m Q' :=
  Along.imp h himp

theorem bind {f : α → Step β} (hm : Minds R w m Q)
    (hf : ∀ a w₁, R.Within w w₁ → Q a w₁ → Minds R w₁ (f a) P) : Minds R w (m >>= f) P :=
  Along.bind hm hf

theorem get_bind {f : World → Step β} (h : Minds R w (f w) P) : Minds R w (get >>= f) P := h

theorem of_modify {f : World → World} (h : R.Within w (f w)) :
    Minds R w (modify f : Step PUnit) fun _ w' => w' = f w :=
  Along.of_modify h

theorem modify_bind {f : World → World} {g : PUnit → Step β} (h : R.Within w (f w))
    (hg : Minds R (f w) (g ⟨⟩) P) : Minds R w (modify f >>= g) P :=
  Along.modify_bind h hg

theorem of_modifyGet {f : World → α × World} (h : R.Within w (f w).2) :
    Minds R w (modifyGet f : Step α) fun a w' => a = (f w).1 ∧ w' = (f w).2 :=
  Along.of_modifyGet h

theorem modifyGet_bind {f : World → α × World} {g : α → Step β} (h : R.Within w (f w).2)
    (hg : Minds R (f w).2 (g (f w).1) P) : Minds R w (modifyGet f >>= g) P :=
  Along.modifyGet_bind h hg

theorem notice (h : R.Sealed w) (n : Notice) : Minds R w (Step.notice n) fun _ w' => w' = w.notice n :=
  of_modify (.log h _)

theorem notice_bind {g : PUnit → Step β} (h : R.Sealed w) (n : Notice)
    (hg : Minds R (w.notice n) (g ⟨⟩) P) : Minds R w (Step.notice n >>= g) P :=
  modify_bind (.log h _) hg

end Minds

/-- The step stays in the realm, whatever it comes to. -/
abbrev Stays (R : Realm) (w : World) (m : Step α) : Prop :=
  Minds R w m fun _ _ => True

theorem Minds.stays {m : Step α} {Q : α → World → Prop} (h : Minds R w m Q) : Stays R w m :=
  h.imp fun _ _ _ => trivial

end Step

namespace Realm

variable {R : Realm} {w w' : World}

theorem Sealed.stored (h : R.Sealed w) {o : Handle} (ho : R.objects o.id) (attr : String) :
    R.Contains w ((w.attr? o attr).getD .nil) := by
  cases hstored : w.attr? o attr with
  | none => exact contains_nil
  | some v => exact h.attrs o attr v ho hstored

/-- A change of the realm, announced with values of the realm. -/
structure Tells (R : Realm) (w : World) (c : Change) : Prop where
  object : R.Has w c.object.id
  old : R.Contains w c.old
  new : R.Contains w c.new

theorem Tells.mono {c : Change} (h : R.Tells w c) (hle : w.nextObject ≤ w'.nextObject) :
    R.Tells w' c :=
  ⟨h.object.mono hle, h.old.mono hle, h.new.mono hle⟩

/-- Announcements of the realm stay in it. -/
def Secludes (R : Realm) (announce : Announce) : Prop :=
  ∀ w c, R.Sealed w → R.Tells w c → Stays R w (announce c)

end Realm

/-! ## Evaluation -/

namespace Code

mutual

theorem origins_forall {P : Value → Prop} {scope : Scope} (hslots : ∀ n, P (scope.frame.get n))
    (hchange : P scope.change) :
    ∀ c : Code, (∀ v ∈ c.constants, P v) → ∀ v ∈ c.origins scope, P v
  | .const _, h => h
  | .slot n, _ => by
      simp only [origins, List.mem_singleton]
      rintro _ rfl
      exact hslots n
  | .change, _ => by
      simp only [origins, List.mem_singleton]
      rintro _ rfl
      exact hchange
  | .list items, h => allOrigins_forall hslots hchange items h
  | .attr value _, h => origins_forall hslots hchange value h
  | .unary _ operand, h => origins_forall hslots hchange operand h
  | .index left right, h | .binary _ left right, h | .boolOp _ left right, h => by
      simp only [constants, List.forall_mem_append] at h
      simp only [origins, List.forall_mem_append]
      exact ⟨origins_forall hslots hchange left h.1, origins_forall hslots hchange right h.2⟩
  | .call func args, h => by
      simp only [constants, List.forall_mem_append] at h
      simp only [origins, List.forall_mem_append]
      exact ⟨origins_forall hslots hchange func h.1, allOrigins_forall hslots hchange args h.2⟩
  | .ifElse body condition otherwise, h => by
      simp only [constants, List.forall_mem_append] at h
      simp only [origins, List.forall_mem_append]
      exact ⟨⟨origins_forall hslots hchange body h.1.1, origins_forall hslots hchange condition h.1.2⟩,
        origins_forall hslots hchange otherwise h.2⟩

theorem allOrigins_forall {P : Value → Prop} {scope : Scope} (hslots : ∀ n, P (scope.frame.get n))
    (hchange : P scope.change) :
    ∀ cs : List Code, (∀ v ∈ constantsList cs, P v) → ∀ v ∈ allOrigins scope cs, P v
  | [], _ => nofun
  | c :: cs, h => by
      simp only [constantsList, List.forall_mem_append] at h
      simp only [allOrigins, List.forall_mem_append]
      exact ⟨origins_forall hslots hchange c h.1, allOrigins_forall hslots hchange cs h.2⟩

end

variable {R : Realm} {w : World}

/-- Code whose constants and slots are of the realm comes to a value of the realm and reads there
only. It changes nothing. -/
theorem evaluate_minds (h : R.Sealed w) {code : Code} {scope : Scope}
    (hslots : ∀ v ∈ scope.frame.slots, R.Contains w v) (hchange : R.Contains w scope.change)
    (hcode : ∀ v ∈ code.constants, R.Contains w v) (announce : Announce) (recording : Bool) :
    Minds R w (code.evaluate (applyFunc announce) scope recording) fun out w' =>
      w' = w ∧ Gives (R.Contains w) out.1 ∧ ∀ p ∈ out.2, R.Has w p.1.id := by
  have hget (n : Nat) : R.Contains w (scope.frame.get n) := by
    rw [Frame.get, List.getD_eq_getElem?_getD]
    cases hslot : scope.frame.slots[n]? with
    | none => exact Realm.contains_nil
    | some v => exact hslots v (List.mem_of_getElem? hslot)
  obtain ⟨result, s, hout, -, hreads, hresult⟩ :=
    eval_draws h.hereditary code (origins_forall hget hchange code hcode) { recording }
  have hsame := ((eval_observes (applyFunc_callsBuiltins announce) scope code).same hout).2
  rw [Minds, evaluate_eq_outcome, hsame]
  rintro _ _ ⟨⟩
  refine ⟨.refl h, rfl, hresult, fun p hp => ?_⟩
  exact Realm.contains_object.mp ((hreads p hp).resolve_left List.not_mem_nil)

theorem value_minds (h : R.Sealed w) {code : Code} {scope : Scope}
    (hslots : ∀ v ∈ scope.frame.slots, R.Contains w v) (hchange : R.Contains w scope.change)
    (hcode : ∀ v ∈ code.constants, R.Contains w v) (announce : Announce) :
    Minds R w (code.value (applyFunc announce) scope) fun r w' => w' = w ∧ Gives (R.Contains w) r :=
  (evaluate_minds h hslots hchange hcode announce false).bind fun _ _ hin hout =>
    .pure hin.isSealed ⟨hout.1, hout.2.1⟩

end Code

/-! ## Writes -/

section Announcing

variable {R : Realm} {announce : Announce} {w : World}

/-- The observers of the reads of an evaluation. -/
theorem observeAll_minds (h : R.Sealed w) {b : Nat} (hb : R.Serves w b)
    {reads : List (Handle × String)} (hreads : ∀ p ∈ reads, R.Has w p.1.id) :
    Minds R w (reads.mapM fun (o, attr) =>
      (modifyGet (·.observe o attr (.source b)) : Step Subscription))
      fun fresh w' => ∀ s ∈ fresh, R.Has w' s.object.id ∧ w'.Issued s := by
  induction reads generalizing w with
  | nil => exact .pure h nofun
  | cons p reads ih =>
      rw [List.mapM_cons]
      have hp := hreads p List.mem_cons_self
      have hobserve := Realm.Within.observe h hp.1 p.2 (.source b) rfl hb
      refine (Minds.of_modifyGet hobserve).bind ?_
      rintro s w₁ hin ⟨rfl, rfl⟩
      refine (ih hin.isSealed (hb.mono hin.nextBinding) fun q hq =>
        (hreads q (List.mem_cons_of_mem p hq)).mono hin.nextObject).bind fun fresh w₂ hin' hfresh => ?_
      refine .pure hin'.isSealed fun s hs => ?_
      rcases List.mem_cons.mp hs with rfl | hs
      · exact ⟨(hp.mono hin.nextObject).mono hin'.nextObject,
          hin'.issued (issued_observe p.1 p.2 _ hp.2)⟩
      · exact hfresh s hs

theorem resubscribe_stays (h : R.Sealed w) {b : Nat} (hb : R.Serves w b)
    {reads : List (Handle × String)} (hreads : ∀ p ∈ reads, R.Has w p.1.id) :
    Stays R w (resubscribe b reads) := by
  refine (observeAll_minds h hb hreads).bind fun fresh w₁ hin hfresh => .get_bind ?_
  have hstale : ∀ s ∈ (w₁.binding? b).elim [] (·.sources), R.objects s.object.id := by
    cases hx : w₁.binding? b with
    | none => exact nofun
    | some x =>
        intro s hs
        exact ((hin.isSealed.bindings b x hb.1 hx).subscriptions s (List.mem_append_left _ hs)).1
  have hrenew : R.Within w₁ (w₁.modifyBinding b fun x => { x with sources := fresh }) :=
    .modifyBinding hin.isSealed hb.1 (fun _ => rfl)
      (fun x hx => ⟨hx.target, hx.slots, hx.constants, fun s hs =>
        (List.mem_append.mp hs).elim (fun hs => (hfresh s hs).1)
          fun hs => hx.subscriptions s (List.mem_append_right _ hs)⟩)
      fun x s hs => (List.mem_append.mp hs).elim (fun hs => .inr (hfresh s hs).2)
        fun hs => .inl (List.mem_append_right _ hs)
  refine .modify_bind hrenew (Minds.stays (.of_modify ?_))
  exact .unobserveAll hrenew.isSealed hstale

theorem noteFailure_stays (h : R.Sealed w) (label : String) (r : Except EvalError Unit) :
    Stays R w (noteFailure label r) := by
  cases r with
  | ok _ => exact .pure h trivial
  | error e => exact (Minds.notice h _).stays

/-- The object that a delegate of the realm writes back to is one of the realm. -/
theorem sourceOf_minds (h : R.Sealed w) {x : Binding} (hx : R.Holds w x) :
    Minds R w (sourceOf announce x) fun r w' =>
      w' = w ∧ Gives (fun p => R.Has w p.1.id) r := by
  unfold sourceOf
  split
  next => exact .pure h ⟨rfl, .error _⟩
  next base attr hpath =>
    have hbase : ∀ v ∈ base.constants, R.Contains w v := by
      unfold Code.attrPath? at hpath
      split at hpath
      next hcode =>
        obtain ⟨rfl, rfl⟩ := by simpa using hpath
        have hconstants := hx.constants
        rwa [hcode] at hconstants
      next => cases hpath
    refine (Code.value_minds h hx.slots Realm.contains_nil hbase announce).bind ?_
    rintro r _ - ⟨rfl, hr⟩
    split
    next o => exact .pure h ⟨rfl, .ok (Realm.contains_object.mp (hr _ rfl))⟩
    next => exact .pure h ⟨rfl, .error _⟩
    next => exact .pure h ⟨rfl, .error _⟩

variable (ha : R.Secludes announce)

include ha

theorem setAttr_stays (h : R.Sealed w) {o : Handle} (ho : R.Has w o.id) (attr : String) {v : Value}
    (hv : R.Contains w v) : Stays R w (setAttr announce o attr v) := by
  have hwrite := Realm.Within.write h ho.1 attr hv
  refine .get_bind ?_
  split
  next old hold =>
    split
    · exact .pure h trivial
    · refine .modify_bind hwrite ((ha _ _ hwrite.isSealed ⟨?_, ?_, ?_⟩).bind fun _ _ hin _ =>
        .pure hin.isSealed trivial)
      · exact ho.mono hwrite.nextObject
      · exact (h.attrs o attr old ho.1 hold).mono hwrite.nextObject
      · exact hv.mono hwrite.nextObject
  next =>
    exact .modify_bind hwrite <| (ha _ _ hwrite.isSealed ⟨ho.mono hwrite.nextObject,
      Realm.contains_nil, hv.mono hwrite.nextObject⟩).bind fun _ _ hin _ => .pure hin.isSealed trivial

theorem emitAttr_stays (h : R.Sealed w) {o : Handle} (ho : R.Has w o.id) (attr : String) {v : Value}
    (hv : R.Contains w v) : Stays R w (emitAttr announce o attr v) := by
  have hwrite := Realm.Within.write h ho.1 attr hv
  exact .get_bind <| .modify_bind hwrite <| ha _ _ hwrite.isSealed ⟨ho.mono hwrite.nextObject,
    (h.stored ho.1 attr).mono hwrite.nextObject, hv.mono hwrite.nextObject⟩

theorem storeValue_stays (h : R.Sealed w) {x : Binding} (hx : R.Holds w x) {v : Value}
    (hv : R.Contains w v) : Stays R w (storeValue announce x v) := by
  refine (setAttr_stays ha h hx.target x.attr hv).bind fun _ w₁ hin _ => ?_
  have hx₁ := hx.mono hin.nextObject
  split
  · exact .pure hin.isSealed trivial
  · refine .get_bind ?_
    dsimp only
    split
    · exact .pure hin.isSealed trivial
    · refine (sourceOf_minds hin.isSealed hx₁).bind ?_
      rintro r _ - ⟨rfl, hr⟩
      split
      next => exact .pure hin.isSealed trivial
      next source attr =>
        exact (setAttr_stays ha hin.isSealed (hr _ rfl) attr
          (hin.isSealed.stored hx₁.target.1 x.attr)).bind fun _ _ hin' _ =>
            .pure hin'.isSealed trivial

/-! ## Bindings at work -/

omit ha in
theorem guarded_stays (h : R.Sealed w) {b : Nat} (hb : R.Serves w b)
    {work : Binding → Step (Except EvalError Unit)}
    (hwork : ∀ x w₁, R.Within w w₁ → R.Holds w₁ x → Stays R w₁ (work x)) :
    Stays R w (guarded b work) := by
  refine .get_bind ?_
  split
  next => exact .pure h trivial
  next x hx =>
    split
    · exact .pure h trivial
    · have hbusy := Realm.Within.setBusy h hb.1 true
      have hheld := (h.bindings b x hb.1 hx).mono hbusy.nextObject
      refine .modify_bind hbusy <|
        (hwork x _ hbusy hheld).bind fun r w₁ hin _ => ?_
      have hidle := Realm.Within.setBusy hin.isSealed hb.1 false
      exact .modify_bind hidle (.pure hidle.isSealed trivial)

theorem refresh_stays (h : R.Sealed w) {b : Nat} (hb : R.Serves w b) :
    Stays R w (refresh announce b) := by
  refine guarded_stays h hb fun x w₁ hin₁ hx => .get_bind ?_
  have h₁ := hin₁.isSealed
  split
  · exact .pure h₁ trivial
  · refine (Code.evaluate_minds h₁ hx.slots Realm.contains_nil hx.constants announce true).bind ?_
    rintro ⟨result, reads⟩ _ - ⟨rfl, hresult, hreads⟩
    refine .modify_bind (.log h₁ _) ?_
    have hlog := Realm.Within.log h₁ (.evaluated b result reads)
    refine (resubscribe_stays hlog.isSealed (hb.mono (hin₁.trans hlog).nextBinding) fun p hp =>
      (hreads p hp).mono hlog.nextObject).bind fun _ w₂ hin _ => ?_
    refine .notice_bind hin.isSealed _ ?_
    have hnoted := (hlog.trans hin).trans (.log hin.isSealed (.notice (.dependsOn x.label reads.length)))
    cases result with
    | error e => exact .pure hnoted.isSealed trivial
    | ok v =>
        exact storeValue_stays ha hnoted.isSealed (hx.mono hnoted.nextObject)
          ((hresult v rfl).mono hnoted.nextObject)

theorem onSource_stays (h : R.Sealed w) {x : Binding} (hb : R.Serves w x.id) :
    Stays R w (onSource announce x) := by
  refine .get_bind ?_
  split
  · exact .pure h trivial
  · split
    · exact (Minds.notice h _).stays
    · split
      · exact (Minds.notice h _).stays
      · have hnoted := Realm.Within.log h (.notice (.reevaluating x.label))
        refine .notice_bind h _ ((refresh_stays ha hnoted.isSealed
          (hb.mono hnoted.nextBinding)).bind fun r _ hin _ => ?_)
        exact noteFailure_stays hin.isSealed x.label r

theorem writeBack_stays (h : R.Sealed w) {b : Nat} (hb : R.Serves w b) {c : Change}
    (hc : R.Tells w c) : Stays R w (writeBack announce b c) := by
  refine guarded_stays h hb fun x w₁ hin₁ hx => ?_
  have h₁ := hin₁.isSealed
  have hc₁ := hc.mono hin₁.nextObject
  refine (sourceOf_minds h₁ hx).bind ?_
  rintro r w₁ - ⟨rfl, hr⟩
  split
  next => exact .pure h₁ trivial
  next source attr =>
    have hsource : R.Has w₁ source.id := hr _ rfl
    refine .get_bind ?_
    dsimp only
    split
    · exact .notice_bind h₁ _ (.pure (Realm.Within.log h₁ _).isSealed trivial)
    · have hnoted := Realm.Within.log h₁ (.notice (.writingBack x.label))
      refine .notice_bind h₁ _ ((setAttr_stays ha hnoted.isSealed (hsource.mono hnoted.nextObject) attr
        (hc₁.new.mono hnoted.nextObject)).bind fun _ w₂ hin _ => .get_bind ?_)
      split
      · exact .pure hin.isSealed trivial
      · have hin₂ := hnoted.trans hin
        exact (setAttr_stays ha hin.isSealed (hc₁.object.mono hin₂.nextObject) x.attr
          (hin.isSealed.stored hsource.1 attr)).bind fun _ _ hin' _ => .pure hin'.isSealed trivial

omit ha in
theorem fire_stays (h : R.Sealed w) {b : Nat} (hb : R.Serves w b) {c : Change}
    (hc : R.Tells w c) : Stays R w (fire announce b c) := by
  refine guarded_stays h hb fun x w₁ hin₁ hx => ?_
  have hc₁ := hc.mono hin₁.nextObject
  have hattrs : ∀ a ∈ [("object", .object c.object), ("name", .str c.attr), ("old", c.old),
      ("new", c.new)], R.Contains w₁ a.2 := by
    simp only [List.forall_mem_cons]
    exact ⟨Realm.contains_object.mpr hc₁.object, Realm.contains_str _, hc₁.old, hc₁.new, nofun⟩
  obtain ⟨hmade, hrecord⟩ := Realm.Within.create hin₁.isSealed "ChangeArgs" hattrs
  have hlog := Realm.Within.log hmade.isSealed (.notice (.notifying x.label))
  refine .modifyGet_bind hmade (.notice_bind hmade.isSealed _ ?_)
  have hx₂ := hx.mono (hmade.trans hlog).nextObject
  have hchange := (Realm.contains_object.mpr hrecord).mono hlog.nextObject
  refine (Code.value_minds hlog.isSealed hx₂.slots hchange hx₂.constants announce).bind
    fun r _ hin _ => ?_
  refine .modify_bind (.log hin.isSealed _) ?_
  split <;> exact .pure (Realm.Within.log hin.isSealed _).isSealed trivial

theorem onTarget_stays (h : R.Sealed w) {x : Binding} (hb : R.Serves w x.id) {c : Change}
    (hc : R.Tells w c) : Stays R w (onTarget announce x c) := by
  unfold onTarget
  cases x.kind with
  | bind => exact noteFailure_stays h x.label (.ok ())
  | delegate =>
      exact (writeBack_stays ha h hb hc).bind fun r _ hin _ => noteFailure_stays hin.isSealed x.label r
  | notify =>
      exact (fire_stays h hb hc).bind fun r _ hin _ => noteFailure_stays hin.isSealed x.label r

/-! ## Announcements -/

theorem react_stays (h : R.Sealed w) {callback : Callback} {b : Nat}
    (hcall : callback.binding? = some b) (hb : R.Serves w b) {c : Change} (hc : R.Tells w c) :
    Stays R w (react announce callback c) := by
  have released {w₁ : World} (h₁ : R.Sealed w₁) : Stays R w₁ (modify (·.release b) : Step PUnit) :=
    (Minds.of_modify (.release h₁ hb.1)).stays
  cases callback with
  | host routine => simp [Callback.binding?] at hcall
  | source b' =>
      obtain rfl : b' = b := by simpa [Callback.binding?] using hcall
      refine .get_bind ?_
      split
      next => exact .pure h trivial
      next x hx =>
        obtain rfl := w.id_of_binding? hx
        exact (onSource_stays ha h hb).bind fun _ _ hin _ => released hin.isSealed
  | target b' =>
      obtain rfl : b' = b := by simpa [Callback.binding?] using hcall
      refine .get_bind ?_
      split
      next => exact .pure h trivial
      next x hx =>
        obtain rfl := w.id_of_binding? hx
        exact (onTarget_stays ha h hb hc).bind fun _ _ hin _ => released hin.isSealed

theorem deliver_stays (h : R.Sealed w) {c : Change} (hc : R.Tells w c) {observers : List Observer}
    (hheard : ∀ obs ∈ observers, R.Hears w obs) : Stays R w (deliver announce c observers) := by
  induction observers generalizing w with
  | nil => exact .pure h trivial
  | cons obs rest ih =>
      have later {w₁ : World} (hin : R.Within w w₁) : Stays R w₁ (deliver announce c rest) :=
        ih hin.isSealed (hc.mono hin.nextObject) fun y hy =>
          (hheard y (List.mem_cons_of_mem _ hy)).mono hin.nextBinding
      obtain ⟨b, hcall, hb⟩ := hheard obs List.mem_cons_self
      refine .get_bind ?_
      split
      · have hlog := Realm.Within.log h (.called c obs.id)
        exact .modify_bind hlog <| (react_stays ha hlog.isSealed hcall (hb.mono hlog.nextBinding)
          (hc.mono hlog.nextObject)).bind fun _ _ hin _ => later (hlog.trans hin)
      · exact later (.refl h)

end Announcing

/-- However deep announcements may be nested, those of a realm stay in it. -/
theorem announce_secludes (R : Realm) (n : Nat) : R.Secludes (announce n) := by
  induction n with
  | zero => exact fun w c _ _ => nofun
  | succ n ih =>
      intro w c h hc
      refine .get_bind ?_
      dsimp only
      split
      · exact .pure h trivial
      · have hbegin := Realm.Within.beginFlight h hc.object.1
        have hheard : ∀ obs ∈ w.observersOf c.object c.attr, R.Hears (w.beginFlight c) obs := by
          intro obs hobs
          exact (h.observers _ hc.object.1 obs (mem_observersOf.mp hobs).1).mono hbegin.nextBinding
        refine .modify_bind hbegin ((deliver_stays ih hbegin.isSealed (hc.mono hbegin.nextObject)
          hheard).bind fun _ _ hin _ => ?_)
        exact (Minds.of_modify (.endFlight hin.isSealed hc.object.1)).stays

/-! ## Making bindings -/

namespace Site

variable {R : Realm} {w w' : World}

/-- A site in the realm. -/
structure Inside (R : Realm) (w : World) (site : Site) : Prop where
  target : R.Has w site.target.id
  slots : ∀ v ∈ site.frame.slots, R.Contains w v

theorem Inside.mono {site : Site} (h : site.Inside R w) (hle : w.nextObject ≤ w'.nextObject) :
    site.Inside R w' :=
  ⟨h.target.mono hle, fun v hv => (h.slots v hv).mono hle⟩

variable {announce : Announce} {site : Site} {code : Code} {b : Nat}

theorem newBinding_minds (h : R.Sealed w) (hsite : site.Inside R w)
    (hcode : ∀ v ∈ code.constants, R.Contains w v) (kind : BindingKind) :
    Minds R w (site.newBinding kind code) fun b w' => R.Serves w' b := by
  have hholds : R.Holds w (site.record kind code w.nextBinding) :=
    ⟨hsite.target, hsite.slots, hcode, fun _ hs => absurd hs List.not_mem_nil⟩
  rintro _ _ ⟨⟩
  exact Realm.Within.addBinding h (x := site.record kind code w.nextBinding) rfl hholds rfl

theorem listenToTarget_stays (h : R.Sealed w) (hsite : site.Inside R w) (hb : R.Serves w b) :
    Stays R w (site.listenToTarget b) := by
  have hobserve := Realm.Within.observe h hsite.target.1 site.attr (.target b) rfl hb
  refine .modifyGet_bind hobserve (Minds.of_modify ?_).stays
  refine .modifyBinding hobserve.isSealed hb.1 (fun _ => rfl)
    (fun x hx => ⟨hx.target, hx.slots, hx.constants, fun s hs => ?_⟩) fun x s hs => ?_
  · rcases List.mem_append.mp hs with hs | hs
    · exact hx.subscriptions s (List.mem_append_left _ hs)
    · rw [List.mem_singleton.mp hs]
      exact hsite.target.mono hobserve.nextObject
  · rcases List.mem_append.mp hs with hs | hs
    · exact .inl (List.mem_append_left _ hs)
    · rw [List.mem_singleton.mp hs]
      exact .inr (issued_observe site.target site.attr _ hsite.target.2)

theorem own_stays (h : R.Sealed w) (hsite : site.Inside R w) (hb : R.Serves w b) :
    Stays R w (site.own b) := by
  have howned : R.Within w (w.modifyBinding b fun x => { x with owned := true }) :=
    .modifyBinding h hb.1 (fun _ => rfl)
      (fun _ hx => ⟨hx.target, hx.slots, hx.constants, hx.subscriptions⟩) fun _ _ => .inl
  refine .modify_bind howned (Minds.of_modify ?_).stays
  refine .modifyObject howned.isSealed hsite.target.1 (fun _ => rfl) (fun _ _ _ => .inl)
    (fun _ _ => .inl) fun x _ => ⟨Nat.le_refl _, fun _ => .inl, fun c hc => ?_⟩
  rcases List.mem_append.mp hc with hc | hc
  · exact .inl hc
  · rw [List.mem_singleton.mp hc]
    exact .inr (hb.mono howned.nextBinding)

variable (ha : R.Secludes announce) (h : R.Sealed w) (hsite : site.Inside R w)
  (hcode : ∀ v ∈ code.constants, R.Contains w v)

include ha h hsite hcode

theorem assign_stays : Stays R w (site.assign announce code) := by
  refine (Code.value_minds h hsite.slots Realm.contains_nil hcode announce).bind ?_
  rintro r w - ⟨rfl, hr⟩
  cases r with
  | error e => exact .pure h trivial
  | ok v =>
      exact (setAttr_stays ha h hsite.target site.attr (hr v rfl)).bind fun _ _ hin _ =>
        .pure hin.isSealed trivial

theorem bind_stays : Stays R w (site.bind announce code) := by
  refine (newBinding_minds h hsite hcode .bind).bind fun b w₁ hin hb => ?_
  refine (refresh_stays ha hin.isSealed hb).bind fun r w₂ hin' _ => ?_
  cases r with
  | error e =>
      have hgone := Realm.Within.disconnect hin'.isSealed hb.1
      exact .modify_bind hgone (.pure hgone.isSealed trivial)
  | ok _ =>
      exact (own_stays hin'.isSealed (hsite.mono (hin.trans hin').nextObject)
        (hb.mono hin'.nextBinding)).bind fun _ _ hin'' _ => .pure hin''.isSealed trivial

theorem delegate_stays : Stays R w (site.delegate announce code) := by
  unfold Site.delegate
  split
  · exact .pure h trivial
  · refine (newBinding_minds h hsite hcode .delegate).bind fun b w₁ hin hb => ?_
    refine (refresh_stays ha hin.isSealed hb).bind fun r w₂ hin' _ => ?_
    cases r with
    | error e =>
        have hgone := Realm.Within.disconnect hin'.isSealed hb.1
        exact .modify_bind hgone (.pure hgone.isSealed trivial)
    | ok _ =>
        have hsite₂ := hsite.mono (hin.trans hin').nextObject
        refine (listenToTarget_stays hin'.isSealed hsite₂ (hb.mono hin'.nextBinding)).bind
          fun _ w₃ hin'' _ => ?_
        exact (own_stays hin''.isSealed (hsite₂.mono hin''.nextObject)
          ((hb.mono hin'.nextBinding).mono hin''.nextBinding)).bind fun _ _ hin _ =>
            .pure hin.isSealed trivial

omit ha in
theorem notify_stays : Stays R w (site.notify code) := by
  refine (newBinding_minds h hsite hcode .notify).bind fun b w₁ hin hb => ?_
  have hsite₁ := hsite.mono hin.nextObject
  refine (listenToTarget_stays hin.isSealed hsite₁ hb).bind fun _ w₂ hin' _ => ?_
  exact (own_stays hin'.isSealed (hsite₁.mono hin'.nextObject) (hb.mono hin'.nextBinding)).bind
    fun _ _ hin _ => .pure hin.isSealed trivial

end Site

end LiveUI
