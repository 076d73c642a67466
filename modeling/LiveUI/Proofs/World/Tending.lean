import LiveUI.Proofs.World.Connecting

/-! # Propagation leaves bindings in tune

Each piece of propagation, from a write to an announcement with all that is nested in it, comes to an
end and leaves the bindings in tune, whether the evaluations on the way succeed or fail. As before,
announcements nest no deeper than there are idle bindings. -/

namespace LiveUI

open World Step

namespace World

variable {w w' : World} {off : List Nat}

/-- What is announced is alive and leads to live objects only. -/
structure Told (w : World) (c : Change) : Prop where
  object : w.isAlive c.object = true
  old : w.Knows c.old
  new : w.Knows c.new

theorem Told.follows {c : Change} (h : Told w c) (hf : Follows w w') : Told w' c :=
  ⟨hf.isAlive _ h.object, hf.knows h.old, hf.knows h.new⟩

/-- What a binding asks for, whatever it is subscribed to. -/
structure Sound (w : World) (x : Binding) : Prop where
  alive : w.isAlive x.target = true
  hostFree : x.code.HostFree { frame := x.frame }
  origins : ∀ v ∈ x.code.origins { frame := x.frame }, w.Knows v

theorem Sound.follows {x : Binding} (h : Sound w x) (hf : Follows w w') : Sound w' x :=
  ⟨hf.isAlive _ h.alive, h.hostFree, fun v hv => hf.knows (h.origins v hv)⟩

theorem Sound.setBusy {x : Binding} (h : Sound w x) (b : Nat) (busy : Bool) :
    Sound (w.setBusy b busy) x :=
  ⟨h.alive, h.hostFree, h.origins⟩

theorem InTune.sound {x : Binding} (h : w.InTune x) (hintact : Intact w) {b : Nat}
    (hx : w.binding? b = some x) : Sound w x :=
  ⟨h.alive, h.hostFree, hintact.bindings hx⟩

end World

/-- Code that calls no function of the host leaves the world as it is. -/
theorem Code.HostFree.value_eq_look {scope : Scope} {code : Code} (h : code.HostFree scope)
    (announce : Announce) (w : World) :
    code.value (applyFunc announce) scope w = some ((code.look scope w).1, w) := by
  have hsilent := h.evaluate_silent (applyFunc_callsBuiltins announce) w
  change (code.evaluate _ _ false w).bind _ = _
  rw [hsilent]
  rfl

section Nested

/-! ## One level of nesting -/

variable {announce : Announce} {m : Nat} {off : List Nat} {w : World} {b : Nat} {x : Binding}

/-- Announcements that may still nest `m` deep leave the bindings in tune. -/
def Announce.Tends (announce : Announce) (off : List Nat) (m : Nat) : Prop :=
  ∀ c w, Attuned off w → w.Told c → w.idle < m → Yields (announce c) w fun _ w' => Tended off w w'

theorem notice_tends (h : Attuned off w) (n : Notice) : Tended off w (w.notice n) :=
  h.log fun _ => rfl

theorem noteFailure_tends (h : Attuned off w) (label : String) (result : Except EvalError Unit) :
    Yields (noteFailure label result) w fun _ w' => Tended off w w' := by
  cases result with
  | ok => exact Yields.of_pure ⟨h, .refl w⟩
  | error e => exact Yields.of_modify (notice_tends h _)

/-- An effect makes an object with the record of the change, and evaluates. -/
theorem fire_tends (announce : Announce) (h : Attuned off w) (hx : w.binding? b = some x)
    (hbusy : x.busy = false) (hon : b ∉ off) (htune : w.InTune x) (hkind : x.kind = .notify)
    {c : Change} (hc : w.Told c) :
    Yields (fire announce b c) w fun _ w' =>
      ∃ w₁, Tended off (w.setBusy b true) w₁ ∧ w' = w₁.setBusy b false := by
  have hset : Attuned off (w.setBusy b true) := h.setBusy hx hon htune
  have hattrs : ∀ a ∈ [("object", .object c.object), ("name", .str c.attr), ("old", c.old),
      ("new", c.new)], (w.setBusy b true).Knows a.2 := by
    simp only [List.forall_mem_cons]
    exact ⟨knows_object.mpr hc.object, (partwise_knows _).scalar _ rfl, hc.old, hc.new, nofun⟩
  refine Yields.of_guarded hx hbusy (Yields.bind ⟨_, _, rfl, ?_⟩)
  have hmade := hset.create "ChangeArgs" hattrs
  have hnoted := hmade.trans (notice_tends hmade.attuned (.notifying x.label))
  refine Yields.modify_bind ?_
  obtain ⟨y, hy, hcore⟩ := hnoted.follows.exists_core (binding?_setBusy hx true)
  have hybusy : y.busy = true := congrArg (·.busy) hcore
  have hykind : y.kind = .notify := (congrArg (·.kind) hcore).trans hkind
  have hfree := htune.effect hkind (.object ⟨(w.setBusy b true).nextObject, "ChangeArgs"⟩)
  refine Yields.bind ⟨_, _, hfree.value_eq_look announce _, Yields.modify_bind ?_⟩
  have hfired (result : Except EvalError Value) := hnoted.trans
    (hnoted.attuned.fired hy (Binding.inService_of_busy hybusy) hon hykind result)
  split
  · exact Yields.of_pure ⟨_, hfired _, rfl⟩
  · exact Yields.of_pure ⟨_, hfired _, rfl⟩

variable (hann : announce.Tends off m)

include hann

theorem setAttr_tends (h : Attuned off w) (hm : w.idle < m) {o : Handle} {attr : String} {v : Value}
    (halive : w.isAlive o = true) (hv : w.Knows v) :
    Yields (setAttr announce o attr v) w fun _ w' => Tended off w w' := by
  have hwrite := h.write attr halive hv
  have hannounce {old : Value} (hold : w.Knows old) :=
    hann ⟨o, attr, old, v⟩ _ hwrite.attuned
      ⟨hwrite.follows.isAlive o halive, hwrite.follows.knows hold, hwrite.follows.knows hv⟩
      (hwrite.follows.idle ▸ hm)
  refine Yields.get_bind ?_
  cases hattr : w.attr? o attr with
  | none =>
      refine Yields.modify_bind (Yields.bind ((hannounce knows_nil).imp fun _ w' htended => ?_))
      exact Yields.of_pure (hwrite.trans htended)
  | some old =>
      by_cases heq : (old == v) = true
      · simp only [heq, if_true]
        exact Yields.of_pure ⟨h, .refl w⟩
      · simp only [heq]
        refine Yields.modify_bind
          (Yields.bind ((hannounce (h.intact.attrs hattr)).imp fun _ w' htended => ?_))
        exact Yields.of_pure (hwrite.trans htended)

theorem emitAttr_tends (h : Attuned off w) (hm : w.idle < m) {o : Handle} {attr : String}
    {v : Value} (halive : w.isAlive o = true) (hv : w.Knows v) :
    Yields (emitAttr announce o attr v) w fun _ w' => Tended off w w' := by
  have hwrite := h.write attr halive hv
  refine Yields.get_bind (Yields.modify_bind ?_)
  refine (hann ⟨o, attr, (w.attr? o attr).getD .nil, v⟩ _ hwrite.attuned ⟨?_, ?_, ?_⟩ ?_).imp
    fun _ w' htended => hwrite.trans htended
  · exact hwrite.follows.isAlive o halive
  · exact hwrite.follows.knows (h.intact.stored o attr)
  · exact hwrite.follows.knows hv
  · rwa [hwrite.follows.idle]

theorem storeValue_tends (h : Attuned off w) (hm : w.idle < m) (hx : w.Sound x) {v : Value}
    (hv : w.Knows v) : Yields (storeValue announce x v) w fun _ w' => Tended off w w' := by
  refine Yields.bind ((setAttr_tends hann h hm hx.alive hv).imp fun _ w₁ hset => ?_)
  split
  · exact Yields.of_pure hset
  · refine Yields.get_bind ?_
    dsimp only
    split
    · exact Yields.of_pure hset
    · have hx₁ := hx.follows hset.follows
      refine Yields.bind ⟨_, _, sourceOf_eq announce hx.hostFree w₁, ?_⟩
      cases hsource : x.source w₁ with
      | error e => exact Yields.of_pure hset
      | ok path =>
          obtain ⟨o, attr⟩ := path
          have halive := hset.attuned.intact.isAlive_source hx₁.origins hx₁.hostFree hsource
          refine Yields.bind ((setAttr_tends hann hset.attuned (hset.follows.idle ▸ hm) halive
            (hset.attuned.intact.stored x.target x.attr)).imp fun _ w₂ hback => ?_)
          exact Yields.of_pure (hset.trans hback)

/-! ## Bindings at work -/

/-- What a binding comes to that goes to work: before it goes home all is in tune. -/
theorem refresh_tends (h : Attuned off w) (hm : w.idle ≤ m) (hx : w.binding? b = some x)
    (hbusy : x.busy = false) (hon : b ∉ off) (htune : w.InTune x) (hkind : x.kind ≠ .notify) :
    Yields (refresh announce b) w fun _ w' =>
      ∃ w₁, Tended off (w.setBusy b true) w₁ ∧ w' = w₁.setBusy b false := by
  have hlt := idle_setBusy_lt (w.mem_of_binding? hx) (w.id_of_binding? hx) hbusy
  have hset : Attuned off (w.setBusy b true) := h.setBusy hx hon htune
  have hsound := (htune.sound h.intact hx).setBusy b true
  refine Yields.of_guarded hx hbusy (Yields.get_bind ?_)
  have halive : (w.setBusy b true).isAlive x.target = true := hsound.alive
  simp only [halive, Bool.not_true, Bool.false_eq_true, if_false]
  have hfree := htune.hostFree
  refine Yields.bind ⟨_, _, hfree.evaluate_eq_look (applyFunc_callsBuiltins announce) _, ?_⟩
  have hgives := hfree.look_gives hset.intact.pervades hsound.origins
  have hreads := hfree.look_reads hset.intact.pervades hsound.origins
  have hdistinct := hfree.look_distinct (w.setBusy b true)
  cases hlook : x.code.look { frame := x.frame } (w.setBusy b true) with
  | mk result reads =>
      rw [hlook] at hgives hreads hdistinct
      obtain ⟨⟨⟩, w₁, hsub, heval⟩ := hset.evaluated (binding?_setBusy hx true)
        (Binding.inService_of_busy rfl) hon hkind result hdistinct
        fun p hp => knows_object.mp (hreads p hp)
      refine Yields.modify_bind (Yields.bind ⟨_, w₁, hsub, Yields.modify_bind ?_⟩)
      have hnoted := heval.trans (notice_tends heval.attuned (.dependsOn x.label reads.length))
      cases result with
      | error e => exact Yields.of_pure ⟨_, hnoted, rfl⟩
      | ok v =>
          refine (storeValue_tends hann hnoted.attuned ?_ (hsound.follows hnoted.follows)
            (hnoted.follows.knows (hgives v rfl))).imp fun r w' hstore => ⟨w', hnoted.trans hstore, rfl⟩
          rw [hnoted.follows.idle]
          omega

theorem writeBack_tends (h : Attuned off w) (hm : w.idle ≤ m) (hx : w.binding? b = some x)
    (hbusy : x.busy = false) (hon : b ∉ off) (htune : w.InTune x) {c : Change} (hc : w.Told c) :
    Yields (writeBack announce b c) w fun _ w' =>
      ∃ w₁, Tended off (w.setBusy b true) w₁ ∧ w' = w₁.setBusy b false := by
  have hlt := idle_setBusy_lt (w.mem_of_binding? hx) (w.id_of_binding? hx) hbusy
  have hset : Attuned off (w.setBusy b true) := h.setBusy hx hon htune
  have hsound := (htune.sound h.intact hx).setBusy b true
  have hstart : Tended off (w.setBusy b true) (w.setBusy b true) := ⟨hset, .refl _⟩
  refine Yields.of_guarded hx hbusy ?_
  refine Yields.bind ⟨_, _, sourceOf_eq announce htune.hostFree _, ?_⟩
  cases hsource : x.source (w.setBusy b true) with
  | error e => exact Yields.of_pure ⟨_, hstart, rfl⟩
  | ok path =>
      obtain ⟨o, attr⟩ := path
      have halive := hset.intact.isAlive_source hsound.origins hsound.hostFree hsource
      refine Yields.get_bind ?_
      dsimp only
      split
      · exact Yields.modify_bind (Yields.of_pure ⟨_, notice_tends hset _, rfl⟩)
      · have hnoted := notice_tends hset (.writingBack x.label)
        refine Yields.modify_bind (Yields.bind ((setAttr_tends hann hnoted.attuned ?_
          (hnoted.follows.isAlive o halive) hc.new).imp fun _ w₁ hback => ?_))
        · rw [hnoted.follows.idle]
          omega
        · have hwritten := hnoted.trans hback
          refine Yields.get_bind ?_
          split
          · exact Yields.of_pure ⟨_, hwritten, rfl⟩
          · refine Yields.bind ((setAttr_tends hann hwritten.attuned ?_
              (hwritten.follows.isAlive _ hc.object)
              (hwritten.attuned.intact.stored o attr)).imp fun _ w₂ hagain => ?_)
            · rw [hwritten.follows.idle]
              omega
            · exact Yields.of_pure ⟨_, hwritten.trans hagain, rfl⟩

/-! ## Observers -/

theorem onSource_tends (h : Attuned off w) (hm : w.idle ≤ m) (hx : w.binding? b = some x)
    (hservice : x.inService = true) (hon : b ∉ off) (hkind : x.kind ≠ .notify) :
    Yields (onSource announce x) w fun _ w' => Tended off w w' := by
  have hid := w.id_of_binding? hx
  have htune := h.inTune x (w.mem_of_binding? hx) hservice (hid ▸ hon)
  have halive := htune.alive
  refine Yields.get_bind ?_
  simp only [halive, Bool.not_true, Bool.false_eq_true, if_false]
  split
  next => exact Yields.of_modify (notice_tends h _)
  next hidle =>
    have hbusy : x.busy = false := by simpa using hidle
    have howned := Binding.owned_of_idle hservice hbusy
    split
    · exact Yields.of_modify (notice_tends h _)
    · have hnoted := notice_tends h (.reevaluating x.label)
      refine Yields.modify_bind ?_
      rw [hid]
      refine Yields.bind ((refresh_tends hann hnoted.attuned (hnoted.follows.idle ▸ hm)
        (hx : (w.notice (.reevaluating x.label)).binding? b = some x) hbusy hon
        (htune.congr (fun _ => id) rfl) hkind).imp ?_)
      rintro r _ ⟨w₁, htended, rfl⟩
      have hdone := hnoted.trans (hnoted.attuned.work hx hon howned hbusy htended)
      exact (noteFailure_tends hdone.attuned x.label r).imp fun _ w' hend => hdone.trans hend

theorem onTarget_tends (h : Attuned off w) (hm : w.idle ≤ m) (hx : w.binding? b = some x)
    (hservice : x.inService = true) (hon : b ∉ off) {c : Change} (hc : w.Told c) :
    Yields (onTarget announce x c) w fun _ w' => Tended off w w' := by
  have hid := w.id_of_binding? hx
  have htune := h.inTune x (w.mem_of_binding? hx) hservice (hid ▸ hon)
  have hend {w' : World} (htended : Tended off w w') (r : Except EvalError Unit) :
      Yields (noteFailure x.label r) w' fun _ w'' => Tended off w w'' :=
    (noteFailure_tends htended.attuned x.label r).imp fun _ w'' hlast => htended.trans hlast
  have hwork (work : Binding → Step (Except EvalError Unit))
      (hidle : x.busy = false → Yields (guarded b work) w fun _ w' =>
        ∃ w₁, Tended off (w.setBusy b true) w₁ ∧ w' = w₁.setBusy b false) :
      Yields (guarded b work >>= fun r => noteFailure x.label r) w fun _ w' => Tended off w w' := by
    cases hbusy : x.busy with
    | true => exact Yields.bind (Yields.of_guarded_busy hx hbusy (hend ⟨h, .refl w⟩ _))
    | false =>
        refine Yields.bind ((hidle hbusy).imp ?_)
        rintro r _ ⟨w₁, htended, rfl⟩
        exact hend (h.work hx hon (Binding.owned_of_idle hservice hbusy) hbusy htended) r
  unfold onTarget
  rw [hid]
  cases hkind : x.kind with
  | bind => exact Yields.bind (Yields.of_pure (hend ⟨h, .refl w⟩ _))
  | delegate => exact hwork _ fun hbusy => writeBack_tends hann h hm hx hbusy hon htune hc
  | notify => exact hwork _ fun hbusy => fire_tends announce h hx hbusy hon htune hkind hc

theorem react_tends (h : Attuned off w) (hm : w.idle ≤ m) {role : Role} (hcalls : w.Calls off role b)
    {c : Change} (hc : w.Told c) :
    Yields (react announce (role.callback b) c) w fun _ w' => Tended off w w' := by
  obtain ⟨x, hx, hservice, hon, hrole⟩ := hcalls
  have hrelease {w' : World} (htended : Tended off w w') :
      Yields (modify (·.release b) : Step PUnit) w' fun _ w'' => Tended off w w'' := by
    obtain ⟨y, hy, hcore⟩ := htended.follows.exists_core hx
    have hservice' := (Binding.inService_of_core hcore).trans hservice
    exact Yields.of_modify (by rwa [World.release_of_inService hy hservice'])
  cases role with
  | source =>
      refine Yields.get_bind ?_
      simp only [hx]
      exact Yields.bind ((onSource_tends hann h hm hx hservice hon hrole).imp fun _ _ => hrelease)
  | target =>
      refine Yields.get_bind ?_
      simp only [hx]
      exact Yields.bind ((onTarget_tends hann h hm hx hservice hon hc).imp fun _ _ => hrelease)

theorem deliver_tends (h : Attuned off w) (hm : w.idle ≤ m) {c : Change} (hc : w.Told c)
    {observers : List Observer} (hcalls : ∀ obs ∈ observers, ∃ (role : Role) (b : Nat),
      obs.callback = role.callback b ∧ w.Calls off role b) :
    Yields (deliver announce c observers) w fun _ w' => Tended off w w' := by
  induction observers generalizing w with
  | nil => exact Yields.of_pure ⟨h, .refl w⟩
  | cons obs rest ih =>
      have hrest {w' : World} (htended : Tended off w w') :
          Yields (deliver announce c rest) w' fun _ w'' => Tended off w w'' := by
        refine (ih htended.attuned (htended.follows.idle ▸ hm) (hc.follows htended.follows)
          fun y hy => ?_).imp fun _ w'' hlast => htended.trans hlast
        obtain ⟨role, b, hcall, hready⟩ := hcalls y (List.mem_cons_of_mem _ hy)
        exact ⟨role, b, hcall, hready.follows htended.follows⟩
      obtain ⟨role, b, hcall, hready⟩ := hcalls obs List.mem_cons_self
      refine Yields.get_bind ?_
      split
      · rw [hcall]
        have hlog : Tended off w (w.log (.called c obs.id)) := h.log fun _ => rfl
        refine Yields.modify_bind (Yields.bind ((react_tends hann hlog.attuned
          (hlog.follows.idle ▸ hm) (hready.follows hlog.follows) (hc.follows hlog.follows)).imp
            fun _ w' hreact => hrest (hlog.trans hreact)))
      · exact hrest ⟨h, .refl w⟩

end Nested

/-- Announcements that may nest deeper than there are idle bindings leave all in tune. -/
theorem announce_tends (off : List Nat) (n : Nat) : (announce n).Tends off n := by
  induction n with
  | zero => exact fun _ w _ _ hn => absurd hn (Nat.not_lt_zero _)
  | succ n ih =>
      intro c w h hc hn
      refine Yields.get_bind ?_
      dsimp only
      split
      · exact Yields.of_pure ⟨h, .refl w⟩
      · have hbegun := h.beginFlight c
        have hcalls : ∀ obs ∈ w.observersOf c.object c.attr, ∃ (role : Role) (b : Nat),
            obs.callback = role.callback b ∧ (w.beginFlight c).Calls off role b := by
          intro obs hobs
          obtain ⟨hmem, -⟩ := mem_observersOf.mp hobs
          obtain ⟨role, b, hcall⟩ := h.served _ obs hmem
          exact ⟨role, b, hcall, (h.calls hmem hcall).follows hbegun.follows⟩
        have hidle : (w.beginFlight c).idle ≤ n := by
          rw [hbegun.follows.idle]
          omega
        refine Yields.modify_bind (Yields.bind ((deliver_tends ih hbegun.attuned hidle
          (hc.follows hbegun.follows) hcalls).imp fun _ w' hdelivered => ?_))
        exact Yields.of_modify ((hbegun.trans hdelivered).trans (hdelivered.attuned.endFlight c))

end LiveUI
