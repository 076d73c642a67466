import LiveUI.Proofs.World.Synchrony

/-! # Floods

Propagation that begins with a plain value leaves that value, or one equal to it, everywhere it
comes by. -/

namespace LiveUI

open World

/-- Where a piece of propagation may begin that spreads the value `k`. -/
def Work.Floods (k : Value) (stale : Nat → Prop) (w : World) : Work → Prop
  | .announce c => Carries w c.object c.attr k ∧ c.new.plain = true ∧ c.new.bare = k ∧
      Flooded k w c.object c.attr ∧
      ∀ b, InSync w b ∨ stale b ∨ Awaits w c.object (w.observersOf c.object c.attr) b
  | .deliver c observers => Carries w c.object c.attr k ∧ c.new.plain = true ∧ c.new.bare = k ∧
      Flooded k w c.object c.attr ∧ (∀ obs ∈ observers, obs.attr = c.attr) ∧
      ∀ b, InSync w b ∨ stale b ∨ Awaits w c.object observers b
  | .react c role b => Carries w c.object c.attr k ∧ c.new.plain = true ∧ c.new.bare = k ∧
      Flooded k w c.object c.attr ∧
      (∀ x o attr, w.binding? b = some x → x.Joins o attr →
        (role.place x o attr).1.id = c.object.id ∧ (role.place x o attr).2 = c.attr) ∧
      ∀ d, d ≠ b → InSync w d ∨ stale d
  | .refresh b _ => (∀ x o attr, w.binding? b = some x → x.Joins o attr →
      Carries w o attr k ∧ Flooded k w x.target x.attr) ∧ ∀ d, InSync w d ∨ stale d
  | .store b u _ => u.plain = true ∧ u.bare = k ∧
      (∀ x o attr, w.binding? b = some x → x.Joins o attr →
        Carries w o attr k ∧ Flooded k w x.target x.attr) ∧ ∀ d, InSync w d ∨ stale d
  | .writeBack b c _ => c.new.plain = true ∧ c.new.bare = k ∧
      (∀ x o attr, w.binding? b = some x → x.Joins o attr → Carries w x.target x.attr k ∧
        (w.isInFlight o attr = true → Carries w o attr k) ∧ Flooded k w o attr) ∧
      ∀ d, InSync w d ∨ stale d
  | .set o attr u => u.plain = true ∧ u.bare = k ∧ Flooded k w o attr ∧ w.isAlive o = true ∧
      ∀ b, InSync w b ∨ stale b

/-- What a piece of propagation has brought to the value `k` in the end. -/
def Work.Reached (k : Value) (w : World) : Work → Prop
  | .announce _ | .deliver _ _ | .react _ _ _ => True
  | .refresh b result | .store b _ result | .writeBack b _ result => result = .ok () ∧
      ∀ x o attr, w.binding? b = some x → x.Joins o attr →
        Carries w x.target x.attr k ∧ Carries w o attr k
  | .set o attr _ => Carries w o attr k

/-- What has come of a flood. -/
structure Work.Flooded (k : Value) (stale : Nat → Prop) (work : Work) (w w' : World) : Prop where
  plain : PlainAttrs w'
  spreads : Spreads k w w'
  settles : Settles InSync stale w w'
  reached : work.Reached k w'

/-- A delegate has both ends in step when its work is done. -/
theorem Work.Flooded.finish {k : Value} {stale : Nat → Prop} {work : Work} {b : Nat} {x : Binding}
    {w w₁ w₂ w' : World} (h : work.Flooded k stale w₁ w₂) (hwork : Working b x w w₁ w₂ w')
    (hw : Mesh w) (hx : w.binding? b = some x) (hservice : x.inService = true)
    (hn : Notices (w₂.setBusy b false) w')
    (hends : ∀ y o attr, w₂.binding? b = some y → y.Joins o attr →
      Carries w₂ y.target y.attr k ∧ Carries w₂ o attr k) (c : Change) (role : Role) :
    (Work.react c role b).Flooded k stale w w' := by
  obtain ⟨-, o, attr, hjoins, -⟩ := hw.delegates b x hx hservice
  have hsync : ∀ d, InSync w₂ d → InSync w' d := by
    intro d hsync
    by_cases hd : d = b
    · subst hd
      intro y hy _ _
      obtain ⟨x₂, hx₂, hcore⟩ := hwork.keeps.exists_core hwork.binding?
      obtain ⟨z, hz, hplan, -⟩ := hwork.after.plans d y hy
      obtain rfl := Option.some.inj (hx₂.symm.trans hz)
      have hjoins₂ : x₂.Joins o attr := (Binding.SamePlan.of_core hcore).joins.mpr hjoins
      obtain ⟨htarget, hsource⟩ := hends x₂ o attr hx₂ hjoins₂
      refine ⟨k, o, attr, hplan.joins.mpr hjoins₂, ?_, hsource.attr? (hwork.after.attr? o attr)⟩
      rw [hplan.target, hplan.attr]
      exact htarget.attr? (hwork.after.attr? _ _)
    · exact (hsync.setBusy_other hd).alike (.notices hn) hn.bindings
  refine ⟨h.plain.same hwork.after.attr?, ?_, ?_, trivial⟩
  · exact ((Spreads.alike hwork.before).trans h.spreads).trans (.alike hwork.after)
  · exact (h.settles.of_ledger hwork.before.ledger).imp hsync hwork.after.ledger

/-- A write that spreads a value leaves it where it was written. -/
theorem Work.Flooded.stored_eq {k u : Value} {stale : Nat → Prop} {o : Handle} {attr : String}
    {w w' : World} (h : (Work.set o attr u).Flooded k stale w w') (hu : u.plain = true)
    (hbare : u.bare = k) : (w'.stored o attr == u) = true := by
  obtain ⟨s, hs, hsbare⟩ := h.reached
  rw [stored, hs]
  exact (Value.eq_iff_bare (h.plain o attr s hs) hu).mpr (hsbare.trans hbare.symm)

section Pieces

variable {k u : Value} {stale : Nat → Prop} {b : Nat} {x : Binding} {o : Handle} {attr : String}
  {c : Change} {obs : Observer} {rest : List Observer} {role : Role}
  {result : Except EvalError Unit} {w w₁ w' : World}

/-- Who has an end at the attribute hears of it as soon as it is written. -/
theorem Work.Floods.announce (h : (Work.set o attr u).Floods k stale w) (hw : Mesh w) :
    (Work.announce ⟨o, attr, w.stored o attr, u⟩).Floods k stale (w.write o attr u) := by
  obtain ⟨hu, hbare, hflooded, halive, hall⟩ := h
  refine ⟨.write halive hbare, hu, hbare,
    hflooded.keeps (Keeps.write w o attr u) (.write halive hbare), fun b => ?_⟩
  rcases hall b with hsync | hstale
  · exact (hsync.write hw o attr halive u).imp_right .inr
  · exact .inr (.inl hstale)

theorem Work.Floods.deliver (h : (Work.announce c).Floods k stale w) :
    (Work.deliver c (w.observersOf c.object c.attr)).Floods k stale (w.beginFlight c) := by
  obtain ⟨hcarries, hnew, hbare, hflooded, hawaits⟩ := h
  have halike := Alike.beginFlight w c
  exact ⟨Spreads.alike halike _ _ hcarries, hnew, hbare, hflooded.beginFlight,
    fun obs hobs => (mem_observersOf.mp hobs).2, fun b =>
      (hawaits b).imp (fun hsync => hsync.alike halike rfl) (Or.imp_right Awaits.beginFlight)⟩

theorem Work.Floods.dropped (h : (Work.deliver c (obs :: rest)).Floods k stale w)
    (hgone : obs ∉ w.observers c.object) : (Work.deliver c rest).Floods k stale w := by
  obtain ⟨hcarries, hnew, hbare, hflooded, hattr, hawaits⟩ := h
  exact ⟨hcarries, hnew, hbare, hflooded, fun obs hobs => hattr obs (List.mem_cons_of_mem _ hobs),
    fun b => (hawaits b).imp_right (Or.imp_right fun hawaits => hawaits.of_dropped hgone)⟩

/-- The binding that is called reacts at once, and those behind it wait until it has. -/
theorem Work.Floods.react (h : (Work.deliver c (obs :: rest)).Floods k stale w) (hw : Mesh w)
    (hobs : obs ∈ w.observers c.object) (hcall : obs.callback = role.callback b) :
    (Work.react c role b).Floods k
      (fun d => stale d ∨ Awaits (w.log (.called c obs.id)) c.object rest d)
      (w.log (.called c obs.id)) := by
  obtain ⟨hcarries, hnew, hbare, hflooded, hattr, hawaits⟩ := h
  have halike : Alike w (w.log (.called c obs.id)) := .log w fun _ => rfl
  have hspreads : Spreads k w (w.log (.called c obs.id)) := .alike halike
  refine ⟨hspreads _ _ hcarries, hnew, hbare, hflooded.keeps (Keeps.log w _) hspreads,
    fun x o attr hx hjoins => ?_, fun d hd => ?_⟩
  · have hend := hw.end_of_observer hobs hcall hx hjoins
    rwa [hattr obs List.mem_cons_self] at hend
  · refine (hawaits d).imp (fun hsync => hsync.alike halike rfl) (Or.imp_right ?_)
    exact fun hawaits => hawaits.tail hcall hd

/-- The others are told when the first one is done. -/
theorem Work.Floods.others (h : (Work.deliver c (obs :: rest)).Floods k stale w) (hw : Mesh w)
    (hw₁ : Mesh w₁) (hkeeps : Keeps (w.log (.called c obs.id)) w₁)
    (first : (Work.react c role b).Flooded k
      (fun d => stale d ∨ Awaits (w.log (.called c obs.id)) c.object rest d)
      (w.log (.called c obs.id)) w₁) :
    (Work.deliver c rest).Floods k
      (fun d => stale d ∧ SameEntries (w.log (.called c obs.id)) w₁ d) w₁ := by
  obtain ⟨hcarries, hnew, hbare, hflooded, hattr, -⟩ := h
  have hlogged : Mesh (w.log (.called c obs.id)) := hw.log fun _ => rfl
  have hspreads : Spreads k w (w.log (.called c obs.id)) := .alike (.log w fun _ => rfl)
  exact ⟨first.spreads _ _ (hspreads _ _ hcarries), hnew, hbare,
    (hflooded.keeps (Keeps.log w _) hspreads).keeps hkeeps first.spreads,
    fun obs' hobs' => hattr obs' (List.mem_cons_of_mem _ hobs'),
    first.settles.start hlogged.network hw₁.network hkeeps.isAlive⟩

/-- A binding that does nothing has the value at both of its ends already, or it is at work. -/
theorem Work.Floods.inSync_of_skips (h : (Work.react c role b).Floods k stale w) (hw : Mesh w)
    (hx : w.binding? b = some x) (hservice : x.inService = true) (hskips : Skips w x role) (d : Nat) :
    InSync w d ∨ stale d := by
  obtain ⟨hcarries, -, -, hflooded, hend, hothers⟩ := h
  by_cases hd : d = b
  · subst hd
    refine .inl ?_
    cases hskips with
    | atWork hbusy => exact .of_busy hx hbusy
    | targetInFlight hflight =>
        obtain ⟨-, o, attr, hjoins, -⟩ := hw.delegates d x hx hservice
        obtain ⟨hid, rfl⟩ := hend x o attr hx hjoins
        exact .of_ends hx hjoins (hflooded.carries_flight hcarries hflight)
          (hcarries.congr hid.symm)
  · exact hothers d hd

/-- The value has come to the other end of the delegate, and it is on its way to the target. -/
theorem Work.Floods.refresh (h : (Work.react c .source b).Floods k stale w)
    (hx : w.binding? b = some x) (hn : Notices w w₁) :
    (Work.refresh b result).Floods k stale (w₁.setBusy b true) := by
  obtain ⟨hcarries, -, -, hflooded, hend, hothers⟩ := h
  have hx₁ : w₁.binding? b = some x := (hn.binding? b).trans hx
  have halike := Alike.notices hn
  have hspreads : Spreads k w w₁ := .alike halike
  refine ⟨fun z o attr hz hjoins => ?_, InSync.setBusy_or hx₁ fun d hd =>
    (hothers d hd).imp_left fun hsync => hsync.alike halike hn.bindings⟩
  obtain rfl := Option.some.inj ((binding?_setBusy hx₁ true).symm.trans hz)
  obtain ⟨hid, rfl⟩ := hend x o attr hx hjoins
  have hsource := hspreads _ _ (hcarries.congr hid.symm)
  refine ⟨hsource, (hflooded.keeps hn.keeps hspreads).setBusy (hspreads _ _ hcarries) hx₁
    fun q a hq => ⟨.inl ⟨rfl, rfl⟩, .inr ?_⟩⟩
  obtain ⟨rfl, rfl⟩ := Binding.Joins.unique hjoins hq
  exact hsource

/-- The value has come to the target of the delegate, and it is on its way to the other end. -/
theorem Work.Floods.writeBack (h : (Work.react c .target b).Floods k stale w)
    (hx : w.binding? b = some x) : (Work.writeBack b c result).Floods k stale (w.setBusy b true) := by
  obtain ⟨hcarries, hnew, hbare, hflooded, hend, hothers⟩ := h
  refine ⟨hnew, hbare, fun z o attr hz hjoins => ?_, InSync.setBusy_or hx hothers⟩
  obtain rfl := Option.some.inj ((binding?_setBusy hx true).symm.trans hz)
  obtain ⟨hid, hattr⟩ : x.target.id = c.object.id ∧ x.attr = c.attr := hend x o attr hx hjoins
  have htarget : Carries w x.target x.attr k := hattr ▸ hcarries.congr hid.symm
  refine ⟨htarget, fun hflight => hflooded.carries_flight hcarries hflight,
    hflooded.setBusy hcarries hx fun q a hq => ⟨.inr htarget, .inl ?_⟩⟩
  obtain ⟨rfl, rfl⟩ := Binding.Joins.unique hjoins hq
  exact ⟨rfl, rfl⟩

/-- What a delegate has read at its other end is the value. -/
theorem Work.Floods.store (h : (Work.refresh b result).Floods k stale w) (hplain : PlainAttrs w)
    (hx : w.binding? b = some x) (hbusy : x.busy = true) (hjoins : x.Joins o attr)
    (hu : w.attr? o attr = some u) (hkeeps : Keeps w w')
    (hattr : ∀ o attr, w'.attr? o attr = w.attr? o attr) :
    (Work.store b u result).Floods k (fun d => stale d ∧ d ≠ b) w' := by
  obtain ⟨hends, hall⟩ := h
  obtain ⟨hcarries, hflooded⟩ := hends x o attr hx hjoins
  obtain ⟨s, hs, hbare⟩ := hcarries
  obtain rfl := Option.some.inj (hu.symm.trans hs)
  have hspreads : Spreads k w w' := fun o attr hcarries => hcarries.attr? (hattr o attr)
  obtain ⟨x', hx', hcore⟩ := hkeeps.exists_core hx
  refine ⟨hplain o attr u hu, hbare, fun z p other hz hq => ?_, fun d => ?_⟩
  · obtain rfl := Option.some.inj (hx'.symm.trans hz)
    have hplan := Binding.SamePlan.of_core hcore
    rw [hplan.target, hplan.attr]
    obtain ⟨rfl, rfl⟩ := hjoins.unique (hplan.joins.mp hq)
    exact ⟨hspreads _ _ ⟨u, hu, hbare⟩, hflooded.keeps hkeeps hspreads⟩
  · by_cases hd : d = b
    · exact .inl (hd ▸ .of_busy hx' ((congrArg (·.busy) hcore).trans hbusy))
    · exact (hall d).imp (fun hsync => hsync.keeps hkeeps hattr) fun hstale => ⟨hstale, hd⟩

theorem Work.Floods.set_target (h : (Work.store b u result).Floods k stale w) (hw : Mesh w)
    (hx : w.binding? b = some x) (hbusy : x.busy = true) :
    (Work.set x.target x.attr u).Floods k stale w := by
  obtain ⟨hu, hbare, hends, hall⟩ := h
  have hservice := Binding.inService_of_busy hbusy
  obtain ⟨-, o, attr, hjoins, -⟩ := hw.delegates b x hx hservice
  exact ⟨hu, hbare, (hends x o attr hx hjoins).2,
    (hw.network.inUse x (w.mem_of_binding? hx) hservice).alive, hall⟩

theorem Work.Floods.set_source (h : (Work.writeBack b c result).Floods k stale w)
    (hx : w.binding? b = some x) (hjoins : x.Joins o attr) (halive : w.isAlive o = true)
    (hn : Notices w w') : (Work.set o attr c.new).Floods k stale w' := by
  obtain ⟨hnew, hbare, hends, hall⟩ := h
  obtain ⟨-, -, hflooded⟩ := hends x o attr hx hjoins
  have halike := Alike.notices hn
  exact ⟨hnew, hbare, hflooded.keeps hn.keeps (.alike halike), (halike.isAlive o).trans halive,
    fun d => (hall d).imp_left fun hsync => hsync.alike halike hn.bindings⟩

/-- The two ends of a binding stay what they are. -/
theorem Carries.ends (hkeeps : Keeps w w') (hx : w.binding? b = some x) (hjoins : x.Joins o attr)
    (htarget : Carries w' x.target x.attr k) (hsource : Carries w' o attr k) (y : Binding)
    (p : Handle) (other : String) (hy : w'.binding? b = some y) (hq : y.Joins p other) :
    Carries w' y.target y.attr k ∧ Carries w' p other k := by
  obtain ⟨z, hz, hcore⟩ := hkeeps.exists_binding? hy
  obtain rfl := Option.some.inj (hx.symm.trans hz)
  have hplan := Binding.SamePlan.of_core hcore
  obtain ⟨rfl, rfl⟩ := hjoins.unique (hplan.joins.mp hq)
  rw [hplan.target, hplan.attr]
  exact ⟨htarget, hsource⟩

end Pieces

/-- Everything that a value reaches takes it on, and what is skipped has it already. -/
theorem Runs.floods {k : Value} {work : Work} {w w' : World} (run : Runs work w w') (hw : Mesh w)
    (hready : work.Ready w) (hplain : PlainAttrs w) {stale : Nat → Prop}
    (h : work.Floods k stale w) : work.Flooded k stale w w' := by
  -- `stale` varies along the induction: while an observer is called, the bindings of the later ones
  -- may still be out of step.
  induction run generalizing stale with
  | @unheard c w hnone =>
      obtain ⟨-, -, -, -, hawaits⟩ := h
      refine ⟨hplain, .alike (.refl _), Settles.refl fun b => ?_, trivial⟩
      refine (hawaits b).imp_right fun hlate => hlate.resolve_right fun hawaits => ?_
      rw [hnone] at hawaits
      exact hawaits.not_nil
  | @heard c w w' hsome run ih =>
      have halike := Alike.beginFlight w c
      have halike' := Alike.endFlight w' c
      have hdone := ih (hw.beginFlight c) trivial (hplain.same halike.attr?) h.deliver
      exact ⟨hdone.plain.same halike'.attr?,
        ((Spreads.alike halike).trans hdone.spreads).trans (.alike halike'),
        (hdone.settles.of_ledger halike.ledger).imp (fun b hsync => hsync.alike halike' rfl)
          halike'.ledger, trivial⟩
  | @delivered c w =>
      obtain ⟨-, -, -, -, -, hawaits⟩ := h
      exact ⟨hplain, .alike (.refl _), Settles.refl fun b => (hawaits b).imp_right fun hlate =>
        hlate.resolve_right Awaits.not_nil, trivial⟩
  | dropped hgone _ ih =>
      obtain ⟨hplain', hspreads, hsettles, -⟩ := ih hw trivial hplain (h.dropped hgone)
      exact ⟨hplain', hspreads, hsettles, trivial⟩
  | @called c obs rest w w₁ w' role b hobs hcall run runRest ih ihRest =>
      have halike : Alike w (w.log (.called c obs.id)) := .log w fun _ => rfl
      have hlogged : Mesh (w.log (.called c obs.id)) := hw.log fun _ => rfl
      have hready := hw.network.ready hobs hcall
      obtain ⟨-, hkeeps⟩ := run.keeps hlogged.network hready
      have hmesh := hlogged.run run hready
      have first := ih hlogged hready (hplain.same halike.attr?) (h.react hw hobs hcall)
      have hdone := ihRest hmesh trivial first.plain (h.others hw hmesh hkeeps first)
      exact ⟨hdone.plain, ((Spreads.alike halike).trans first.spreads).trans hdone.spreads,
        Settles.of_ledger (Settles.called hdone.settles) halike.ledger, trivial⟩
  | @skipped c role b x w w' hx hskips hn =>
      obtain ⟨hservice, -⟩ := of_binding? hx hready
      have halike := Alike.notices hn
      exact ⟨hplain.same halike.attr?, .alike halike,
        (Settles.refl (h.inSync_of_skips hw hx hservice hskips)).imp
          (fun d hsync => hsync.alike halike hn.bindings) halike.ledger, trivial⟩
  | @refreshed c b x result w w₁ w₂ w' hx hbusy hflight hn run hn' ih =>
      obtain ⟨hservice, -⟩ := of_binding? hx hready
      have hx₁ : w₁.binding? b = some x := (hn.binding? b).trans hx
      have hmesh := (hw.notices hn).setBusy hx₁ (Binding.owned_of_idle hservice hbusy)
      have hdone := ih hmesh ⟨_, binding?_setBusy hx₁ true, rfl⟩
        (hplain.same (Alike.notices hn).attr?) (h.refresh hx hn)
      have hwork := hw.network.working hx hservice hbusy hn run hn' id
      exact hdone.finish hwork hw hx hservice hn' hdone.reached.2 c .source
  | @answered c b x result w w₁ w' hx hbusy run hn ih =>
      obtain ⟨hservice, -⟩ := of_binding? hx hready
      have hmesh := hw.setBusy hx (Binding.owned_of_idle hservice hbusy)
      have hdone := ih hmesh ⟨_, binding?_setBusy hx true, rfl⟩ hplain (h.writeBack hx)
      have hwork := hw.network.working hx hservice hbusy (.refl _) run hn id
      exact hdone.finish hwork hw hx hservice hn hdone.reached.2 c .target
  | @failed b x e reads w w₁ w' hx hlook hsub hn =>
      have hbusy := of_binding? hx hready
      obtain ⟨-, o, attr, hjoins, -⟩ := hw.delegates b x hx (Binding.inService_of_busy hbusy)
      -- Where the value comes from there is something to read, so no evaluation fails.
      obtain ⟨⟨s, hs, -⟩, -⟩ := h.1 x o attr hx hjoins
      simp [hjoins.look_eq, hs] at hlook
  | @evaluated b x v reads result w w₁ w₂ w' hx hlook hsub hn run ih =>
      have hbusy := of_binding? hx hready
      have hservice := Binding.inService_of_busy hbusy
      obtain ⟨-, o, attr, hjoins, -⟩ := hw.delegates b x hx hservice
      have heval := (hw.network.evaluated hx hservice _ _).result hsub
      have hkeeps := heval.keeps.trans hn.keeps
      have halike := Alike.notices hn
      have hattr : ∀ o attr, w₂.attr? o attr = w.attr? o attr := fun o attr =>
        (halike.attr? o attr).trans (heval.attr? o attr)
      have hspreads : Spreads k w w₂ := fun o attr hcarries => hcarries.attr? (hattr o attr)
      have hread : w.attr? o attr = some v := by
        obtain ⟨⟨s, hs, -⟩, -⟩ := h.1 x o attr hx hjoins
        obtain ⟨rfl, -⟩ : s = v ∧ _ = reads := by simpa [hjoins.look_eq, hs] using hlook
        exact hs
      have hdone := ih ((hw.evaluated heval hx hlook).notices hn) (hkeeps.exists_busy hx hbusy)
        (hplain.same hattr) (h.store hplain hx hbusy hjoins hread hkeeps hattr)
      exact ⟨hdone.plain, hspreads.trans hdone.spreads,
        .evaluated heval (hdone.settles.of_ledger halike.ledger), hdone.reached⟩
  | @bound b x v w w' hx hkind run ih =>
      have hbusy := of_binding? hx hready
      obtain ⟨hdelegate, -⟩ := hw.delegates b x hx (Binding.inService_of_busy hbusy)
      simp [hkind] at hdelegate
  | @agreed b x v w w' hx hkind run heq ih =>
      have hbusy := of_binding? hx hready
      obtain ⟨-, o, attr, hjoins, -⟩ := hw.delegates b x hx (Binding.inService_of_busy hbusy)
      have hfloods : (Work.store b v (.ok ())).Floods k stale w := h
      have hdone := ih hw trivial hplain (hfloods.set_target hw hx hbusy)
      obtain ⟨-, hkeeps⟩ := run.keeps hw.network trivial
      obtain ⟨-, -, hends, -⟩ := h
      have hsource := hdone.spreads _ _ (hends x o attr hx hjoins).1
      exact ⟨hdone.plain, hdone.spreads, hdone.settles, rfl,
        Carries.ends hkeeps hx hjoins hdone.reached hsource⟩
  | @handedBack b x v o attr w w₁ w' hx hkind run hne hsource runSource ih ihSource =>
      have hfloods : (Work.store b v (.ok ())).Floods k stale w := h
      have hdone := ih hw trivial hplain (hfloods.set_target hw hx (of_binding? hx hready))
      -- The target has taken on the value itself, so nothing is handed back.
      exact absurd (hne.symm.trans (hdone.stored_eq h.1 h.2.1)) (by simp)
  | @unreturned b x v e w w' hx hkind run hne hsource ih =>
      -- The other end of a delegate is fixed, so it is always known.
      exact absurd hsource (hw.source_ne_error hx (of_binding? hx hready) w')
  | @sourceless b x c e w hx hsource =>
      exact absurd hsource (hw.source_ne_error hx (of_binding? hx hready) w)
  | @sourceInFlight b x c o attr w w' hx hsource hflight hn =>
      obtain ⟨hjoins, -⟩ := hw.joins_of_source hx (of_binding? hx hready) hsource
      obtain ⟨-, -, hends, hall⟩ := h
      obtain ⟨htarget, hcarries, -⟩ := hends x o attr hx hjoins
      have halike := Alike.notices hn
      have hspreads : Spreads k w w' := .alike halike
      exact ⟨hplain.same halike.attr?, hspreads, (Settles.refl hall).imp
        (fun d hsync => hsync.alike halike hn.bindings) halike.ledger, rfl,
        Carries.ends hn.keeps hx hjoins (hspreads _ _ htarget) (hspreads _ _ (hcarries hflight))⟩
  | @returned b x c o attr w w₁ w' hx hsource hflight hn run heq ih =>
      obtain ⟨hjoins, halive⟩ := hw.joins_of_source hx (of_binding? hx hready) hsource
      have hfloods : (Work.writeBack b c (.ok ())).Floods k stale w := h
      have halike := Alike.notices hn
      have hdone := ih (hw.notices hn) trivial (hplain.same halike.attr?)
        (hfloods.set_source hx hjoins halive hn)
      obtain ⟨-, hkeeps⟩ := run.keeps (hn.network hw.network) trivial
      have hspreads := (Spreads.alike halike).trans hdone.spreads
      obtain ⟨-, -, hends, -⟩ := h
      obtain ⟨htarget, -, -⟩ := hends x o attr hx hjoins
      exact ⟨hdone.plain, hspreads, hdone.settles.of_ledger halike.ledger, rfl,
        Carries.ends (hn.keeps.trans hkeeps) hx hjoins (hspreads _ _ htarget) hdone.reached⟩
  | @normalised b x c o attr w w₁ w₂ w' hx hsource hflight hn run hne runTarget ih ihTarget =>
      obtain ⟨hjoins, halive⟩ := hw.joins_of_source hx (of_binding? hx hready) hsource
      have hfloods : (Work.writeBack b c (.ok ())).Floods k stale w := h
      have hdone := ih (hw.notices hn) trivial (hplain.same (Alike.notices hn).attr?)
        (hfloods.set_source hx hjoins halive hn)
      exact absurd (hne.symm.trans (hdone.stored_eq h.1 h.2.1)) (by simp)
  | @unchanged o attr u old w hattr heq =>
      obtain ⟨hu, hbare, -, -, hall⟩ := h
      have hold := (Value.eq_iff_bare (hplain o attr old hattr) hu).mp heq
      exact ⟨hplain, .alike (.refl _), .refl hall, old, hattr, hold.trans hbare⟩
  | @changed o attr u w w' hne run ih =>
      have hfloods : (Work.set o attr u).Floods k stale w := h
      obtain ⟨hu, hbare, -, halive, -⟩ := h
      have hspreads : Spreads k w (w.write o attr u) := .write halive hbare
      have hdone := ih (hw.write o attr u) trivial (hplain.write halive hu) (hfloods.announce hw)
      exact ⟨hdone.plain, hspreads.trans hdone.spreads,
        hdone.settles.of_ledger (w.ledger_write o attr u), hdone.spreads _ _ (.write halive hbare)⟩

end LiveUI
