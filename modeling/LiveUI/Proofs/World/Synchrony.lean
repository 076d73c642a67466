import LiveUI.Proofs.World.Delegates

/-! # Delegates in step

A value that is written in a network of delegates spreads through it. A delegate is in step when its
two ends carry the same value. Delegates at work and attributes being announced stand where the
value has been, so whatever is skipped has it already. -/

namespace LiveUI

namespace World

variable {w w' : World} {k : Value}

/-- The attribute holds a value that is equal to those with the bare value `k`. -/
def Carries (w : World) (o : Handle) (attr : String) (k : Value) : Prop :=
  ∃ s, w.attr? o attr = some s ∧ s.bare = k

/-- All attributes hold plain values. -/
def PlainAttrs (w : World) : Prop :=
  ∀ o attr s, w.attr? o attr = some s → s.plain = true

/-- Whatever carries the value goes on carrying it. -/
def Spreads (k : Value) (w w' : World) : Prop :=
  ∀ o attr, Carries w o attr k → Carries w' o attr k

/-- A delegate that is not at work has equal values at its ends. -/
def InSync (w : World) (b : Nat) : Prop :=
  ∀ x, w.binding? b = some x → x.inService = true → x.busy = false →
    ∃ k o attr, x.Joins o attr ∧ Carries w x.target x.attr k ∧ Carries w o attr k

/-- What is under way carries the value already, but for the attribute that is to be written. -/
structure Flooded (k : Value) (w : World) (o : Handle) (attr : String) : Prop where
  busy : ∀ b x, w.binding? b = some x → x.busy = true → ∀ p other, x.Joins p other →
    ((x.target.id = o.id ∧ x.attr = attr) ∨ Carries w x.target x.attr k) ∧
      ((p.id = o.id ∧ other = attr) ∨ Carries w p other k)
  flight : ∀ p other, w.isInFlight p other = true →
    (p.id = o.id ∧ other = attr) ∨ Carries w p other k

theorem Carries.congr {o p : Handle} {attr : String} (h : Carries w o attr k) (hid : o.id = p.id) :
    Carries w p attr k := by
  obtain ⟨s, hs, hbare⟩ := h
  exact ⟨s, (w.attr?_congr hid attr).symm.trans hs, hbare⟩

theorem Carries.attr? {o : Handle} {attr : String} (h : Carries w o attr k)
    (hsame : w'.attr? o attr = w.attr? o attr) : Carries w' o attr k := by
  obtain ⟨s, hs, hbare⟩ := h
  exact ⟨s, hsame.trans hs, hbare⟩

theorem Carries.unique {o : Handle} {attr : String} {k' : Value} (h : Carries w o attr k)
    (h' : Carries w o attr k') : k = k' := by
  obtain ⟨s, hs, hbare⟩ := h
  obtain ⟨s', hs', hbare'⟩ := h'
  obtain rfl := Option.some.inj (hs.symm.trans hs')
  exact hbare.symm.trans hbare'

theorem Spreads.alike (halike : Alike w w') : Spreads k w w' :=
  fun o attr hcarries => hcarries.attr? (halike.attr? o attr)

theorem Spreads.trans {w'' : World} (h : Spreads k w w') (h' : Spreads k w' w'') :
    Spreads k w w'' :=
  fun o attr hcarries => h' o attr (h o attr hcarries)

theorem PlainAttrs.same (h : PlainAttrs w) (hattr : ∀ o attr, w'.attr? o attr = w.attr? o attr) :
    PlainAttrs w' :=
  fun o attr s hs => h o attr s ((hattr o attr).symm.trans hs)

theorem PlainAttrs.of_objects (h : ∀ x ∈ w.objects, ∀ p ∈ x.attrs, p.2.plain = true) :
    PlainAttrs w := by
  intro o attr s hs
  obtain ⟨x, hx, hget⟩ := Option.bind_eq_some_iff.mp hs
  obtain ⟨p, hp, rfl⟩ := Option.map_eq_some_iff.mp hget
  exact h x (List.mem_of_find?_eq_some hx) p (List.mem_of_find?_eq_some hp)

/-- A delegate is in step as before when nothing about it has changed. -/
theorem InSync.of_same {b : Nat} (h : InSync w b)
    (hbinding : ∀ x', w'.binding? b = some x' → x'.inService = true → x'.busy = false →
      ∃ x, w.binding? b = some x ∧ x'.SamePlan x ∧ x.inService = true ∧ x.busy = false)
    (hattr : ∀ o attr, w'.attr? o attr = w.attr? o attr) : InSync w' b := by
  intro x' hx' hservice' hbusy'
  obtain ⟨x, hx, hplan, hservice, hbusy⟩ := hbinding x' hx' hservice' hbusy'
  obtain ⟨k, o, attr, hjoins, htarget, hsource⟩ := h x hx hservice hbusy
  refine ⟨k, o, attr, hplan.joins.mpr hjoins, ?_, hsource.attr? (hattr o attr)⟩
  rw [hplan.target, hplan.attr]
  exact htarget.attr? (hattr _ _)

theorem InSync.keeps {b : Nat} (h : InSync w b) (hkeeps : Keeps w w')
    (hattr : ∀ o attr, w'.attr? o attr = w.attr? o attr) : InSync w' b := by
  refine h.of_same (fun x' hx' hservice hbusy => ?_) hattr
  obtain ⟨x, hx, hcore⟩ := hkeeps.exists_binding? hx'
  exact ⟨x, hx, .of_core hcore, (Binding.inService_of_core hcore).symm.trans hservice,
    (congrArg (·.busy) hcore).symm.trans hbusy⟩

theorem InSync.alike {b : Nat} (h : InSync w b) (halike : Alike w w')
    (hbindings : w'.bindings = w.bindings) : InSync w' b := by
  refine h.of_same (fun x hx hservice hbusy => ?_) halike.attr?
  rw [World.binding?, hbindings] at hx
  exact ⟨x, hx, .refl x, hservice, hbusy⟩

/-- Nothing is asked of a delegate at work. -/
theorem InSync.of_busy {b : Nat} {x : Binding} (hx : w.binding? b = some x)
    (hbusy : x.busy = true) : InSync w b := by
  intro y hy _ hidle
  obtain rfl := Option.some.inj (hx.symm.trans hy)
  exact absurd (hbusy.symm.trans hidle) (by simp)

theorem InSync.setBusy_other {b c : Nat} {busy : Bool} (h : InSync w c) (hc : c ≠ b) :
    InSync (w.setBusy b busy) c := by
  refine h.of_same (fun x hx hservice hbusy => ?_) fun _ _ => rfl
  rw [World.setBusy, binding?_modifyBinding w b c (f := fun x => { x with busy }) fun _ => rfl,
    if_neg (Ne.symm hc)] at hx
  exact ⟨x, hx, .refl x, hservice, hbusy⟩

/-- A delegate that goes to work is excused. -/
theorem InSync.setBusy_or {b : Nat} {x : Binding} {stale : Nat → Prop}
    (hx : w.binding? b = some x) (h : ∀ c, c ≠ b → InSync w c ∨ stale c) (c : Nat) :
    InSync (w.setBusy b true) c ∨ stale c := by
  by_cases hc : c = b
  · subst hc
    exact .inl (.of_busy (binding?_setBusy hx true) rfl)
  · exact (h c hc).imp_left fun hsync => hsync.setBusy_other hc

/-- The ends of a delegate agree when both carry the value. -/
theorem InSync.of_ends {b : Nat} {x : Binding} (hx : w.binding? b = some x) {o : Handle}
    {attr : String} (hjoins : x.Joins o attr) (htarget : Carries w x.target x.attr k)
    (hsource : Carries w o attr k) : InSync w b := by
  intro y hy _ _
  obtain rfl := Option.some.inj (hx.symm.trans hy)
  exact ⟨k, o, attr, hjoins, htarget, hsource⟩

namespace Flooded

variable {o p : Handle} {attr other : String}

theorem carries_flight (h : Flooded k w o attr) (hcarries : Carries w o attr k)
    (hflight : w.isInFlight p other = true) : Carries w p other k := by
  rcases h.flight p other hflight with ⟨hid, rfl⟩ | hother
  · exact hcarries.congr hid.symm
  · exact hother

theorem carries_busy (h : Flooded k w o attr) (hcarries : Carries w o attr k) {b : Nat}
    {x : Binding} (hx : w.binding? b = some x) (hbusy : x.busy = true)
    (hjoins : x.Joins p other) : Carries w x.target x.attr k ∧ Carries w p other k := by
  obtain ⟨htarget, hsource⟩ := h.busy b x hx hbusy p other hjoins
  refine ⟨?_, ?_⟩
  · rcases htarget with ⟨hid, hattr⟩ | htarget
    · exact hattr ▸ hcarries.congr hid.symm
    · exact htarget
  · rcases hsource with ⟨hid, rfl⟩ | hsource
    · exact hcarries.congr hid.symm
    · exact hsource

theorem keeps (h : Flooded k w o attr) (hkeeps : Keeps w w') (hspreads : Spreads k w w') :
    Flooded k w' o attr := by
  refine ⟨fun b x' hx' hbusy p other hjoins => ?_, fun p other hflight => ?_⟩
  · obtain ⟨x, hx, hcore⟩ := hkeeps.exists_binding? hx'
    have hplan := Binding.SamePlan.of_core hcore
    obtain ⟨htarget, hsource⟩ := h.busy b x hx ((congrArg (·.busy) hcore).symm.trans hbusy) p other
      (hplan.joins.mp hjoins)
    rw [hplan.target, hplan.attr]
    exact ⟨htarget.imp_right (hspreads _ _), hsource.imp_right (hspreads _ _)⟩
  · rw [hkeeps.isInFlight] at hflight
    exact (h.flight p other hflight).imp_right (hspreads _ _)

theorem beginFlight {c : Change} (h : Flooded k w c.object c.attr) :
    Flooded k (w.beginFlight c) c.object c.attr := by
  have hspreads : Spreads k w (w.beginFlight c) := .alike (.beginFlight w c)
  refine ⟨fun b x hx hbusy p other hjoins => ?_, fun p other hflight => ?_⟩
  · exact (h.busy b x hx hbusy p other hjoins).imp (Or.imp_right (hspreads _ _))
      (Or.imp_right (hspreads _ _))
  · rcases isInFlight_beginFlight w hflight with hsame | hflight
    · exact .inl hsame
    · exact (h.flight p other hflight).imp_right (hspreads _ _)

/-- A delegate with the value at one end goes to work on the other end. -/
theorem setBusy (h : Flooded k w o attr) (hcarries : Carries w o attr k) {b : Nat} {x : Binding}
    (hx : w.binding? b = some x) {p : Handle} {other : String}
    (hends : ∀ q a, x.Joins q a →
      ((x.target.id = p.id ∧ x.attr = other) ∨ Carries w x.target x.attr k) ∧
        ((q.id = p.id ∧ a = other) ∨ Carries w q a k)) :
    Flooded k (w.setBusy b true) p other := by
  refine ⟨fun c y hy hbusy q a hjoins => ?_, fun q a hflight => .inr ?_⟩
  · by_cases hc : b = c
    · subst hc
      rw [binding?_setBusy hx] at hy
      obtain rfl := Option.some.inj hy
      exact hends q a hjoins
    · rw [World.setBusy, binding?_modifyBinding w b c (f := fun x => { x with busy := true })
        fun _ => rfl, if_neg hc] at hy
      exact (h.carries_busy hcarries hy hbusy hjoins).imp .inr .inr
  · exact h.carries_flight hcarries hflight

end Flooded

/-! ## Writing -/

section Writing

variable {o : Handle} {attr : String} {u : Value}

theorem PlainAttrs.write (h : PlainAttrs w) (halive : w.isAlive o = true)
    (hu : u.plain = true) : PlainAttrs (w.write o attr u) := by
  intro p other s hs
  rw [attr?_write w halive] at hs
  split at hs
  · obtain rfl := Option.some.inj hs
    exact hu
  · exact h p other s hs

theorem Carries.write (halive : w.isAlive o = true) (hu : u.bare = k) :
    Carries (w.write o attr u) o attr k :=
  ⟨u, w.attr?_write_self attr u halive, hu⟩

theorem Spreads.write (halive : w.isAlive o = true) (hu : u.bare = k) :
    Spreads k w (w.write o attr u) := by
  rintro p other ⟨s, hs, hbare⟩
  rw [Carries, attr?_write w halive]
  split
  · exact ⟨u, rfl, hu⟩
  · exact ⟨s, hs, hbare⟩

/-- A delegate of which one end is written hears of it. -/
theorem InSync.write {b : Nat} (h : InSync w b) (hw : Mesh w) (o : Handle) (attr : String)
    (halive : w.isAlive o = true) (u : Value) : InSync (w.write o attr u) b ∨
      Awaits (w.write o attr u) o ((w.write o attr u).observersOf o attr) b := by
  have hawaits : ∀ obs ∈ w.observers o, obs.attr = attr →
      (∃ role : Role, obs.callback = role.callback b) →
        Awaits (w.write o attr u) o ((w.write o attr u).observersOf o attr) b := by
    intro obs hobs hattr hcall
    have hwritten : obs ∈ (w.write o attr u).observers o := by rwa [observers_write]
    exact ⟨obs, mem_observersOf.mpr ⟨hwritten, hattr⟩, hwritten, hcall⟩
  by_cases hidle : ∃ x, w.binding? b = some x ∧ x.inService = true ∧ x.busy = false
  · obtain ⟨x, hx, hservice, hbusy⟩ := hidle
    have howned := Binding.owned_of_idle hservice hbusy
    obtain ⟨l, p, other, hjoins, htarget, hsource⟩ := h x hx hservice hbusy
    by_cases htargets : x.target.id = o.id ∧ x.attr = attr
    · obtain ⟨hid, rfl⟩ := htargets
      obtain ⟨obs, hobs, hattr, hcall⟩ :=
        hw.network.exists_listener hx (hw.delegates b x hx hservice).1 howned
      rw [w.observers_congr hid] at hobs
      exact .inr (hawaits obs hobs hattr ⟨.target, hcall⟩)
    · by_cases hsources : p.id = o.id ∧ other = attr
      · obtain ⟨hid, rfl⟩ := hsources
        have hread : (p, other) ∈ w.lastReads b := by simp [hw.lastReads hx howned hjoins]
        have hlive : w.isAlive p = true := by rwa [isAlive, w.object?_congr hid]
        obtain ⟨obs, hobs, hattr, hcall⟩ := hw.network.exists_observer hx hservice hread hlive
        rw [w.observers_congr hid] at hobs
        exact .inr (hawaits obs hobs hattr ⟨.source, hcall⟩)
      · refine .inl (InSync.of_ends (x := x) hx hjoins (k := l) ?_ ?_)
        · exact htarget.attr? (by rw [attr?_write w halive, if_neg htargets])
        · exact hsource.attr? (by rw [attr?_write w halive, if_neg hsources])
  · exact .inl fun x hx hservice hbusy => (hidle ⟨x, hx, hservice, hbusy⟩).elim

end Writing

end World

end LiveUI
