import LiveUI.Proofs.World.Removal
import LiveUI.Proofs.World.Withdrawal

/-! # What is destroyed with an object

An object is destroyed together with all that is reached from it along children, whatever graph the
children form: some may have several parents, or lead back to where they come from. Each of these
objects is marked before its children are entered, so none is entered twice. All other objects lose
the observers of the bindings that go, and nothing else. -/

namespace LiveUI

/-- What is left of an object that has been destroyed. -/
def Object.felled (x : Object) : Object :=
  { x with phase := .destroyed, children := [], parent := none, bindings := [], observers := [] }

/-- What is left of a binding whose owner has been destroyed. -/
def Binding.cut (x : Binding) : Binding :=
  { x with sources := [], targetListener := none, owned := false }

namespace Object

theorem without_congr (x : Object) {ss ts : List Subscription} (h : ∀ s, s ∈ ss ↔ s ∈ ts) :
    x.without ss = x.without ts := by
  have hany (obs : Observer) :
      ss.any (·.names x.handle obs) = ts.any (·.names x.handle obs) := by
    rw [Bool.eq_iff_iff, List.any_eq_true, List.any_eq_true]
    exact exists_congr fun s => and_congr_left fun _ => h s
  simp only [without, hany]

end Object

/-- One of the objects has the number of this one. -/
def Among (os : List Handle) (p : Handle) : Prop :=
  ∃ q ∈ os, q.id = p.id

theorem among_append {os ps : List Handle} {p : Handle} :
    Among (os ++ ps) p ↔ Among os p ∨ Among ps p := by
  simp only [Among, List.mem_append, or_and_right, exists_or]

theorem Among.congr {os : List Handle} {p q : Handle} (hid : p.id = q.id) (h : Among os p) :
    Among os q := by
  obtain ⟨o, ho, heq⟩ := h
  exact ⟨o, ho, heq.trans hid⟩

namespace World

variable {w w' w'' : World}

theorem phase_congr (w : World) {o p : Handle} (h : o.id = p.id) : w.phase o = w.phase p := by
  simp only [phase, object?_congr w h]

/-- The subscriptions of all the bindings that the objects own. -/
def enteredBy (w : World) (os : List Handle) : List Subscription :=
  (os.flatMap w.owned).flatMap w.entered

theorem object?_disconnectAll (bs : List Nat) (w : World) (p : Handle) :
    (bs.foldl disconnect w).object? p = (w.object? p).map (·.without (bs.flatMap w.entered)) := by
  induction bs generalizing w with
  | nil => simp [Object.without_nil]
  | cons b bs ih =>
      rw [List.foldl_cons, ih, object?_disconnect, Option.map_map]
      refine congrArg (fun f => (w.object? p).map f) (funext fun x => ?_)
      rw [Function.comp_apply, ← Object.without_append]
      refine x.without_congr fun s => ?_
      simp only [List.flatMap_cons, List.mem_append, List.mem_flatMap, entered_disconnect]
      refine or_congr_right' fun hs => exists_congr fun c => and_congr_right fun _ => ?_
      split
      next hc => simpa [← hc] using hs
      next => rfl

theorem binding?_disconnectAll (bs : List Nat) (w : World) (c : Nat) :
    (bs.foldl disconnect w).binding? c =
      if c ∈ bs then (w.binding? c).map fun x => { x with sources := [], targetListener := none }
      else w.binding? c := by
  induction bs generalizing w with
  | nil => simp
  | cons b bs ih =>
      rw [List.foldl_cons, ih, binding?_disconnect]
      by_cases hb : b = c
      · by_cases hc : c ∈ bs <;> simp [hb, hc, Function.comp_def]
      · simp [hb, Ne.symm hb]

theorem binding?_disownAll (bs : List Nat) (w : World) (c : Nat) :
    (bs.foldl (fun w b => w.modifyBinding b fun x => { x with owned := false }) w).binding? c =
      if c ∈ bs then (w.binding? c).map fun x => { x with owned := false } else w.binding? c := by
  induction bs generalizing w with
  | nil => simp
  | cons b bs ih =>
      rw [List.foldl_cons, ih, binding?_modifyBinding w b c (f := fun x => { x with owned := false })
        fun _ => rfl]
      by_cases hb : b = c
      · by_cases hc : c ∈ bs <;> simp [hb, hc, Function.comp_def]
      · simp [hb, Ne.symm hb]

/-! ## Objects that are gone -/

/-- These objects have been destroyed, their bindings have been cut, and nothing else has changed. -/
structure Cleared (gone : List Handle) (w w' : World) : Prop where
  fallen : ∀ p, Among gone p → w'.object? p = (w.object? p).map Object.felled
  others : ∀ p, ¬Among gone p → w'.object? p = (w.object? p).map (·.without (w.enteredBy gone))
  cut : ∀ b ∈ gone.flatMap w.owned, w'.binding? b = (w.binding? b).map Binding.cut
  kept : ∀ b, b ∉ gone.flatMap w.owned → w'.binding? b = w.binding? b

namespace Cleared

variable {gone gone' : List Handle}

theorem refl (w : World) : Cleared [] w w := by
  refine ⟨fun p h => ?_, fun p _ => ?_, fun _ h => absurd h List.not_mem_nil, fun _ _ => rfl⟩
  · obtain ⟨q, hq, -⟩ := h
    cases hq
  · simp [enteredBy, Object.without_nil]

theorem owned (h : Cleared gone w w') {p : Handle} (hp : ¬Among gone p) : w'.owned p = w.owned p := by
  rw [World.owned, h.others p hp, Option.map_map]
  rfl

theorem phase (h : Cleared gone w w') {p : Handle} (hp : ¬Among gone p) : w'.phase p = w.phase p := by
  rw [World.phase, h.others p hp, Option.map_map]
  rfl

theorem phase_fallen (h : Cleared gone w w') {p : Handle} (hp : Among gone p) :
    w'.phase p = .destroyed := by
  rw [World.phase, h.fallen p hp]
  cases w.object? p <;> rfl

theorem entered_cut (h : Cleared gone w w') {b : Nat} (hb : b ∈ gone.flatMap w.owned) :
    w'.entered b = [] := by
  rw [entered, h.cut b hb]
  cases w.binding? b <;> rfl

theorem entered_kept (h : Cleared gone w w') {b : Nat} (hb : b ∉ gone.flatMap w.owned) :
    w'.entered b = w.entered b := by
  rw [entered, h.kept b hb, ← entered]

theorem ownedAll (h : Cleared gone w w') (hapart : ∀ p, Among gone p → ¬Among gone' p) :
    gone'.flatMap w'.owned = gone'.flatMap w.owned :=
  List.flatMap_congr fun q hq => h.owned fun hin => hapart q hin ⟨q, hq, rfl⟩

/-- First some objects go, and then others. -/
theorem trans (h : Cleared gone w w') (h' : Cleared gone' w' w'')
    (hapart : ∀ p, Among gone p → ¬Among gone' p) : Cleared (gone ++ gone') w w'' := by
  have howned := h.ownedAll hapart
  refine ⟨fun p hp => ?_, fun p hp => ?_, fun b hb => ?_, fun b hb => ?_⟩
  · by_cases hfirst : Among gone p
    · rw [h'.others p (hapart p hfirst), h.fallen p hfirst, Option.map_map]
      rfl
    · rw [h'.fallen p ((among_append.mp hp).resolve_left hfirst), h.others p hfirst, Option.map_map]
      rfl
  · rw [among_append, not_or] at hp
    rw [h'.others p hp.2, h.others p hp.1, Option.map_map]
    refine congrArg (fun f => (w.object? p).map f) (funext fun x => ?_)
    rw [Function.comp_apply, ← Object.without_append]
    refine x.without_congr fun s => ?_
    simp only [enteredBy, List.mem_append, howned, List.flatMap_append]
    refine or_congr_right' fun hs => ?_
    -- A binding that is cut already has nothing left, but what it had is in the first part.
    rw [List.mem_flatMap, List.mem_flatMap]
    refine exists_congr fun b => and_congr_right fun _ => ?_
    by_cases hb : b ∈ gone.flatMap w.owned
    · rw [h.entered_cut hb]
      exact ⟨nofun, fun hin => absurd (List.mem_flatMap.mpr ⟨b, hb, hin⟩) hs⟩
    · rw [h.entered_kept hb]
  · rw [List.flatMap_append, List.mem_append, ← howned] at hb
    by_cases hlast : b ∈ gone'.flatMap w'.owned
    · rw [h'.cut b hlast]
      by_cases hfirst : b ∈ gone.flatMap w.owned
      · rw [h.cut b hfirst, Option.map_map]
        rfl
      · rw [h.kept b hfirst]
    · rw [h'.kept b hlast, h.cut b (hb.resolve_right hlast)]
  · rw [List.flatMap_append, List.mem_append, not_or, ← howned] at hb
    rw [h'.kept b hb.2, h.kept b hb.1]

/-- An object that has been marked already is cut off. -/
theorem dismantle {o : Handle} (hmarked : ∀ x, w.object? o = some x →
    x.phase = .destroyed ∧ x.children = []) : Cleared [o] w (w.dismantle o) := by
  have hamong {p : Handle} : Among [o] p ↔ o.id = p.id := by simp [Among]
  have hobject (p : Handle) : (w.dismantle o).object? p = if o.id = p.id then
      (w.object? p).map fun x =>
        { x with bindings := [], observers := [], parent := none }
      else (w.object? p).map (·.without ((w.owned o).flatMap w.entered)) := by
    have hemptied := w.object?_modifyObject o p (f := fun x => { x with bindings := [] }) fun _ => rfl
    have hentered : ((w.modifyObject o fun x => { x with bindings := [] }).entered) = w.entered := rfl
    unfold World.dismantle
    rw [← World.owned]
    change (World.modifyObject _ o fun x => { x with observers := [], parent := none }).object? p = _
    rw [object?_modifyObject _ o p (f := fun x => { x with observers := [], parent := none })
      fun _ => rfl, object?_disownAll, object?_disconnectAll, hentered, hemptied]
    split
    · rw [Option.map_map, Option.map_map]
      rfl
    · rfl
  have hbinding (b : Nat) : (w.dismantle o).binding? b =
      if b ∈ w.owned o then (w.binding? b).map Binding.cut else w.binding? b := by
    unfold World.dismantle
    rw [← World.owned]
    refine (binding?_disownAll (w.owned o) _ b).trans ?_
    rw [binding?_disconnectAll, binding?_modifyObject]
    split
    · rw [Option.map_map]
      rfl
    · rfl
  refine ⟨fun p hp => ?_, fun p hp => ?_, fun b hb => ?_, fun b hb => ?_⟩
  · rw [hobject, if_pos (hamong.mp hp), ← object?_congr w (hamong.mp hp)]
    cases hx : w.object? o with
    | none => rfl
    | some x =>
        obtain ⟨hphase, hchildren⟩ := hmarked x hx
        simp [Object.felled, hphase, hchildren]
  · rw [hobject, if_neg fun hid => hp (hamong.mpr hid), enteredBy, List.flatMap_singleton]
  · rw [hbinding, if_pos (by simpa using hb)]
  · rw [hbinding, if_neg (by simpa using hb)]

/-- Marking an object that goes makes no difference in the end. -/
theorem of_mark {gone : List Handle} {o : Handle} (hgone : Among gone o)
    (h : Cleared gone (w.modifyObject o fun x => { x with phase := .destroyed, children := [] }) w') :
    Cleared gone w w' := by
  have hobject (p : Handle) := w.object?_modifyObject o p
    (f := fun x => { x with phase := .destroyed, children := [] }) fun _ => rfl
  have howned : (w.modifyObject o fun x => { x with phase := .destroyed, children := [] }).owned =
      w.owned := funext fun p => w.owned_modifyObject o p (fun _ => rfl) fun _ => rfl
  have hentered : (w.modifyObject o fun x => { x with phase := .destroyed, children := [] }).enteredBy
      gone = w.enteredBy gone := by
    rw [enteredBy, howned]
    rfl
  refine ⟨fun p hp => ?_, fun p hp => ?_, fun b hb => ?_, fun b hb => ?_⟩
  · rw [h.fallen p hp, hobject]
    split
    · rw [Option.map_map]
      rfl
    · rfl
  · have hne : ¬o.id = p.id := fun hid => by
      obtain ⟨q, hq, heq⟩ := hgone
      exact hp ⟨q, hq, heq.trans hid⟩
    rw [h.others p hp, hobject, if_neg hne, hentered]
  · exact h.cut b (howned ▸ hb)
  · exact h.kept b (howned ▸ hb)

end Cleared

/-! ## What is below an object -/

/-- The object is reached from another one along children, through objects that have not been
destroyed. It may be the other one itself. -/
inductive Beneath (w : World) (o : Handle) : Handle → Prop where
  | self {p : Handle} (hid : p.id = o.id) (hstands : w.phase p ≠ .destroyed) : Beneath w o p
  | child {p c q : Handle} {x : Object} (h : Beneath w o p) (hx : w.object? p = some x)
      (hc : c ∈ x.children) (hid : q.id = c.id) (hstands : w.phase q ≠ .destroyed) : Beneath w o q

namespace Beneath

theorem stands {o p : Handle} (h : w.Beneath o p) : w.phase p ≠ .destroyed := by
  cases h with
  | self _ hstands => exact hstands
  | child _ _ _ _ hstands => exact hstands

/-- What is below a child is below the parent. -/
theorem of_child {o c p : Handle} {x : Object} (hstands : w.phase o ≠ .destroyed)
    (hx : w.object? o = some x) (hc : c ∈ x.children) (h : w.Beneath c p) : w.Beneath o p := by
  induction h with
  | self hid hp => exact .child (.self rfl hstands) hx hc hid hp
  | child _ hx hc hid hq ih => exact .child ih hx hc hid hq

/-- Where more stands, more is reached. -/
theorem mono {o p : Handle} (hmore : ∀ q y, w'.object? q = some y → y.phase ≠ .destroyed →
      ∃ x, w.object? q = some x ∧ x.phase ≠ .destroyed ∧ x.children = y.children)
    (h : w'.Beneath o p) : w.Beneath o p := by
  have hstands {q : Handle} (hq : w'.phase q ≠ .destroyed) : w.phase q ≠ .destroyed := by
    cases hy : w'.object? q with
    | none => exact absurd (by simp [World.phase, hy]) hq
    | some y =>
        obtain ⟨x, hx, hphase, -⟩ := hmore q y hy (by simpa [World.phase, hy] using hq)
        simpa [World.phase, hx] using hphase
  induction h with
  | self hid hp => exact .self hid (hstands hp)
  | child hbeneath hy hc hid hq ih =>
      obtain ⟨x, hx, -, hchildren⟩ := hmore _ _ hy (by simpa [World.phase, hy] using hbeneath.stands)
      exact .child ih hx (hchildren ▸ hc) hid (hstands hq)

end Beneath

/-! ## The traversal -/

/-- What is destroyed when one root after another is destroyed: what is below them, without
exception. -/
structure Razed (roots gone : List Handle) (w w' : World) : Prop extends Cleared gone w w' where
  stood : ∀ p, Among gone p → w.phase p ≠ .destroyed
  beneath : ∀ p, Among gone p → ∃ o ∈ roots, w.Beneath o p
  taken : ∀ o ∈ roots, w.phase o ≠ .destroyed → Among gone o
  closed : ∀ p x, Among gone p → w.object? p = some x →
    ∀ c ∈ x.children, w.phase c ≠ .destroyed → Among gone c

namespace Razed

variable {roots roots' gone gone' : List Handle} {o : Handle}

theorem refl (w : World) : Razed [] [] w w := by
  have hnone {p : Handle} (h : Among [] p) : False := by
    obtain ⟨q, hq, -⟩ := h
    cases hq
  exact ⟨.refl w, fun p h => (hnone h).elim, fun p h => (hnone h).elim,
    fun o h => absurd h List.not_mem_nil, fun p x h => (hnone h).elim⟩

/-- What is left standing has stood before, with the same children. -/
theorem left (h : Razed roots gone w w') (q : Handle) (y : Object) (hy : w'.object? q = some y)
    (hstands : y.phase ≠ .destroyed) :
    ∃ x, w.object? q = some x ∧ x.phase ≠ .destroyed ∧ x.children = y.children := by
  have hspared : ¬Among gone q := fun hgone => by
    have hphase := h.phase_fallen hgone
    rw [World.phase, hy] at hphase
    exact hstands hphase
  rw [h.others q hspared] at hy
  obtain ⟨x, hx, rfl⟩ := Option.map_eq_some_iff.mp hy
  exact ⟨x, hx, hstands, rfl⟩

theorem phase_ne (h : Razed roots gone w w') {p : Handle} (hp : w'.phase p ≠ .destroyed) :
    w.phase p ≠ .destroyed ∧ ¬Among gone p := by
  have hspared : ¬Among gone p := fun hgone => hp (h.phase_fallen hgone)
  exact ⟨h.phase hspared ▸ hp, hspared⟩

theorem trans (h : Razed roots gone w w') (h' : Razed roots' gone' w' w'') :
    Razed (roots ++ roots') (gone ++ gone') w w'' := by
  have hapart (p : Handle) (hp : Among gone p) : ¬Among gone' p :=
    fun hp' => h'.stood p hp' (h.phase_fallen hp)
  -- What stands in between goes in the second part, and the rest has gone in the first one.
  have hthen {c : Handle} (hstands : w.phase c ≠ .destroyed)
      (hsecond : w'.phase c ≠ .destroyed → Among gone' c) : Among (gone ++ gone') c := by
    by_cases hfirst : Among gone c
    · exact among_append.mpr (.inl hfirst)
    · exact among_append.mpr (.inr (hsecond (h.phase hfirst ▸ hstands)))
  refine ⟨h.toCleared.trans h'.toCleared hapart, fun p hp => ?_, fun p hp => ?_, fun o ho hstands => ?_,
    fun p x hp hx c hc hstands => ?_⟩
  · rcases among_append.mp hp with hp | hp
    · exact h.stood p hp
    · exact (h.phase_ne (h'.stood p hp)).1
  · rcases among_append.mp hp with hp | hp
    · obtain ⟨o, ho, hbeneath⟩ := h.beneath p hp
      exact ⟨o, List.mem_append_left _ ho, hbeneath⟩
    · obtain ⟨o, ho, hbeneath⟩ := h'.beneath p hp
      exact ⟨o, List.mem_append_right _ ho, hbeneath.mono h.left⟩
  · rcases List.mem_append.mp ho with ho | ho
    · exact among_append.mpr (.inl (h.taken o ho hstands))
    · exact hthen hstands (h'.taken o ho)
  · rcases among_append.mp hp with hp | hp
    · exact among_append.mpr (.inl (h.closed p x hp hx c hc hstands))
    · have hx' : w'.object? p = some (x.without (w.enteredBy gone)) := by
        rw [h.others p fun hfirst => hapart p hfirst hp, hx]
        rfl
      exact hthen hstands (h'.closed p _ hp hx' c hc)

/-- What has gone is what is below the roots. -/
theorem among_iff (h : Razed roots gone w w') (p : Handle) :
    Among gone p ↔ ∃ o ∈ roots, w.Beneath o p := by
  refine ⟨h.beneath p, ?_⟩
  rintro ⟨o, ho, hp⟩
  induction hp with
  | self hid hstands => exact (h.taken o ho (w.phase_congr hid ▸ hstands)).congr hid.symm
  | child _ hx hc hid hstands ih =>
      exact (h.closed _ _ ih hx _ hc (w.phase_congr hid ▸ hstands)).congr hid.symm

/-- An object is marked, what is below its children goes, and then it is cut off. -/
theorem dismantle {x : Object} (hx : w.object? o = some x) (hstands : x.phase ≠ .destroyed)
    (h : Razed x.children gone
      (w.modifyObject o fun x => { x with phase := .destroyed, children := [] }) w') :
    Razed [o] (gone ++ [o]) w (w'.dismantle o) := by
  have hobject (p : Handle) := w.object?_modifyObject o p
    (f := fun x => { x with phase := .destroyed, children := [] }) fun _ => rfl
  have hself {p : Handle} (hid : o.id = p.id) : Among (gone ++ [o]) p :=
    among_append.mpr (.inr ⟨o, List.mem_singleton_self o, hid⟩)
  have hstood {p : Handle} (hid : o.id = p.id) : w.phase p ≠ .destroyed := by
    rw [← phase_congr w hid, phase, hx]
    exact hstands
  -- The object itself does not stand any more when its children are entered.
  have hother {p : Handle} (hp : Among gone p) : ¬o.id = p.id := by
    intro hid
    refine h.stood p hp ?_
    rw [phase, hobject, if_pos hid, ← object?_congr w hid, hx]
    rfl
  have hphase {p : Handle} (hne : ¬o.id = p.id) :
      (w.modifyObject o fun x => { x with phase := .destroyed, children := [] }).phase p = w.phase p := by
    rw [phase, hobject, if_neg hne, ← phase]
  have hmore (q : Handle) (y : Object)
      (hy : (w.modifyObject o fun x => { x with phase := .destroyed, children := [] }).object? q = some y)
      (hstands : y.phase ≠ .destroyed) :
      ∃ x, w.object? q = some x ∧ x.phase ≠ .destroyed ∧ x.children = y.children := by
    rw [hobject] at hy
    split at hy
    · obtain ⟨x, -, rfl⟩ := Option.map_eq_some_iff.mp hy
      exact absurd rfl hstands
    · exact ⟨y, hy, hstands, rfl⟩
  have hmarked (y : Object) (hy : w'.object? o = some y) : y.phase = .destroyed ∧ y.children = [] := by
    rw [h.others o fun hgone => hother hgone rfl, hobject, if_pos rfl, hx] at hy
    obtain rfl := Option.some.inj hy
    exact ⟨rfl, rfl⟩
  have hcleared := h.toCleared.trans (.dismantle hmarked) fun p hp hlast => by
    obtain ⟨q, hq, hid⟩ := hlast
    exact hother hp (List.mem_singleton.mp hq ▸ hid)
  refine ⟨.of_mark (hself rfl) hcleared, fun p hp => ?_, fun p hp => ?_, fun q hq _ => ?_,
    fun p y hp hy c hc hc' => ?_⟩
  · rcases among_append.mp hp with hp | ⟨q, hq, hid⟩
    · exact hphase (hother hp) ▸ h.stood p hp
    · exact hstood (List.mem_singleton.mp hq ▸ hid)
  · refine ⟨o, List.mem_singleton_self o, ?_⟩
    rcases among_append.mp hp with hp | ⟨q, hq, hid⟩
    · obtain ⟨c, hc, hbeneath⟩ := h.beneath p hp
      exact .of_child (hstood rfl) hx hc (hbeneath.mono hmore)
    · have hid' : o.id = p.id := List.mem_singleton.mp hq ▸ hid
      exact .self hid'.symm (hstood hid')
  · exact hself (congrArg Handle.id (List.mem_singleton.mp hq).symm)
  · by_cases hid : o.id = c.id
    · exact hself hid
    · refine among_append.mpr (.inl ?_)
      have hstill := (hphase hid).symm ▸ hc'
      by_cases hp' : Among gone p
      · exact h.closed p y hp' ((hobject p).trans ((if_neg (hother hp')).trans hy)) c hc hstill
      · obtain ⟨q, hq, hpid⟩ := (among_append.mp hp).resolve_left hp'
        obtain rfl := List.mem_singleton.mp hq
        rw [← object?_congr w hpid, hx] at hy
        obtain rfl := Option.some.inj hy
        exact h.taken c hc hstill

/-- Nothing is destroyed twice. -/
theorem of_destroyed (h : w.phase o = .destroyed) : Razed [o] [] w w := by
  refine ⟨.refl w, (refl w).stood, fun p hp => ?_, fun q hq hstands => ?_, (refl w).closed⟩
  · obtain ⟨q, hq, -⟩ := hp
    cases hq
  · exact absurd h (List.mem_singleton.mp hq ▸ hstands)

/-- What razes one root razes one after another, as long as it goes on being able to. -/
theorem foldl {P : World → Prop} {f : World → Handle → World}
    (hP : ∀ {w w' roots gone}, Razed roots gone w w' → P w → P w')
    (hf : ∀ w o, P w → ∃ gone, Razed [o] gone w (f w o)) (os : List Handle) (w : World) (hw : P w) :
    ∃ gone, Razed os gone w (os.foldl f w) := by
  induction os generalizing w with
  | nil => exact ⟨[], .refl w⟩
  | cons o os ih =>
      obtain ⟨first, hfirst⟩ := hf w o hw
      obtain ⟨rest, hrest⟩ := ih (f w o) (hP hfirst hw)
      exact ⟨first ++ rest, hfirst.trans hrest⟩

end Razed

/-- Among the numbers are those of all objects that stand, and at most so many stand. -/
structure Fits (ids : List Nat) (depth : Nat) (w : World) : Prop where
  numbered : ∀ p, w.phase p ≠ .destroyed → p.id ∈ ids
  bound : ids.countP (fun i => w.phase ⟨i, ""⟩ ≠ .destroyed) ≤ depth

namespace Fits

variable {ids : List Nat} {depth : Nat} {o : Handle}

theorem of_length (h : w.objects.length ≤ depth) : Fits (w.objects.map (·.handle.id)) depth w := by
  refine ⟨fun p hp => ?_, Nat.le_trans List.countP_le_length (by simpa using h)⟩
  cases hx : w.object? p with
  | none => exact absurd (by simp [phase, hx]) hp
  | some x =>
      exact List.mem_map.mpr ⟨x, List.mem_of_find?_eq_some hx, handle_of_object? hx⟩

/-- Less stands when something has been destroyed. -/
theorem razed {roots gone : List Handle} (hrazed : Razed roots gone w w') (h : Fits ids depth w) :
    Fits ids depth w' := by
  refine ⟨fun p hp => h.numbered p (hrazed.phase_ne hp).1, Nat.le_trans ?_ h.bound⟩
  refine List.countP_mono_left fun i _ hi => ?_
  exact decide_eq_true (hrazed.phase_ne (of_decide_eq_true hi)).1

theorem destroyed (h : Fits ids 0 w) (o : Handle) : w.phase o = .destroyed := by
  by_contra hstands
  have hnone := List.countP_eq_zero.mp (Nat.le_zero.mp h.bound) o.id (h.numbered o hstands)
  exact hnone (decide_eq_true (w.phase_congr (p := ⟨o.id, ""⟩) rfl ▸ hstands))

/-- An object that is marked stands no longer. -/
theorem mark (h : Fits ids (depth + 1) w) (hstands : w.phase o ≠ .destroyed) :
    Fits ids depth (w.modifyObject o fun x => { x with phase := .destroyed, children := [] }) := by
  have hobject (p : Handle) := w.object?_modifyObject o p
    (f := fun x => { x with phase := .destroyed, children := [] }) fun _ => rfl
  have hless {p : Handle} (hp : (w.modifyObject o fun x =>
      { x with phase := .destroyed, children := [] }).phase p ≠ .destroyed) :
      w.phase p ≠ .destroyed := by
    rw [phase, hobject] at hp
    split at hp
    · cases hx : w.object? p <;> simp [hx] at hp
    · exact hp
  have hmarked : (w.modifyObject o fun x => { x with phase := .destroyed, children := [] }).phase
      ⟨o.id, ""⟩ = .destroyed := by
    rw [phase, hobject, if_pos rfl]
    cases w.object? ⟨o.id, ""⟩ <;> rfl
  have hstood : w.phase ⟨o.id, ""⟩ ≠ .destroyed := w.phase_congr (p := ⟨o.id, ""⟩) rfl ▸ hstands
  refine ⟨fun p hp => h.numbered p (hless hp), ?_⟩
  have hlt : ids.countP (fun i => (w.modifyObject o fun x =>
      { x with phase := .destroyed, children := [] }).phase ⟨i, ""⟩ ≠ .destroyed) <
      ids.countP fun i => w.phase ⟨i, ""⟩ ≠ .destroyed :=
    countP_lt (fun i _ hi => decide_eq_true (hless (of_decide_eq_true hi))) (h.numbered o hstands)
      (decide_eq_true hstood) (decide_eq_false (not_not.mpr hmarked))
  exact Nat.le_of_lt_succ (Nat.lt_of_lt_of_le hlt h.bound)

end Fits

theorem destroyTo_of_destroyed {o : Handle} (h : w.phase o = .destroyed) (depth : Nat) :
    w.destroyTo depth o = w := by
  cases depth with
  | zero => rfl
  | succ depth =>
      unfold destroyTo
      cases hx : w.object? o with
      | none => rfl
      | some x => exact if_pos (by simpa [phase, hx] using h)

theorem destroyTo_of_stands {o : Handle} {x : Object} (hx : w.object? o = some x)
    (hstands : x.phase ≠ .destroyed) (depth : Nat) :
    w.destroyTo (depth + 1) o = (x.children.foldl (destroyTo depth)
      (w.modifyObject o fun x => { x with phase := .destroyed, children := [] })).dismantle o := by
  rw [destroyTo, hx]
  exact if_neg hstands

/-- An object that is destroyed already, or an object with what is below it. -/
theorem phase_cases (w : World) (o : Handle) :
    w.phase o = .destroyed ∨ ∃ x, w.object? o = some x ∧ x.phase ≠ .destroyed := by
  by_cases h : w.phase o = .destroyed
  · exact .inl h
  · cases hx : w.object? o with
    | none => exact absurd (by simp [phase, hx]) h
    | some x => exact .inr ⟨x, rfl, by simpa [phase, hx] using h⟩

/-- Two traversals are the same that do the same in all the worlds that they come to. -/
theorem foldl_congr_along {P : World → Prop} {f g : World → Handle → World}
    (hstep : ∀ w o, P w → P (f w o) ∧ f w o = g w o) (os : List Handle) (hw : P w) :
    os.foldl f w = os.foldl g w := by
  induction os generalizing w with
  | nil => rfl
  | cons o os ih =>
      obtain ⟨hnext, heq⟩ := hstep w o hw
      rw [List.foldl_cons, List.foldl_cons, ← heq]
      exact ih hnext

variable {ids ids' : List Nat} {depth depth' : Nat}

/-- Everything below the object is destroyed where the depth is no less than the number of objects that
stand. -/
theorem destroyTo_razes (h : Fits ids depth w) (o : Handle) :
    ∃ gone, Razed [o] gone w (w.destroyTo depth o) := by
  induction depth generalizing w o with
  | zero => exact ⟨[], .of_destroyed (h.destroyed o)⟩
  | succ depth ih =>
      rcases w.phase_cases o with hdestroyed | ⟨x, hx, hstands⟩
      · rw [destroyTo_of_destroyed hdestroyed]
        exact ⟨[], .of_destroyed hdestroyed⟩
      · rw [destroyTo_of_stands hx hstands]
        have hphase : w.phase o ≠ .destroyed := by simpa [phase, hx] using hstands
        obtain ⟨gone, hgone⟩ := Razed.foldl (P := Fits ids depth) Fits.razed
          (fun w o hw => ih hw o) x.children _ (h.mark hphase)
        exact ⟨gone ++ [o], hgone.dismantle hx hstands⟩

/-- The depth makes no difference where it is large enough. -/
theorem destroyTo_eq (h : Fits ids depth w) (h' : Fits ids' depth' w) (o : Handle) :
    w.destroyTo depth o = w.destroyTo depth' o := by
  induction depth generalizing w depth' ids' o with
  | zero => rw [destroyTo_of_destroyed (h.destroyed o), destroyTo_of_destroyed (h.destroyed o)]
  | succ depth ih =>
      rcases w.phase_cases o with hdestroyed | ⟨x, hx, hstands⟩
      · rw [destroyTo_of_destroyed hdestroyed, destroyTo_of_destroyed hdestroyed]
      · have hphase : w.phase o ≠ .destroyed := by simpa [phase, hx] using hstands
        cases depth' with
        | zero => exact absurd (h'.destroyed o) hphase
        | succ depth' =>
            rw [destroyTo_of_stands hx hstands, destroyTo_of_stands hx hstands]
            refine congrArg (World.dismantle · o) ?_
            refine foldl_congr_along (P := fun w => Fits ids depth w ∧ Fits ids' depth' w)
              (fun w c hw => ?_) x.children ⟨h.mark hphase, h'.mark hphase⟩
            obtain ⟨gone, hgone⟩ := destroyTo_razes hw.1 c
            exact ⟨⟨hw.1.razed hgone, hw.2.razed hgone⟩, ih hw.1 hw.2 c⟩

/-- The traversal is the one that knows no bound. -/
theorem destroy_of_stands {o : Handle} {x : Object} (hx : w.object? o = some x)
    (hstands : x.phase ≠ .destroyed) :
    w.destroy o = (x.children.foldl destroy
      (w.modifyObject o fun x => { x with phase := .destroyed, children := [] })).dismantle o := by
  have hphase : w.phase o ≠ .destroyed := by simpa [phase, hx] using hstands
  obtain ⟨depth, hdepth⟩ : ∃ depth, w.objects.length = depth + 1 :=
    Nat.exists_eq_add_of_lt (List.length_pos_of_mem (List.mem_of_find?_eq_some hx)) |>.imp
      fun _ h => h.trans (by rw [Nat.zero_add])
  have hfits := (Fits.of_length (Nat.le_of_eq hdepth)).mark hphase
  rw [destroy, hdepth, destroyTo_of_stands hx hstands]
  refine congrArg (World.dismantle · o) (foldl_congr_along (fun w c hw => ?_) x.children hfits)
  obtain ⟨gone, hgone⟩ := destroyTo_razes hw c
  exact ⟨hw.razed hgone, destroyTo_eq hw (.of_length (Nat.le_refl _)) c⟩

end World

end LiveUI
