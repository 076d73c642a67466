import LiveUI.Proofs.World.Reached
import LiveUI.Proofs.World.Removal
import LiveUI.Proofs.World.Termination

/-! # Taking turns

A change is announced to the observers that are there when the announcement begins. They take turns in
the order in which they have registered, and whatever they do meanwhile, each of them is called once,
unless it has been taken away before its turn; and nobody else is called. -/

namespace LiveUI

open World

/-! ## The observers of a snapshot -/

section Snapshots

variable {w₀ w : World} {o : Handle} {attr : String} {obs : Observer}

/-- Where numbers are not used again, an observer is known by its number as long as it is there. -/
theorem World.isRegistered_iff_mem (hw₀ : w₀.Tidy) (hlater : Succeeds w₀ w)
    (hobs : obs ∈ w₀.observers o) : w.isRegistered ⟨o, obs.id⟩ = true ↔ obs ∈ w.observers o := by
  rw [isRegistered_iff]
  refine ⟨?_, fun hmem => ⟨obs, hmem, rfl⟩⟩
  rintro ⟨obs', hobs', hid⟩
  have hold := hlater.old o obs' hobs' (hid ▸ hw₀.lt o obs hobs)
  rwa [← hw₀.eq_of_id hold hobs hid]

/-- What has gone does not come back. -/
theorem World.Succeeds.not_mem (hlater : Succeeds w₀ w) (hlt : obs.id < w₀.nextObserver o)
    (hgone : obs ∉ w₀.observers o) : obs ∉ w.observers o :=
  fun hobs => hgone (hlater.old o obs hobs hlt)

end Snapshots

/-! ## Calls -/

/-- The observers are called one after another, each of them while it is registered. -/
inductive Calls (announce : Announce) (c : Change) : World → List Observer → World → Prop where
  | done (w : World) : Calls announce c w [] w
  | call {w v w' : World} {obs : Observer} {rest : List Observer}
      (hregistered : obs ∈ w.observers c.object)
      (hreact : react announce obs.callback c (w.log (.called c obs.id)) = some ((), v))
      (h : Calls announce c v rest w') : Calls announce c w (obs :: rest) w'

/-- It is the turn of an observer, behind those before it. -/
structure Due (n : Nat) (c : Change) (w : World) (before : List Observer) (obs : Observer)
    (v : World) : Prop where
  reached : deliver (announce n) c before w = some ((), v)
  unsubscribed : ∀ s u sub,
    (Script.deliver (Script.announce n) c before).Does w s (.unobserve sub) u →
    sub.object.id = c.object.id → sub.id = obs.id → obs ∉ v.observers c.object
  destroyed : ∀ s u p, (Script.deliver (Script.announce n) c before).Does w s (.destroy p) u →
    u.phase c.object ≠ .destroyed → (u.destroy p).phase c.object = .destroyed →
    obs ∉ v.observers c.object
  removed : obs ∉ v.observers c.object →
    ∃ s d u, (Script.deliver (Script.announce n) c before).Does w s d u ∧
      d.Removes c.object obs u ∧ obs ∈ u.observers c.object ∧ obs ∉ (d.apply u).observers c.object

/-- A change has been announced to the observers that were there, of whom some have been called. -/
structure Dispatched (n : Nat) (c : Change) (w : World) (called : List Observer) (w' : World) :
    Prop where
  order : ((w.observersOf c.object c.attr).map (·.id)).Pairwise (· < ·)
  sublist : called.Sublist (w.observersOf c.object c.attr)
  nobody : w.observersOf c.object c.attr = [] → w' = w
  calls : w.observersOf c.object c.attr ≠ [] →
    ∃ w₁, Calls (announce n) c (w.beginFlight c) called w₁ ∧ w' = w₁.endFlight c
  /-- An observer is called just if it is there when its turn comes. -/
  turn : ∀ before obs after, w.observersOf c.object c.attr = before ++ obs :: after →
    ∃ v, Due n c (w.beginFlight c) before obs v ∧ (obs ∈ called ↔ obs ∈ v.observers c.object)
  /-- Whoever registers meanwhile comes behind all of them. -/
  late : ∀ s u,
    (Script.deliver (Script.announce n) c (w.observersOf c.object c.attr)).Passes (w.beginFlight c) s u →
    ∀ obs ∈ u.observers c.object, obs ∉ w.observers c.object →
    ∀ obs' ∈ w.observersOf c.object c.attr, obs'.id < obs.id

/-! ## Deliveries -/

section Deliveries

variable {n : Nat} {c : Change} {w₀ w w' : World} {xs : List Observer} {obs : Observer}

theorem run_deliver (n : Nat) (c : Change) (xs : List Observer) (w : World) :
    (Script.deliver (Script.announce n) c xs).run w = deliver (announce n) c xs w :=
  Script.deliver_plays (Script.announce_plays n) c xs w

theorem run_react (n : Nat) (c : Change) (callback : Callback) (w : World) :
    (Script.react (Script.announce n) callback c).run w = react (announce n) callback c w :=
  Script.react_plays (Script.announce_plays n) callback c w

theorem deliver_cons (a : Announce) (c : Change) (obs : Observer) (xs : List Observer) (w : World) :
    deliver a c (obs :: xs) w = if w.isRegistered ⟨c.object, obs.id⟩ then
      (react a obs.callback c (w.log (.called c obs.id))).bind fun q => deliver a c xs q.2
    else deliver a c xs w := by
  have hcons : deliver a c (obs :: xs) w =
      (if w.isRegistered ⟨c.object, obs.id⟩ then do
        modify (·.log (.called c obs.id))
        react a obs.callback c
        deliver a c xs
      else deliver a c xs : Step Unit) w := rfl
  rw [hcons]
  split
  · rfl
  · rfl

/-- Each observer has its turn, and it is called then if it is still there. -/
theorem exists_calls (hw₀ : w₀.Tidy) (hxs : ∀ obs ∈ xs, obs ∈ w₀.observers c.object) (hnodup : xs.Nodup)
    (hlater : StaysTidy w₀ w) (hrun : deliver (announce n) c xs w = some ((), w')) :
    ∃ called : List Observer, called.Sublist xs ∧ Calls (announce n) c w called w' ∧
      ∀ before obs after, xs = before ++ obs :: after →
        ∃ v, deliver (announce n) c before w = some ((), v) ∧
          (obs ∈ called ↔ obs ∈ v.observers c.object) := by
  -- By induction on those who still have their turn; the snapshot itself is of an earlier world.
  induction xs generalizing w with
  | nil =>
      obtain rfl := congrArg Prod.snd (Option.some.inj hrun)
      exact ⟨[], .refl _, .done w, fun before obs after heq => by simp at heq⟩
  | cons x xs ih =>
      obtain ⟨hnew, hnodup⟩ := List.nodup_cons.mp hnodup
      obtain ⟨hx, hxs⟩ := List.forall_mem_cons.mp hxs
      have hregistered := isRegistered_iff_mem hw₀ (hlater hw₀).2 hx
      rw [deliver_cons] at hrun
      split at hrun
      next hthere =>
        obtain ⟨q, hreact, hrest⟩ := Option.bind_eq_some_iff.mp hrun
        have hlater' := (hlater.trans (StaysTidy.enduring.toLasting.log w (.called c x.id))).trans
          (StaysTidy.enduring.run ((run_react n c x.callback _).trans hreact))
        obtain ⟨called, hsublist, hcalls, hturn⟩ := ih hxs hnodup hlater' hrest
        refine ⟨x :: called, hsublist.cons_cons x, .call (hregistered.mp hthere) hreact hcalls,
          fun before obs after heq => ?_⟩
        rcases List.cons_eq_append_iff.mp heq with ⟨rfl, heq⟩ | ⟨before, rfl, rfl⟩
        · obtain ⟨rfl, -⟩ := List.cons.inj heq
          exact ⟨w, rfl, iff_of_true List.mem_cons_self (hregistered.mp hthere)⟩
        · obtain ⟨v, hdue, hiff⟩ := hturn before obs after rfl
          refine ⟨v, by rw [deliver_cons, if_pos hthere, hreact]; exact hdue, ?_⟩
          have hne : obs ≠ x := fun h => hnew (by simp [h])
          rw [List.mem_cons, or_iff_right hne, hiff]
      next hgone =>
        obtain ⟨called, hsublist, hcalls, hturn⟩ := ih hxs hnodup hlater hrun
        refine ⟨called, hsublist.cons x, hcalls, fun before obs after heq => ?_⟩
        rcases List.cons_eq_append_iff.mp heq with ⟨rfl, heq⟩ | ⟨before, rfl, rfl⟩
        · obtain ⟨rfl, -⟩ := List.cons.inj heq
          exact ⟨w, rfl, iff_of_false (fun hcalled => hnew (hsublist.subset hcalled))
            (mt hregistered.mpr hgone)⟩
        · obtain ⟨v, hdue, hiff⟩ := hturn before obs after rfl
          exact ⟨v, by rw [deliver_cons, if_neg hgone]; exact hdue, hiff⟩

theorem mem_observers_begin (t : Stretch) (u : World) {o : Handle} :
    obs ∈ (t.begin u).observers o ↔ obs ∈ u.observers o := by
  cases t with
  | dispatch c => exact observers_beginFlight u c o ▸ .rfl
  | work b => rfl
  | evaluation b => rfl

theorem mem_observers_finish (t : Stretch) (u : World) {o : Handle} :
    obs ∈ (t.finish u).observers o ↔ obs ∈ u.observers o := by
  cases t with
  | dispatch c => exact observers_endFlight u c o ▸ .rfl
  | work b => rfl
  | evaluation b => rfl

/-- What is taken away before its turn is not there when its turn comes, and there is no other reason
why it should not be there. -/
theorem due_of_deliver (hw : w.Orderly) (hobs : obs ∈ w.observers c.object)
    (hrun : deliver (announce n) c xs w = some ((), w')) : Due n c w xs obs w' := by
  have hscript := (run_deliver n c xs w).trans hrun
  have hgone {s : List Stretch} {d : Deed} {u : World}
      (hdoes : (Script.deliver (Script.announce n) c xs).Does w s d u)
      (hremoved : obs ∉ (d.apply u).observers c.object) : obs ∉ w'.observers c.object := by
    obtain ⟨-, -, hpass⟩ := hdoes.passes
    obtain ⟨htidy, hbefore⟩ := StaysTidy.enduring.passes hpass hw.tidy
    obtain ⟨-, hlater⟩ := StaysTidy.enduring.rest hpass hscript htidy
    exact hlater.not_mem (Nat.lt_of_lt_of_le (hw.tidy.lt _ obs hobs) (hbefore.nextObserver _)) hremoved
  refine ⟨hrun, fun s u sub hdoes hobject hid => hgone hdoes fun hmem => ?_,
    fun s u p hdoes hstood hfell => hgone hdoes fun hmem => ?_, fun hmissing => ?_⟩
  · exact (mem_observers_unobserve.mp hmem).2 ⟨hobject, hid⟩
  · have hheard := (hw.passes hdoes.passes.1).heard
    have hempty := ((destroyTo_fells _ u p c.object).fallen hheard hstood hfell).1
    exact List.not_mem_nil (hempty ▸ hmem)
  · obtain ⟨s, d, u, hdoes, hthere, hremoved⟩ := Script.exists_does
      (fun t u hu => (mem_observers_begin t u).mpr hu) (fun t u hu => (mem_observers_finish t u).mpr hu)
      hscript hobs hmissing
    exact ⟨s, d, u, hdoes, Deed.removes_of_gone hthere hremoved, hthere, hremoved⟩

end Deliveries

/-! ## Announcements -/

/-- An announcement that comes to its end has reached those that it should reach. -/
theorem dispatched_of_announce {n : Nat} {c : Change} {w w' : World} (hw : w.Orderly)
    (hrun : announce (n + 1) c w = some ((), w')) : ∃ called, Dispatched n c w called w' := by
  have hsublist := w.observersOf_sublist c.object c.attr
  have horder := (hw.tidy.increasing c.object).sublist (hsublist.map (·.id))
  by_cases hnobody : w.observersOf c.object c.attr = []
  · obtain rfl : w = w' := by
      have hskipped : announce (n + 1) c w = some ((), w) := by
        rw [announce_of_unheard hnobody]
      exact congrArg Prod.snd (Option.some.inj (hskipped.symm.trans hrun))
    refine ⟨[], horder, List.nil_sublist _, fun _ => rfl, fun hsome => absurd hnobody hsome,
      fun before obs after heq => ?_, fun _ _ _ _ _ _ obs' hobs' => ?_⟩
    · simp [hnobody] at heq
    · simp [hnobody] at hobs'
  · rw [announce_of_heard (by simpa using hnobody)] at hrun
    obtain ⟨q, hdeliver, heq⟩ := Option.map_eq_some_iff.mp hrun
    obtain rfl : q.2.endFlight c = w' := congrArg Prod.snd heq
    have hbegun : (w.beginFlight c).Orderly := hw.begin (.dispatch c)
    have hmem {obs : Observer} (hobs : obs ∈ w.observersOf c.object c.attr) :
        obs ∈ (w.beginFlight c).observers c.object :=
      (mem_observers_begin (.dispatch c) w).mpr (hsublist.subset hobs)
    have hnodup : ((w.observersOf c.object c.attr).map (·.id)).Nodup := horder.imp Nat.ne_of_lt
    obtain ⟨called, hcalled, hcalls, hturn⟩ := exists_calls hbegun.tidy (fun obs => hmem)
      (hnodup.of_map _) (.refl _) hdeliver
    refine ⟨called, horder, hcalled, fun hnone => absurd hnone hnobody, fun _ => ⟨q.2, hcalls, rfl⟩,
      fun before obs after hsplit => ?_, fun s u hpass obs hobs hnew obs' hobs' => ?_⟩
    · obtain ⟨v, hreached, hiff⟩ := hturn before obs after hsplit
      exact ⟨v, due_of_deliver hbegun (hmem (hsplit ▸ by simp)) hreached, hiff⟩
    · obtain ⟨-, hlater⟩ := StaysTidy.enduring.passes hpass hbegun.tidy
      have hlt : obs'.id < (w.beginFlight c).nextObserver c.object := hbegun.tidy.lt _ obs' (hmem hobs')
      refine Nat.lt_of_lt_of_le hlt (Nat.not_lt.mp fun hold => hnew ?_)
      exact (mem_observers_begin (.dispatch c) w).mp (hlater.old _ obs hobs hold)

/-- Whenever an attribute is set or emitted, be it in the midst of another announcement, each observer that
is there gets its turn. To set the value that is stored does nothing. -/
theorem dispatch_contract {w : World} (h : w.Occurs) (n : Nat) (o : Handle) (attr : String)
    (v : Value) :
    (∀ old, w.attr? o attr = some old → (old == v) = true →
      ∀ a : Announce, setAttr a o attr v w = some (false, w)) ∧
    (∀ changed w', (∀ old, w.attr? o attr = some old → (old == v) = false) →
      setAttr (announce (n + 1)) o attr v w = some (changed, w') →
      changed = true ∧ ∃ called,
        Dispatched n ⟨o, attr, (w.attr? o attr).getD .nil, v⟩ (w.write o attr v) called w') ∧
    ∀ w', emitAttr (announce (n + 1)) o attr v w = some ((), w') → ∃ called,
      Dispatched n ⟨o, attr, (w.attr? o attr).getD .nil, v⟩ (w.write o attr v) called w' := by
  have hwritten : (w.write o attr v).Orderly :=
    h.orderly.passes (Script.passes_of_run (p := Script.perform (.write o attr v)) rfl)
  refine ⟨fun old hold heq a => setAttr_of_eq hold heq, fun changed w' hne hset => ?_,
    fun w' hemit => dispatched_of_announce hwritten hemit⟩
  rw [setAttr_of_ne hne] at hset
  obtain ⟨q, hannounce, heq⟩ := Option.map_eq_some_iff.mp hset
  obtain ⟨rfl, rfl⟩ := Prod.mk.inj heq
  exact ⟨rfl, dispatched_of_announce hwritten hannounce⟩

/-- Three observers of a knob, of whom the first one removes the second one and registers another. -/
def crowdedKnob : World :=
  let knob : Handle := ⟨1, "Knob"⟩
  let idle : Callback := .host fun _ => .skip
  let upset : Callback := .host fun _ =>
    .unobserve ⟨knob, 1⟩ (.observe knob "value" (fun _ => .skip) fun _ => .skip)
  let made := (({} : World).create "Knob" [("value", .int 0)]).2
  (((made.observe knob "value" upset).2.observe knob "value" idle).2.observe knob "value" idle).2

theorem dispatch_contract_knob : ∃ w' called,
    setAttr (announce 1) ⟨1, "Knob"⟩ "value" (.int 1) crowdedKnob = some (true, w') ∧
    Dispatched 0 ⟨⟨1, "Knob"⟩, "value", .int 0, .int 1⟩
      (crowdedKnob.write ⟨1, "Knob"⟩ "value" (.int 1)) called w' ∧
    (w'.journal.filter Entry.isCall).length = 2 := by
  have hreached : crowdedKnob.Reached := by
    refine .operation (n := 0) (.routine (.create "Knob" [("value", .int 0)] fun knob =>
      .observe knob "value" (fun _ => .unobserve ⟨knob, 1⟩
        (.observe knob "value" (fun _ => .skip) fun _ => .skip))
      fun _ => .observe knob "value" (fun _ => .skip) fun _ =>
      .observe knob "value" (fun _ => .skip) fun _ => .skip)) .start rfl
  have hcontract := dispatch_contract (.reached hreached) 0 ⟨1, "Knob"⟩ "value" (.int 1)
  have hchanged (old : Value) (hold : crowdedKnob.attr? ⟨1, "Knob"⟩ "value" = some old) :
      (old == .int 1) = false := by
    obtain rfl : .int 0 = old := Option.some.inj hold
    rfl
  obtain ⟨-, called, hdispatched⟩ := hcontract.2.1 true _ hchanged rfl
  exact ⟨_, called, rfl, hdispatched, rfl⟩

end LiveUI
