import Mathlib.Logic.Function.Basic
import LiveUI.Proofs.World.Delegates
import LiveUI.Proofs.World.Making

/-! # A delegate beside a normaliser

A delegate keeps two attributes in step, and a routine of the host that observes one of them
replaces each new value by its normal form. What goes on between the three is seen in a small part
of the world: the two values, who observes them and in which order, and whether the delegate is at
work. -/

namespace LiveUI

def Role.other : Role → Role
  | source => target
  | target => source

theorem Role.other_ne (r : Role) : r.other ≠ r := by
  cases r <;> decide

/-- A delegate between the attribute of a site and the attribute `source`, and the normal form that
the attribute at one of its ends is brought to. -/
structure Tandem where
  site : Site
  code : Code
  source : Handle × String
  denotes : code.Denotes site.frame source.1 source.2
  apart : ¬(site.target.id = source.1.id ∧ site.attr = source.2)
  normal : Value → Value
  idempotent : ∀ v, normal (normal v) = normal v
  /-- The end that is normalised. -/
  side : Role

/-- What observes the two attributes. -/
inductive Part where
  | source | target | normaliser
deriving DecidableEq

namespace Tandem

/-- The attribute at an end of the delegate. -/
def place (T : Tandem) : Role → Handle × String
  | .source => T.source
  | .target => (T.site.target, T.site.attr)

/-- Where the new value is not in normal form, its normal form is written. -/
def routine (T : Tandem) (c : Change) : Host :=
  if c.new == T.normal c.new then .skip
  else .write c.object c.attr (T.normal c.new) fun _ => .skip

theorem eq_of_place (T : Tandem) {r r' : Role} (hid : (T.place r).1.id = (T.place r').1.id)
    (hattr : (T.place r).2 = (T.place r').2) : r = r' := by
  cases r <;> cases r'
  · rfl
  · exact (T.apart ⟨hid.symm, hattr.symm⟩).elim
  · exact (T.apart ⟨hid, hattr⟩).elim
  · rfl

/-- The part of the world that matters. -/
structure State where
  /-- The number of the delegate. -/
  number : Nat
  values : Role → Option Value
  /-- Who observes an end, in order. -/
  parts : Role → List Part
  /-- The numbers of the observers. -/
  ids : Part → Nat
  /-- The numbers of those that have observed the source before. -/
  gone : List Nat := []
  /-- How many changes of an end are being announced. -/
  flights : Role → Nat
  busy : Bool
  owned : Bool

def callback (T : Tandem) (s : State) : Part → Callback
  | .source => .source s.number
  | .target => .target s.number
  | .normaliser => .host T.routine

def observer (T : Tandem) (s : State) (r : Role) (p : Part) : Observer :=
  ⟨s.ids p, (T.place r).2, T.callback s p⟩

def sources (T : Tandem) (s : State) : List Subscription :=
  if .source ∈ s.parts .source then [⟨T.source.1, s.ids .source⟩] else []

/-- The delegate itself. -/
def record (T : Tandem) (s : State) (listener : Option Subscription) : Binding :=
  { T.site.record .delegate T.code s.number with
    sources := T.sources s, targetListener := listener, busy := s.busy, owned := s.owned }

end Tandem

/-- How many changes of an attribute are being announced. -/
def World.flights (w : World) (o : Handle) (attr : String) : Nat :=
  ((w.object? o).map (·.inFlight.count attr)).getD 0

namespace World

theorem isInFlight_of_flights {w : World} {o : Handle} {attr : String} (h : w.flights o attr = 0) :
    w.isInFlight o attr = false := by
  unfold flights at h
  unfold isInFlight
  cases hx : w.object? o with
  | none => rfl
  | some x =>
      have hcount : x.inFlight.count attr = 0 := by simpa [hx] using h
      simpa [hx] using List.count_eq_zero.mp hcount

theorem flights_modifyObject (w : World) (o p : Handle) {f : Object → Object} (attr : String)
    (hf : ∀ x, (f x).handle = x.handle) (hi : ∀ x, (f x).inFlight = x.inFlight) :
    (w.modifyObject o f).flights p attr = w.flights p attr := by
  rw [flights, object?_modifyObject w o p hf, flights]
  split
  · cases w.object? p <;> simp [hi]
  · rfl

theorem flights_beginFlight (w : World) (c : Change) (p : Handle) (attr : String) :
    (w.beginFlight c).flights p attr =
      if c.object.id = p.id ∧ c.attr = attr ∧ w.isAlive p then w.flights p attr + 1
      else w.flights p attr := by
  have hobj := object?_modifyObject w c.object p
    (f := fun x => { x with inFlight := c.attr :: x.inFlight }) fun _ => rfl
  change (((w.modifyObject c.object _).object? p).map _).getD 0 = _
  rw [hobj]
  unfold flights isAlive
  by_cases hid : c.object.id = p.id
  · cases w.object? p with
    | none => simp
    | some x => by_cases hattr : c.attr = attr <;> simp [hid, hattr]
  · simp [hid]

theorem flights_endFlight (w : World) (c : Change) (p : Handle) (attr : String) :
    (w.endFlight c).flights p attr =
      if c.object.id = p.id ∧ c.attr = attr then w.flights p attr - 1 else w.flights p attr := by
  have hobj := object?_modifyObject w c.object p
    (f := fun x => { x with inFlight := x.inFlight.erase c.attr }) fun _ => rfl
  change (((w.modifyObject c.object _).object? p).map _).getD 0 = _
  rw [hobj]
  unfold flights
  by_cases hid : c.object.id = p.id
  · cases w.object? p with
    | none => simp
    | some x => by_cases hattr : c.attr = attr <;> simp [hid, hattr, List.count_erase]
  · simp [hid]

theorem observersOf_congr {w w' : World} {o : Handle} (h : w'.observers o = w.observers o)
    (attr : String) : w'.observersOf o attr = w.observersOf o attr := by
  rw [observersOf_eq_filter, observersOf_eq_filter, h]

theorem observersOf_observe (w : World) (o : Handle) (attr : String) (callback : Callback)
    (p : Handle) (other : String) :
    (w.observe o attr callback).2.observersOf p other =
      if o.id = p.id ∧ attr = other ∧ w.isAlive p then
        w.observersOf p other ++ [⟨w.nextObserver o, attr, callback⟩]
      else w.observersOf p other := by
  rw [observersOf_eq_filter, observersOf_eq_filter, observers_observe]
  by_cases hid : o.id = p.id ∧ w.isAlive p = true
  · by_cases hattr : attr = other
    · simp [hid, hattr]
    · simp [hid, hattr]
  · rw [if_neg hid, if_neg fun h => hid ⟨h.1, h.2.2⟩]

theorem observersOf_unobserve (w : World) (s : Subscription) (p : Handle) (attr : String) :
    (w.unobserve s).observersOf p attr =
      if s.object.id = p.id then (w.observersOf p attr).filter (·.id != s.id)
      else w.observersOf p attr := by
  rw [observersOf_eq_filter, observersOf_eq_filter, observers_unobserve]
  split
  · rw [List.filter_filter, List.filter_filter]
    exact List.filter_congr fun x _ => Bool.and_comm _ _
  · rfl

/-- Removing an old observer and registering a new one may change places. -/
theorem observe_unobserve (w : World) {o : Handle} {k : Nat} (attr : String)
    (callback : Callback) (h : k ≠ w.nextObserver o) :
    (w.observe o attr callback).2.unobserve ⟨o, k⟩ =
      ((w.unobserve ⟨o, k⟩).observe o attr callback).2 := by
  have hnext : ((w.unobserve ⟨o, k⟩).object? o |>.map (·.nextObserver)).getD 0 =
      ((w.object? o).map (·.nextObserver)).getD 0 := w.nextObserver_unobserve ⟨o, k⟩ o
  simp only [observe, hnext]
  simp only [unobserve, modifyObject, List.map_map]
  congr 1
  refine List.map_congr_left fun x _ => ?_
  have hne : ((w.object? o).map (·.nextObserver)).getD 0 ≠ k := fun heq => h heq.symm
  by_cases hid : x.handle.id = o.id
  · simp [hid, hne]
  · simp [hid]

end World

open World Step

namespace Tandem

variable {T : Tandem} {w w' : World} {s : State}

/-- The world looks so, apart from the delegate. -/
structure Seen (T : Tandem) (w : World) (s : State) : Prop where
  alive : ∀ r, w.isAlive (T.place r).1 = true
  values : ∀ r, w.attr? (T.place r).1 (T.place r).2 = s.values r
  observers : ∀ r, w.observersOf (T.place r).1 (T.place r).2 = (s.parts r).map (T.observer s r)
  distinct : ∀ r r', ∀ p ∈ s.parts r, ∀ p' ∈ s.parts r', (T.place r).1.id = (T.place r').1.id →
    s.ids p = s.ids p' → p = p'
  lt : ∀ r, ∀ p ∈ s.parts r, s.ids p < w.nextObserver (T.place r).1
  gone : ∀ k ∈ s.gone, k < w.nextObserver T.source.1 ∧ ∀ obs ∈ w.observers T.source.1, obs.id ≠ k
  flights : ∀ r, w.flights (T.place r).1 (T.place r).2 = s.flights r
  source : Part.source ∉ s.parts .target
  normaliser : ∀ r, .normaliser ∈ s.parts r → r = T.side

/-- The world looks so. -/
structure Shows (T : Tandem) (w : World) (s : State) : Prop extends T.Seen w s where
  binding : ∃ listener, w.binding? s.number = some (T.record s listener)

/-! ## What happens to the state -/

namespace State

def put (s : State) (r : Role) (v : Value) : State :=
  { s with values := Function.update s.values r (some v) }

/-- One more change of an end is being announced. -/
def enter (s : State) (r : Role) : State :=
  { s with flights := Function.update s.flights r (s.flights r + 1) }

def working (s : State) (busy : Bool) : State :=
  { s with busy }

/-- The delegate observes its source no longer. -/
def drop (s : State) : State :=
  { s with
    parts := Function.update s.parts .source ((s.parts .source).filter (· ≠ .source))
    gone := if .source ∈ s.parts .source then s.ids .source :: s.gone else s.gone }

/-- Another observer comes behind the others. -/
def listen (s : State) (r : Role) (p : Part) (id : Nat) : State :=
  { s with
    parts := Function.update s.parts r (s.parts r ++ [p])
    ids := Function.update s.ids p id }

/-- The delegate observes its source anew, behind the others. -/
def relisten (s : State) (id : Nat) : State :=
  s.drop.listen .source .source id

theorem mem_parts_of_drop {r : Role} {p : Part} (h : p ∈ s.drop.parts r) : p ∈ s.parts r := by
  cases r with
  | source =>
      simp only [drop, Function.update_self] at h
      exact List.mem_of_mem_filter h
  | target => simpa [drop] using h

theorem drop_of_unheard (h : .source ∉ s.parts .source) : s.drop = s := by
  have hfilter : (s.parts .source).filter (· ≠ .source) = s.parts .source :=
    List.filter_eq_self.mpr fun p hp => by
      have hne : p ≠ .source := fun heq => h (heq ▸ hp)
      simpa using hne
  simp only [drop, hfilter, Function.update_eq_self, if_neg h]

theorem mem_parts_listen {r r' : Role} {p q : Part} {id : Nat} :
    q ∈ (s.listen r p id).parts r' ↔ q ∈ s.parts r' ∨ (r' = r ∧ q = p) := by
  by_cases hr : r' = r
  · subst hr
    simp [listen]
  · simp [listen, hr]

theorem ids_listen_self (r : Role) (p : Part) (id : Nat) : (s.listen r p id).ids p = id := by
  simp [listen]

theorem ids_listen_of_ne (r : Role) {p q : Part} (id : Nat) (h : q ≠ p) :
    (s.listen r p id).ids q = s.ids q := by
  simp [listen, h]

end State

theorem sources_of_heard (T : Tandem) (h : .source ∈ s.parts .source) :
    T.sources s = [⟨T.source.1, s.ids .source⟩] :=
  if_pos h

theorem sources_of_unheard (T : Tandem) (h : .source ∉ s.parts .source) : T.sources s = [] :=
  if_neg h

/-! ## What the world shows after an operation -/

namespace Seen

/-- Only values and the announcements in progress have changed. -/
theorem moved (h : T.Seen w s) {values : Role → Option Value} {flights : Role → Nat}
    (halive : ∀ o, w'.isAlive o = w.isAlive o)
    (hvalues : ∀ r, w'.attr? (T.place r).1 (T.place r).2 = values r)
    (hobservers : ∀ o, w'.observers o = w.observers o)
    (hnext : ∀ o, w'.nextObserver o = w.nextObserver o)
    (hflights : ∀ r, w'.flights (T.place r).1 (T.place r).2 = flights r) :
    T.Seen w' { s with values, flights } where
  alive r := (halive _).trans (h.alive r)
  values := hvalues
  observers r := (observersOf_congr (hobservers _) _).trans (h.observers r)
  distinct := h.distinct
  lt r p hp := (hnext _).symm ▸ h.lt r p hp
  gone k hk := by
    rw [hnext, hobservers]
    exact h.gone k hk
  flights := hflights
  source := h.source
  normaliser := h.normaliser

/-- A part that observes an end in addition gets a number of its own. -/
theorem listen (h : T.Seen w s) (r : Role) {p : Part} (hnew : ∀ r', p ∉ s.parts r')
    (hsource : p = .source → r = .source) (hside : p = .normaliser → r = T.side) :
    T.Seen (w.observe (T.place r).1 (T.place r).2 (T.callback s p)).2
      (s.listen r p (w.nextObserver (T.place r).1)) := by
  have hkeeps := Keeps.observe w (T.place r).1 (T.place r).2 (T.callback s p)
  have hself := State.ids_listen_self (s := s) r p (w.nextObserver (T.place r).1)
  have hids : ∀ r', ∀ q ∈ s.parts r',
      (s.listen r p (w.nextObserver (T.place r).1)).ids q = s.ids q :=
    fun r' q hq => State.ids_listen_of_ne r _ fun heq => hnew r' (heq ▸ hq)
  -- an old observer of the same object has a number below the new one
  have hbelow : ∀ r', ∀ q ∈ s.parts r', (T.place r').1.id = (T.place r).1.id →
      s.ids q ≠ w.nextObserver (T.place r).1 := by
    intro r' q hq hid heq
    have hlt := h.lt r' q hq
    rw [w.nextObserver_congr hid] at hlt
    omega
  refine ⟨fun r' => (hkeeps.isAlive _).trans (h.alive r'),
    fun r' => (w.attr?_observe _ _ _ _ _).trans (h.values r'), fun r' => ?_, ?_, ?_, fun k hk => ?_,
    fun r' => ?_, ?_, ?_⟩
  · have hmap : (s.parts r').map (T.observer (s.listen r p (w.nextObserver (T.place r).1)) r') =
        (s.parts r').map (T.observer s r') :=
      List.map_congr_left fun q hq => by
        simp only [observer, hids r' q hq]
        rfl
    rw [w.observersOf_observe, h.observers]
    by_cases hr : r' = r
    · subst hr
      rw [if_pos ⟨rfl, rfl, h.alive r'⟩]
      simp only [State.listen, Function.update_self, List.map_append]
      change _ = (s.parts r').map (T.observer (s.listen r' p _) r') ++ _
      rw [hmap]
      simp [observer, callback]
    · rw [if_neg fun hsame => hr (T.eq_of_place hsame.1 hsame.2.1).symm]
      simp only [State.listen, Function.update_of_ne hr]
      exact hmap.symm
  · intro r₁ r₂ q hq q' hq' hid heq
    rcases State.mem_parts_listen.mp hq with hold | ⟨rfl, rfl⟩ <;>
      rcases State.mem_parts_listen.mp hq' with hold' | ⟨rfl, rfl⟩
    · rw [hids _ q hold, hids _ q' hold'] at heq
      exact h.distinct r₁ r₂ q hold q' hold' hid heq
    · rw [hids _ q hold, hself] at heq
      exact (hbelow r₁ q hold hid heq).elim
    · rw [hids _ q' hold', hself] at heq
      exact (hbelow r₂ q' hold' hid.symm heq.symm).elim
    · rfl
  · intro r' q hq
    rcases State.mem_parts_listen.mp hq with hold | ⟨rfl, rfl⟩
    · rw [hids _ q hold]
      exact Nat.lt_of_lt_of_le (h.lt r' q hold) (hkeeps.nextObserver _)
    · rw [hself, w.nextObserver_observe, if_pos ⟨rfl, h.alive r'⟩]
      exact Nat.lt_succ_self _
  · obtain ⟨hlt, hnot⟩ := h.gone k hk
    refine ⟨Nat.lt_of_lt_of_le hlt (hkeeps.nextObserver _), fun obs hobs => ?_⟩
    rcases hkeeps.observers _ obs hobs with hold | hge
    · exact hnot obs hold
    · omega
  · have hflights := w.flights_modifyObject (T.place r).1 (T.place r').1 (T.place r').2
      (f := fun x => { x with
        observers := x.observers ++ [⟨w.nextObserver (T.place r).1, (T.place r).2, T.callback s p⟩]
        nextObserver := w.nextObserver (T.place r).1 + 1 }) (fun _ => rfl) fun _ => rfl
    exact hflights.trans (h.flights r')
  · intro hmoved
    rcases State.mem_parts_listen.mp hmoved with hold | ⟨hr, hp⟩
    · exact h.source hold
    · have hr' := hsource hp.symm
      rw [hr'] at hr
      contradiction
  · intro r' hmoved
    rcases State.mem_parts_listen.mp hmoved with hold | ⟨rfl, hp⟩
    · exact h.normaliser r' hold
    · exact hside hp.symm

/-- The observer of the source is removed. -/
theorem drop_heard (h : T.Seen w s) (hheard : .source ∈ s.parts .source) :
    T.Seen (w.unobserve ⟨T.source.1, s.ids .source⟩) s.drop := by
  have hkeeps := Keeps.unobserve w ⟨T.source.1, s.ids .source⟩
  -- no other observer of the object has this number
  have hother : ∀ r, ∀ q ∈ s.parts r, (T.place r).1.id = T.source.1.id →
      (s.ids q = s.ids .source ↔ q = .source) := by
    intro r q hq hid
    exact ⟨fun heq => h.distinct r .source q hq .source hheard hid heq, fun heq => heq ▸ rfl⟩
  refine ⟨fun r => (hkeeps.isAlive _).trans (h.alive r),
    fun r => (w.attr?_unobserve _ _ _).trans (h.values r), fun r => ?_, ?_, ?_, fun k hk => ?_,
    fun r => ?_, ?_, ?_⟩
  · rw [w.observersOf_unobserve, h.observers]
    cases r with
    | source =>
        change (if T.source.1.id = T.source.1.id then _ else _) = _
        rw [if_pos rfl, List.filter_map]
        simp only [State.drop, Function.update_self]
        refine congrArg (List.map _) (List.filter_congr fun q hq => ?_)
        have hiff := hother .source q hq rfl
        by_cases hq' : q = .source <;> simp_all [observer]
    | target =>
        split
        next hid =>
          rw [List.filter_eq_self.mpr fun obs hobs => ?_]
          · rfl
          · obtain ⟨q, hq, rfl⟩ := List.mem_map.mp hobs
            have hne : q ≠ .source := fun heq => h.source (heq ▸ hq)
            have hiff := hother .target q hq hid.symm
            simpa [observer, hiff] using hne
        next => rfl
  · intro r r' q hq q' hq'
    exact h.distinct r r' q (State.mem_parts_of_drop hq) q' (State.mem_parts_of_drop hq')
  · intro r q hq
    exact Nat.lt_of_lt_of_le (h.lt r q (State.mem_parts_of_drop hq)) (hkeeps.nextObserver _)
  · have hobservers := w.observers_unobserve ⟨T.source.1, s.ids .source⟩ T.source.1
    rw [if_pos rfl] at hobservers
    have hmem : k = s.ids .source ∨ k ∈ s.gone := by simpa [State.drop, hheard] using hk
    change k < (w.unobserve _).nextObserver _ ∧ ∀ obs ∈ (w.unobserve _).observers _, _
    rw [w.nextObserver_unobserve, hobservers]
    rcases hmem with rfl | hk
    · refine ⟨h.lt .source .source hheard, fun obs hobs => ?_⟩
      simpa using (List.mem_filter.mp hobs).2
    · obtain ⟨hlt, hnot⟩ := h.gone k hk
      exact ⟨hlt, fun obs hobs => hnot obs (List.mem_of_mem_filter hobs)⟩
  · have hflights := w.flights_modifyObject T.source.1 (T.place r).1 (T.place r).2
      (f := fun x => { x with observers := x.observers.filter (·.id != s.ids .source) })
      (fun _ => rfl) fun _ => rfl
    exact hflights.trans (h.flights r)
  · simpa [State.drop] using h.source
  · exact fun r hmoved => h.normaliser r (State.mem_parts_of_drop hmoved)

/-- Whether or not it heard of its source, the delegate does not any more. -/
theorem drop (h : T.Seen w s) : T.Seen ((T.sources s).foldl World.unobserve w) s.drop := by
  by_cases hheard : .source ∈ s.parts .source
  · rw [T.sources_of_heard hheard]
    exact h.drop_heard hheard
  · rw [T.sources_of_unheard hheard, State.drop_of_unheard hheard]
    exact h

end Seen

namespace Shows

/-- Only values and the announcements in progress have changed. -/
theorem moved (h : T.Shows w s) {values : Role → Option Value} {flights : Role → Nat}
    (halive : ∀ o, w'.isAlive o = w.isAlive o)
    (hvalues : ∀ r, w'.attr? (T.place r).1 (T.place r).2 = values r)
    (hobservers : ∀ o, w'.observers o = w.observers o)
    (hnext : ∀ o, w'.nextObserver o = w.nextObserver o)
    (hflights : ∀ r, w'.flights (T.place r).1 (T.place r).2 = flights r)
    (hbinding : w'.binding? s.number = w.binding? s.number) :
    T.Shows w' { s with values, flights } := by
  obtain ⟨listener, hx⟩ := h.binding
  exact ⟨h.toSeen.moved halive hvalues hobservers hnext hflights, listener, hbinding.trans hx⟩

theorem log (h : T.Shows w s) (e : Entry) : T.Shows (w.log e) s :=
  h.moved (fun _ => rfl) h.values (fun _ => rfl) (fun _ => rfl) h.flights rfl

theorem write (h : T.Shows w s) (r : Role) (v : Value) :
    T.Shows (w.write (T.place r).1 (T.place r).2 v) (s.put r v) := by
  have hflights (r' : Role) := w.flights_modifyObject (T.place r).1 (T.place r').1 (T.place r').2
    (f := fun x => { x with attrs := x.attrs.put (T.place r).2 v }) (fun _ => rfl) fun _ => rfl
  refine h.moved (Keeps.write w _ _ v).isAlive (fun r' => ?_) (fun o => w.observers_write _ o _ v)
    (fun o => w.nextObserver_write _ o _ v) (fun r' => (hflights r').trans (h.flights r')) rfl
  by_cases hr : r' = r
  · subst hr
    rw [w.attr?_write_self _ v (h.alive r'), Function.update_self]
  · rw [w.attr?_write_of_ne v fun hsame => hr (T.eq_of_place hsame.1 hsame.2).symm, h.values,
      Function.update_of_ne hr]

theorem beginFlight (h : T.Shows w s) {c : Change} {r : Role} (hobject : c.object = (T.place r).1)
    (hattr : c.attr = (T.place r).2) : T.Shows (w.beginFlight c) (s.enter r) := by
  refine h.moved (fun o => w.isAlive_modifyObject c.object o
    (f := fun x => { x with inFlight := c.attr :: x.inFlight }) fun _ => rfl)
    (fun r' => (w.attr?_beginFlight c _ _).trans (h.values r')) (w.observers_beginFlight c)
    (w.nextObserver_beginFlight c) (fun r' => ?_) rfl
  rw [w.flights_beginFlight, hobject, hattr, h.alive, h.flights]
  by_cases hr : r' = r
  · subst hr
    simp
  · rw [if_neg fun hsame => hr (T.eq_of_place hsame.1 hsame.2.1).symm, Function.update_of_ne hr]

theorem endFlight {c : Change} {r : Role} (h : T.Shows w (s.enter r))
    (hobject : c.object = (T.place r).1) (hattr : c.attr = (T.place r).2) :
    T.Shows (w.endFlight c) s := by
  change T.Shows (w.endFlight c) { s.enter r with flights := s.flights }
  refine h.moved (fun o => w.isAlive_modifyObject c.object o
    (f := fun x => { x with inFlight := x.inFlight.erase c.attr }) fun _ => rfl)
    (fun r' => (w.attr?_endFlight c _ _).trans (h.values r')) (w.observers_endFlight c)
    (w.nextObserver_endFlight c) (fun r' => ?_) rfl
  rw [w.flights_endFlight, hobject, hattr, h.flights]
  by_cases hr : r' = r
  · subst hr
    simp [State.enter]
  · rw [if_neg fun hsame => hr (T.eq_of_place hsame.1 hsame.2).symm]
    simp [State.enter, hr]

/-- The delegate has changed in the marks that it bears. -/
theorem modifyBinding (h : T.Shows w s) (busy owned : Bool) {f : Binding → Binding}
    (hid : ∀ x, (f x).id = x.id) (hf : ∀ listener, ∃ listener',
      f (T.record s listener) = T.record { s with busy, owned } listener') :
    T.Shows (w.modifyBinding s.number f) { s with busy, owned } := by
  obtain ⟨listener, hx⟩ := h.binding
  obtain ⟨listener', hf⟩ := hf listener
  have hseen : T.Seen (w.modifyBinding s.number f) { s with busy, owned } :=
    { h.toSeen with }
  refine ⟨hseen, listener', ?_⟩
  rw [w.binding?_modifyBinding s.number s.number hid, if_pos rfl, hx, Option.map_some, hf]

theorem setBusy (h : T.Shows w s) (busy : Bool) :
    T.Shows (w.setBusy s.number busy) (s.working busy) :=
  h.modifyBinding busy s.owned (fun _ => rfl) fun listener => ⟨listener, rfl⟩

/-- A part other than the one that hears of the source. -/
theorem listen (h : T.Shows w s) (r : Role) {p : Part} (hnew : ∀ r', p ∉ s.parts r')
    (hp : p ≠ .source) (hside : p = .normaliser → r = T.side) :
    T.Shows (w.observe (T.place r).1 (T.place r).2 (T.callback s p)).2
      (s.listen r p (w.nextObserver (T.place r).1)) := by
  obtain ⟨listener, hx⟩ := h.binding
  have hsources : T.sources (s.listen r p (w.nextObserver (T.place r).1)) = T.sources s := by
    simp only [sources, State.mem_parts_listen, State.ids_listen_of_ne _ _ hp.symm]
    simp [hp.symm]
  refine ⟨h.toSeen.listen r hnew (fun heq => (hp heq).elim) hside, listener, ?_⟩
  simp only [record, hsources]
  exact hx

/-- After an evaluation the delegate observes its source anew. -/
theorem resubscribe (h : T.Shows w s) :
    Yields (resubscribe s.number [T.source]) w fun _ w' => ∃ id, T.Shows w' (s.relisten id) := by
  obtain ⟨listener, hx⟩ := h.binding
  have hdropped := h.toSeen.drop
  have hnew : ∀ r, .source ∉ s.drop.parts r := by
    intro r
    cases r with
    | source => simp [State.drop]
    | target => simpa [State.drop] using h.source
  have hseen := hdropped.listen .source hnew (fun _ => rfl) nofun
  -- the new observer comes before the old one goes, but it might as well come after
  let fresh : Binding → Binding := fun x =>
    { x with sources := [⟨T.source.1, w.nextObserver T.source.1⟩] }
  have hworld : (T.sources s).foldl World.unobserve
      ((w.observe T.source.1 T.source.2 (.source s.number)).2.modifyBinding s.number fresh) =
        (((T.sources s).foldl World.unobserve w).observe T.source.1 T.source.2
          (.source s.number)).2.modifyBinding s.number fresh ∧
      ((T.sources s).foldl World.unobserve w).nextObserver T.source.1 =
        w.nextObserver T.source.1 ∧
      ((T.sources s).foldl World.unobserve w).binding? s.number = w.binding? s.number := by
    by_cases hheard : .source ∈ s.parts .source
    · have hlt := h.lt .source .source hheard
      have hne : s.ids .source ≠ w.nextObserver T.source.1 := Nat.ne_of_lt hlt
      have hswap := w.observe_unobserve T.source.2 (.source s.number) hne
      rw [T.sources_of_heard hheard]
      exact ⟨congrArg (·.modifyBinding s.number fresh) hswap, w.nextObserver_unobserve _ _, rfl⟩
    · rw [T.sources_of_unheard hheard]
      exact ⟨rfl, rfl, rfl⟩
  obtain ⟨hworld, hnext, hbinding⟩ := hworld
  refine ⟨⟨⟩, _, rfl, w.nextObserver T.source.1, ?_⟩
  change T.Shows ((((w.observe T.source.1 T.source.2 (.source s.number)).2.binding? s.number).elim []
    (·.sources)).foldl World.unobserve
      ((w.observe T.source.1 T.source.2 (.source s.number)).2.modifyBinding s.number fresh)) _
  have hstale : ((w.observe T.source.1 T.source.2 (.source s.number)).2.binding? s.number).elim []
      (·.sources) = T.sources s := by
    change ((w.binding? s.number).elim [] (·.sources)) = _
    rw [hx]
    rfl
  rw [hstale, hworld]
  rw [show T.place .source = T.source from rfl, hnext] at hseen
  refine ⟨{ hseen with }, listener, ?_⟩
  have hset := World.binding?_modifyBinding
    (((T.sources s).foldl World.unobserve w).observe T.source.1 T.source.2 (.source s.number)).2
    s.number s.number (f := fresh) fun _ => rfl
  rw [if_pos rfl] at hset
  refine hset.trans ?_
  change (((T.sources s).foldl World.unobserve w).binding? s.number).map fresh = _
  rw [hbinding, hx]
  simp [record, sources, State.relisten, State.listen, State.drop, fresh]

end Shows

end Tandem

end LiveUI
