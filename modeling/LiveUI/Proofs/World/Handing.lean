import LiveUI.Proofs.World.Normalising

/-! # Handing values on

A delegate at rest hears of a change of either end and hands the new value to the other. Where the
normaliser has nothing to do both ends hold equal values then. Where it has, the order of the two
decides what is handed on, and in which order. -/

namespace LiveUI

open World Step

namespace Tandem

variable {T : Tandem} {w : World} {s : State}

/-- The delegate's own observer of an end. -/
def own : Role → Part
  | .source => .source
  | .target => .target

namespace State

/-- The delegate observes both ends and the normaliser one, `first` before the delegate. -/
structure Shaped (T : Tandem) (first : Bool) (s : State) : Prop where
  other : s.parts T.side.other = [own T.side.other]
  side : s.parts T.side = if first then [.normaliser, own T.side] else [own T.side, .normaliser]

/-- The delegate is at rest, and no change of either end is being announced. -/
structure Rested (T : Tandem) (first : Bool) (s : State) : Prop where
  idle : s.busy = false
  owned : s.owned = true
  quiet : ∀ r, s.flights r = 0
  shaped : s.Shaped T first

theorem Shaped.sided {first : Bool} (h : s.Shaped T first) {r : Role}
    (hmem : .normaliser ∈ s.parts r) : r = T.side := by
  by_contra hne
  have hother : r = T.side.other := by
    revert hne
    cases r <;> cases T.side <;> simp [Role.other]
  rw [hother, h.other] at hmem
  cases hside : T.side <;> simp [hside, own, Role.other] at hmem

/-- Both ends hold equal values. -/
def InStep (s : State) : Prop :=
  ∃ u v, s.values .target = some u ∧ s.values .source = some v ∧ u.Same v

theorem inStep_of {r : Role} {u v : Value} (hu : s.values r = some u)
    (hv : s.values r.other = some v) (hsame : u.Same v) : s.InStep := by
  cases r with
  | target => exact ⟨u, v, hu, hv, hsame⟩
  | source => exact ⟨v, u, hv, hu, hsame.symm⟩

theorem values_set (r : Role) (v : Value) : (s.set T r v).values r = some (s.outcome T r v) := by
  simp [set, put]

theorem values_set_of_ne {r r' : Role} (hr : r' ≠ r) (v : Value) :
    (s.set T r v).values r' = s.values r' := by
  simp [set, put, hr]

/-- A value that one end holds is handed to the other. -/
theorem inStep_pass {r : Role} {v : Value} (hfair : T.Fair v) (hvalue : s.values r.other = some v)
    (hside : ∀ r', .normaliser ∈ s.parts r' → r' = T.side) : (s.pass T r v).InStep := by
  have hkept : (s.set T r v).values r.other = some v := by
    rw [values_set_of_ne r.other_ne]
    exact hvalue
  unfold pass
  split
  next heq =>
    rw [stored_set] at heq
    exact inStep_of (values_set r v) hkept (.inl heq)
  next hne =>
    rw [stored_set] at hne ⊢
    obtain ⟨hmem, hnot, heq⟩ := outcome_of_not hfair (by simpa using hne)
    have hother : .normaliser ∉ (s.set T r v).parts r.other := by
      intro hboth
      exact r.other_ne ((hside _ hboth).trans (hside _ hmem).symm)
    have hback : (s.set T r v).outcome T r.other (T.normal v) = T.normal v := by
      have hdiffers : (v == T.normal v) = false := hnot
      simp [outcome, hkept, hdiffers, landing, hother]
    rw [heq]
    refine inStep_of (r := r) (u := T.normal v) (v := T.normal v) ?_ ?_ (.inl hfair.2)
    · rw [values_set_of_ne r.other_ne.symm, values_set, heq]
    · rw [values_set, hback]

end State

namespace State

/-- The normaliser has nothing to do where the end `r` gets the value `v`. -/
def Calm (T : Tandem) (r : Role) (v : Value) (s : State) : Prop :=
  s.parts r = [own r] ∨ (T.isNormal v = true ∧
    (s.parts r = [own r, .normaliser] ∨ s.parts r = [.normaliser, own r]))

/-- What comes of a value at an end: the delegate has handed it to the other. -/
def Handed (T : Tandem) (s : State) (v : Value) : Role → State → Prop
  | .target, t => t = s.pass T .source v
  | .source, t => ∃ id, t = (s.relisten id).pass T .target v

namespace Handed

variable {v : Value} {r : Role} {t : State}

theorem number (h : s.Handed T v r t) : t.number = s.number := by
  cases r with
  | target => rw [h, number_pass]
  | source =>
      obtain ⟨id, rfl⟩ := h
      exact number_pass

theorem idle (h : s.Handed T v r t) : t.busy = s.busy := by
  cases r with
  | target => rw [h, busy_pass]
  | source =>
      obtain ⟨id, rfl⟩ := h
      exact busy_pass

theorem owned (h : s.Handed T v r t) : t.owned = s.owned := by
  cases r with
  | target => rw [h, owned_pass]
  | source =>
      obtain ⟨id, rfl⟩ := h
      exact owned_pass

theorem flights (h : s.Handed T v r t) : t.flights = s.flights := by
  cases r with
  | target => rw [h, flights_pass]
  | source =>
      obtain ⟨id, rfl⟩ := h
      exact flights_pass

theorem parts_other (h : s.Handed T v r t) : t.parts r.other = s.parts r.other := by
  cases r with
  | target => rw [h, parts_pass]
  | source =>
      obtain ⟨id, rfl⟩ := h
      rw [parts_pass]
      simp [relisten, listen, drop, Role.other]

theorem parts_target (h : s.Handed T v .target t) : t.parts .target = s.parts .target := by
  rw [h, parts_pass]

theorem parts_source (h : s.Handed T v .source t) :
    t.parts .source = (s.parts .source).filter (· ≠ .source) ++ [.source] := by
  obtain ⟨id, rfl⟩ := h
  rw [parts_pass]
  simp [relisten, listen, drop]

/-- The observers other than that of the source have kept their numbers. -/
theorem observer (h : s.Handed T v r t) {p : Part} (hp : r = .source → p ≠ .source) (r' : Role) :
    T.observer t r' p = T.observer s r' p := by
  have hids : t.ids p = s.ids p := by
    cases r with
    | target => rw [h, ids_pass]
    | source =>
        obtain ⟨id, rfl⟩ := h
        rw [ids_pass]
        simp [relisten, listen, drop, hp rfl]
  have hcallback : T.callback t p = T.callback s p := by
    cases p <;> simp [callback, h.number]
  simp only [Tandem.observer, hids, hcallback]

/-- The old observer of the source is gone. -/
theorem gone (h : s.Handed T v .source t) (hmem : .source ∈ s.parts .source) :
    s.ids .source ∈ t.gone := by
  obtain ⟨id, rfl⟩ := h
  rw [gone_pass]
  simp [relisten, listen, drop, hmem]

theorem of_enter {r' : Role} (h : (s.enter r').Handed T v r t) :
    ∃ t', t = t'.enter r' ∧ s.Handed T v r t' := by
  cases r with
  | target => exact ⟨_, h.trans (pass_enter r'), rfl⟩
  | source =>
      obtain ⟨id, rfl⟩ := h
      exact ⟨_, pass_enter (s := s.relisten id) r', id, rfl⟩

/-- Both ends hold equal values afterwards. -/
theorem inStep (h : s.Handed T v r t) (hfair : T.Fair v) (hvalue : s.values r = some v)
    (hside : ∀ r', .normaliser ∈ s.parts r' → r' = T.side) : t.InStep := by
  cases r with
  | target =>
      rw [h]
      exact inStep_pass hfair hvalue hside
  | source =>
      obtain ⟨id, rfl⟩ := h
      refine inStep_pass hfair hvalue fun r' hmem => hside r' ?_
      cases r' with
      | target => simpa [relisten, listen, drop] using hmem
      | source => simpa [relisten, listen, drop] using hmem

/-- Where the other end is not normalised, it takes the value and nothing comes back. -/
theorem values (h : s.Handed T v r t) (hfair : T.Fair v) (hother : .normaliser ∉ s.parts r.other) :
    t.values r = s.values r ∧ ∃ u, t.values r.other = some u ∧ (u == v) = true := by
  cases r with
  | target =>
      have hset := pass_eq_set (r := .source) hfair fun hmem => (hother hmem).elim
      rw [h, hset]
      exact ⟨values_set_of_ne (by decide) v, _, values_set .source v,
        outcome_beq hfair fun hmem => (hother hmem).elim⟩
  | source =>
      obtain ⟨id, rfl⟩ := h
      have hother' : .normaliser ∉ (s.relisten id).parts .target := by
        intro hmem
        have hkept : .normaliser ∈ s.parts .target := by
          simpa [relisten, listen, drop] using hmem
        exact hother hkept
      rw [pass_eq_set hfair fun hmem => (hother' hmem).elim]
      exact ⟨values_set_of_ne (by decide) v, _, values_set .target v,
        outcome_beq hfair fun hmem => (hother' hmem).elim⟩

end Handed

/-- The delegate is at rest again, with the normaliser before it if it was so before or the source is
normalised. -/
theorem Handed.rested {v : Value} {r : Role} {t : State} {first : Bool} (h : s.Handed T v r t)
    (hs : s.Rested T first) :
    ∃ first', t.Rested T first' ∧ (T.side = .target → first' = first) := by
  have hshaped : ∃ first', t.Shaped T first' ∧ (T.side = .target → first' = first) := by
    have hside := hs.shaped.side
    have hother := hs.shaped.other
    cases r with
    | target =>
        have hparts : t.parts = s.parts := by rw [h, parts_pass]
        refine ⟨first, ⟨?_, ?_⟩, fun _ => rfl⟩
        · rw [hparts, hother]
        · rw [hparts, hside]
    | source =>
        have htarget : t.parts .target = s.parts .target := h.parts_other
        have hsource := h.parts_source
        cases hT : T.side with
        | target =>
            rw [hT] at hside hother
            refine ⟨first, ⟨?_, ?_⟩, fun _ => rfl⟩
            · rw [hT]
              change t.parts .source = [.source]
              have hsingle : s.parts .source = [.source] := hother
              rw [hsource, hsingle]
              rfl
            · rw [hT, htarget, hside]
        | source =>
            rw [hT] at hside hother
            refine ⟨true, ⟨?_, ?_⟩, nofun⟩
            · rw [hT]
              exact htarget.trans hother
            · rw [hT, hsource, hside]
              cases first <;> rfl
  obtain ⟨first', hshaped, hfirst⟩ := hshaped
  exact ⟨first', ⟨h.idle.trans hs.idle, h.owned.trans hs.owned, fun r' => by
    rw [h.flights]; exact hs.quiet r', hshaped⟩, hfirst⟩

/-- The normaliser has nothing to do at an end that it does not observe, or with a normal form. -/
theorem Shaped.calm {first : Bool} (h : s.Shaped T first) {r : Role} {v : Value}
    (hnot : ¬(T.side = r ∧ T.isNormal v = false)) : s.Calm T r v := by
  by_cases hside : T.side = r
  · subst hside
    have hnormal : T.isNormal v = true := by simpa using hnot
    cases first with
    | true => exact .inr ⟨hnormal, .inr h.side⟩
    | false => exact .inr ⟨hnormal, .inl h.side⟩
  · have hother : T.side.other = r := by
      revert hside
      cases r <;> cases T.side <;> simp [Role.other]
    exact .inl (hother ▸ h.other)

theorem Rested.put {first : Bool} (h : s.Rested T first) (r : Role) (v : Value) :
    (s.put r v).Rested T first :=
  ⟨h.idle, h.owned, h.quiet, h.shaped.other, h.shaped.side⟩

theorem Calm.own_mem {r : Role} {v : Value} (h : s.Calm T r v) : own r ∈ s.parts r := by
  rcases h with hparts | ⟨-, hparts | hparts⟩ <;> simp [hparts]

end State

namespace Shows

/-- The delegate hears of a change of an end. -/
theorem react_own (h : T.Shows w s) (r : Role) (hidle : s.busy = false) (howned : s.owned = true)
    (hquiet : s.flights r.other = 0) {c : Change} (hobject : c.object = (T.place r).1)
    (hvalue : r = .source → s.values .source = some c.new) (hfair : T.Fair c.new) {n : Nat}
    (hn : 0 < n) (hdeep : .normaliser ∈ s.parts r.other → 1 < n) :
    Yields (react (announce n) (T.callback s (own r)) c) w fun _ w' =>
      ∃ t, s.Handed T c.new r t ∧ T.Shows w' t := by
  cases r with
  | target =>
      exact (h.react_target hidle howned hquiet hobject hfair hn hdeep).imp
        fun _ w' h' => ⟨_, rfl, h'⟩
  | source =>
      refine (h.react_source hidle howned hquiet (hvalue rfl) hfair c hn hdeep).imp ?_
      rintro _ w' ⟨id, h'⟩
      exact ⟨_, ⟨id, rfl⟩, h'⟩

/-- The end `r` has changed, and the normaliser has nothing to do. -/
theorem announce_calm (h : T.Shows w s) {r : Role} (hidle : s.busy = false)
    (howned : s.owned = true) (hquiet : s.flights r.other = 0) {c : Change}
    (hobject : c.object = (T.place r).1) (hattr : c.attr = (T.place r).2)
    (hvalue : s.values r = some c.new) (hfair : T.Fair c.new) (hcalm : s.Calm T r c.new) {n : Nat}
    (hn : 0 < n) (hdeep : .normaliser ∈ s.parts r.other → 1 < n) :
    Yields (announce (n + 1) c) w fun _ w' => ∃ t, s.Handed T c.new r t ∧ T.Shows w' t := by
  have hanswer {w₁ : World} (h₁ : T.Shows w₁ (s.enter r)) :
      Yields (react (announce n) (T.callback s (own r)) c) w₁ fun _ w' =>
        ∃ t, s.Handed T c.new r t ∧ T.Shows w' (t.enter r) := by
    have hquiet' : (s.enter r).flights r.other = 0 := by simpa [State.enter, r.other_ne] using hquiet
    have hvalue' : r = .source → (s.enter r).values .source = some c.new := fun hr => hr ▸ hvalue
    refine (h₁.react_own r hidle howned hquiet' hobject hvalue' hfair hn hdeep).imp ?_
    rintro ⟨⟩ w' ⟨t', hentered, h'⟩
    obtain ⟨t, rfl, hhanded⟩ := hentered.of_enter
    exact ⟨t, hhanded, h'⟩
  have hskip {w₁ : World} {t : State} (h₁ : T.Shows w₁ t) (hnormal : T.isNormal c.new = true) :
      Yields (react (announce n) (T.callback t .normaliser) c) w₁ fun _ w' => T.Shows w' t :=
    h₁.react_idle (.inr ⟨rfl, hnormal⟩)
  have hown : own r ∈ (s.enter r).parts r := hcalm.own_mem
  refine h.announce_yields hobject hattr (fun hnone => ?_) fun w₁ h₁ => ?_
  · have hmem := hcalm.own_mem
    rw [hnone] at hmem
    contradiction
  · rcases hcalm with hparts | ⟨hnormal, hparts | hparts⟩
    · rw [hparts]
      refine h₁.deliver_cons hown hobject fun w₂ h₂ => (hanswer h₂).imp ?_
      rintro ⟨⟩ w₃ ⟨t, hhanded, h₃⟩
      exact (h₃.deliver_nil c).imp fun _ w' h' => ⟨t, hhanded, h'⟩
    · rw [hparts]
      refine h₁.deliver_cons hown hobject fun w₂ h₂ => (hanswer h₂).imp ?_
      rintro ⟨⟩ w₃ ⟨t, hhanded, h₃⟩
      have hmem : .normaliser ∈ (t.enter r).parts r := by
        change .normaliser ∈ t.parts r
        cases r with
        | target => simp [hhanded.parts_target, hparts]
        | source => simp [hhanded.parts_source, hparts]
      have hobserver : T.observer (t.enter r) r .normaliser = T.observer s r .normaliser :=
        hhanded.observer (fun _ => by decide) r
      rw [List.map_singleton, ← hobserver]
      refine h₃.deliver_cons hmem hobject fun w₄ h₄ => (hskip h₄ hnormal).imp fun _ w₅ h₅ => ?_
      exact (h₅.deliver_nil c).imp fun _ w' h' => ⟨t, hhanded, h'⟩
    · rw [hparts]
      have hmem : .normaliser ∈ (s.enter r).parts r := by
        change .normaliser ∈ s.parts r
        simp [hparts]
      refine h₁.deliver_cons hmem hobject fun w₂ h₂ => (hskip h₂ hnormal).imp fun _ w₃ h₃ => ?_
      refine h₃.deliver_cons hown hobject fun w₄ h₄ => (hanswer h₄).imp ?_
      rintro ⟨⟩ w₅ ⟨t, hhanded, h₅⟩
      exact (h₅.deliver_nil c).imp fun _ w' h' => ⟨t, hhanded, h'⟩

/-- The end `r` is set to a value that the normaliser leaves alone. -/
theorem set_calm (h : T.Shows w s) {r : Role} (hidle : s.busy = false) (howned : s.owned = true)
    (hquiet : s.flights r.other = 0) {v : Value} (hfair : T.Fair v) (hcalm : s.Calm T r v) {n : Nat}
    (hn : 0 < n) (hdeep : .normaliser ∈ s.parts r.other → 1 < n) :
    Yields (setAttr (announce (n + 1)) (T.place r).1 (T.place r).2 v) w fun _ w' =>
      ∃ t, ((t = s ∧ ∃ u, s.values r = some u ∧ (u == v) = true) ∨
        (s.put r v).Handed T v r t) ∧ T.Shows w' t := by
  refine h.setAttr_yields r v (fun u hu heq => .inl ⟨rfl, u, hu, heq⟩) fun _ old => ?_
  have hvalue : (s.put r v).values r = some v := by simp [State.put]
  have hannounced := (h.write r v).announce_calm (c := ⟨(T.place r).1, (T.place r).2, old, v⟩) hidle
    howned hquiet rfl rfl hvalue hfair hcalm hn hdeep
  refine hannounced.imp ?_
  rintro ⟨⟩ w' ⟨t, hhanded, h'⟩
  exact ⟨t, .inr hhanded, h'⟩

/-! ## Values that the normaliser replaces -/

/-- A normaliser that comes last replaces the value that the delegate has handed on before, and the
delegate hands the normal form on in turn. -/
theorem announce_late (h : T.Shows w s) {r : Role} (hidle : s.busy = false)
    (howned : s.owned = true) (hquiet : s.flights r.other = 0) {c : Change}
    (hobject : c.object = (T.place r).1) (hattr : c.attr = (T.place r).2)
    (hvalue : s.values r = some c.new) (hfair : T.Fair c.new)
    (hparts : s.parts r = [own r, .normaliser]) (hother : .normaliser ∉ s.parts r.other)
    (hnot : T.isNormal c.new = false) {n : Nat} (hn : 1 < n) :
    Yields (announce (n + 1) c) w fun _ w' => ∃ t, (∃ t₁, s.Handed T c.new r t₁ ∧
      (t₁.put r (T.normal c.new)).Handed T (T.normal c.new) r t) ∧ T.Shows w' t := by
  obtain ⟨n, rfl⟩ : ∃ m, n = m + 1 := ⟨n - 1, by omega⟩
  refine h.announce_yields hobject hattr (fun hnone => ?_) fun w₁ h₁ => ?_
  · simp [hparts] at hnone
  · rw [hparts]
    have hown : own r ∈ (s.enter r).parts r := by
      change own r ∈ s.parts r
      simp [hparts]
    have hquiet' : (s.enter r).flights r.other = 0 := by simpa [State.enter, r.other_ne] using hquiet
    refine h₁.deliver_cons hown hobject fun w₂ h₂ => ?_
    refine (h₂.react_own r hidle howned hquiet' hobject (fun hr => hr ▸ hvalue) hfair
      (Nat.succ_pos n) fun hmem => (hother hmem).elim).imp ?_
    rintro ⟨⟩ w₃ ⟨t', hentered, h₃⟩
    obtain ⟨t₁, rfl, hhanded⟩ := hentered.of_enter
    -- On its source the delegate subscribes anew, which brings it behind the normaliser.
    have hparts₁ : t₁.parts r = [own r, .normaliser] ∨ t₁.parts r = [.normaliser, own r] := by
      cases r with
      | target => exact .inl (hhanded.parts_target.trans hparts)
      | source =>
          rw [hhanded.parts_source, hparts]
          exact .inr rfl
    have hmem : .normaliser ∈ (t₁.enter r).parts r := by
      change .normaliser ∈ t₁.parts r
      rcases hparts₁ with hparts₁ | hparts₁ <;> simp [hparts₁]
    have hobserver : T.observer (t₁.enter r) r .normaliser = T.observer s r .normaliser :=
      hhanded.observer (fun _ => by decide) r
    rw [List.map_singleton, ← hobserver]
    refine h₃.deliver_cons hmem hobject fun w₄ h₄ => ?_
    have hcalm : (t₁.enter r).Calm T r (T.normal c.new) := .inr ⟨hfair.isNormal_normal, hparts₁⟩
    have hquiet₁ : (t₁.enter r).flights r.other = 0 := by
      simpa [State.enter, r.other_ne, hhanded.flights] using hquiet
    have hset := h₄.set_calm (hhanded.idle.trans hidle) (hhanded.owned.trans howned) hquiet₁
      hfair.normal hcalm (n := n) (by omega) fun hmem => by
        have hmem' : .normaliser ∈ t₁.parts r.other := hmem
        rw [hhanded.parts_other] at hmem'
        exact (hother hmem').elim
    refine (react_normaliser hobject hattr hnot hset).imp ?_
    rintro ⟨⟩ w₅ ⟨t', hset', h₅⟩
    have hvalue₁ : (t₁.enter r).values r = some c.new :=
      (hhanded.values hfair hother).1.trans hvalue
    rcases hset' with ⟨-, u, hu, heq⟩ | hentered'
    · obtain rfl := Option.some.inj (hvalue₁.symm.trans hu)
      have hdiffers : (c.new == T.normal c.new) = false := hnot
      rw [hdiffers] at heq
      contradiction
    · have hput : (t₁.enter r).put r (T.normal c.new) = (t₁.put r (T.normal c.new)).enter r := rfl
      rw [hput] at hentered'
      obtain ⟨t, rfl, hhanded'⟩ := hentered'.of_enter
      exact (h₅.deliver_nil c).imp fun _ w' h' => ⟨t, ⟨t₁, hhanded, hhanded'⟩, h'⟩

/-- A normaliser that comes first replaces the value before the delegate hears of it. -/
theorem deliver_first (h : T.Shows w s) {r : Role} (hidle : s.busy = false)
    (howned : s.owned = true) (hquiet : s.flights r.other = 0) {c : Change}
    (hobject : c.object = (T.place r).1) (hattr : c.attr = (T.place r).2)
    (hvalue : s.values r = some c.new) (hfair : T.Fair c.new)
    (hparts : s.parts r = [.normaliser, own r]) (hother : .normaliser ∉ s.parts r.other)
    (hnot : T.isNormal c.new = false) {n : Nat} (hn : 1 < n) :
    Yields (react (announce n) (T.callback s .normaliser) c) w fun _ w' =>
      ∃ t, (s.put r (T.normal c.new)).Handed T (T.normal c.new) r t ∧ T.Shows w' t := by
  obtain ⟨n, rfl⟩ : ∃ m, n = m + 1 := ⟨n - 1, by omega⟩
  have hcalm : s.Calm T r (T.normal c.new) := .inr ⟨hfair.isNormal_normal, .inr hparts⟩
  have hset := h.set_calm hidle howned hquiet hfair.normal hcalm (n := n) (by omega)
    fun hmem => (hother hmem).elim
  refine (react_normaliser hobject hattr hnot hset).imp ?_
  rintro ⟨⟩ w₁ ⟨t, ⟨-, u, hu, heq⟩ | hhanded, h₁⟩
  · obtain rfl := Option.some.inj (hvalue.symm.trans hu)
    have hdiffers : (c.new == T.normal c.new) = false := hnot
    rw [hdiffers] at heq
    contradiction
  · exact ⟨t, hhanded, h₁⟩

/-- The source has changed. The delegate follows the normal form alone: its observer in the snapshot
has been replaced by then. -/
theorem announce_first_source (h : T.Shows w s) (hidle : s.busy = false) (howned : s.owned = true)
    (hquiet : s.flights .target = 0) {c : Change} (hobject : c.object = (T.place .source).1)
    (hattr : c.attr = (T.place .source).2) (hvalue : s.values .source = some c.new)
    (hfair : T.Fair c.new) (hparts : s.parts .source = [.normaliser, .source])
    (hother : .normaliser ∉ s.parts .target) (hnot : T.isNormal c.new = false) {n : Nat}
    (hn : 1 < n) :
    Yields (announce (n + 1) c) w fun _ w' => ∃ t,
      (s.put .source (T.normal c.new)).Handed T (T.normal c.new) .source t ∧ T.Shows w' t := by
  refine h.announce_yields hobject hattr (fun hnone => ?_) fun w₁ h₁ => ?_
  · simp [hparts] at hnone
  · rw [hparts]
    have hmem : .normaliser ∈ (s.enter .source).parts .source := by
      change .normaliser ∈ s.parts .source
      simp [hparts]
    refine h₁.deliver_cons hmem hobject fun w₂ h₂ => ?_
    have hquiet' : (s.enter .source).flights Role.source.other = 0 := by
      simpa [State.enter, Role.other] using hquiet
    refine (h₂.deliver_first hidle howned hquiet' hobject hattr hvalue hfair hparts hother hnot
      hn).imp ?_
    rintro ⟨⟩ w₃ ⟨t', hentered, h₃⟩
    have hgone : s.ids .source ∈ t'.gone := hentered.gone (by simp [State.put, State.enter, hparts])
    have hput : (s.enter .source).put .source (T.normal c.new) =
        (s.put .source (T.normal c.new)).enter .source := rfl
    rw [hput] at hentered
    obtain ⟨t, rfl, hhanded⟩ := hentered.of_enter
    have hunregistered : w₃.isRegistered ⟨c.object, (T.observer s .source .source).id⟩ = false := by
      rw [hobject]
      refine Bool.eq_false_iff.mpr fun hregistered => ?_
      obtain ⟨obs, hobs, hid⟩ := (w₃.isRegistered_iff _).mp hregistered
      exact (h₃.gone _ hgone).2 obs hobs hid
    refine Yields.get_bind ?_
    rw [if_neg (by simp [hunregistered])]
    exact (h₃.deliver_nil c).imp fun _ w' h' => ⟨t, hhanded, h'⟩

/-- The target has changed. The delegate hands on the normal form, and the value that was set
behind it. -/
theorem announce_first_target (h : T.Shows w s) (hidle : s.busy = false) (howned : s.owned = true)
    (hquiet : s.flights .source = 0) {c : Change} (hobject : c.object = (T.place .target).1)
    (hattr : c.attr = (T.place .target).2) (hvalue : s.values .target = some c.new)
    (hfair : T.Fair c.new) (hparts : s.parts .target = [.normaliser, .target])
    (hother : .normaliser ∉ s.parts .source) (hnot : T.isNormal c.new = false) {n : Nat}
    (hn : 1 < n) :
    Yields (announce (n + 1) c) w fun _ w' => ∃ t, (∃ t₁,
      (s.put .target (T.normal c.new)).Handed T (T.normal c.new) .target t₁ ∧
        t₁.Handed T c.new .target t) ∧ T.Shows w' t := by
  refine h.announce_yields hobject hattr (fun hnone => ?_) fun w₁ h₁ => ?_
  · simp [hparts] at hnone
  · rw [hparts]
    have hmem : .normaliser ∈ (s.enter .target).parts .target := by
      change .normaliser ∈ s.parts .target
      simp [hparts]
    refine h₁.deliver_cons hmem hobject fun w₂ h₂ => ?_
    have hquiet' : (s.enter .target).flights Role.target.other = 0 := by
      simpa [State.enter, Role.other] using hquiet
    refine (h₂.deliver_first hidle howned hquiet' hobject hattr hvalue hfair hparts hother hnot
      hn).imp ?_
    rintro ⟨⟩ w₃ ⟨t', hentered, h₃⟩
    have hput : (s.enter .target).put .target (T.normal c.new) =
        (s.put .target (T.normal c.new)).enter .target := rfl
    rw [hput] at hentered
    obtain ⟨t₁, rfl, hhanded⟩ := hentered.of_enter
    have hown : .target ∈ (t₁.enter .target).parts .target := by
      change .target ∈ t₁.parts .target
      rw [hhanded.parts_target]
      simp [State.put, hparts]
    have hobserver : T.observer (t₁.enter .target) .target .target = T.observer s .target .target :=
      hhanded.observer (fun _ => by decide) .target
    rw [List.map_singleton, ← hobserver]
    refine h₃.deliver_cons hown hobject fun w₄ h₄ => ?_
    have hquiet₁ : (t₁.enter .target).flights Role.target.other = 0 := by
      have hflights : t₁.flights = s.flights := hhanded.flights
      simpa [State.enter, Role.other, hflights] using hquiet
    have hother₁ : .normaliser ∉ (t₁.enter .target).parts Role.target.other := by
      change .normaliser ∉ t₁.parts Role.target.other
      rw [hhanded.parts_other]
      exact hother
    refine (h₄.react_own .target (hhanded.idle.trans hidle) (hhanded.owned.trans howned) hquiet₁
      hobject (fun hsource => Role.noConfusion hsource) hfair (by omega)
      fun hmem => (hother₁ hmem).elim).imp ?_
    rintro ⟨⟩ w₅ ⟨t'', hentered', h₅⟩
    obtain ⟨t, rfl, hhanded'⟩ := hentered'.of_enter
    exact (h₅.deliver_nil c).imp fun _ w' h' => ⟨t, ⟨t₁, hhanded, hhanded'⟩, h'⟩

end Shows

/-! ## One write after another -/

/-- A value that is not in normal form is set at a target that is normalised before the delegate
hears of it. -/
def Blind (T : Tandem) (early : Bool) (r : Role) (v : Value) : Prop :=
  T.side = .target ∧ early = true ∧ r = .target ∧ T.isNormal v = false

/-- What has come of setting the end `r` to `v` when the delegate is at rest again. -/
structure State.After (T : Tandem) (first : Bool) (r : Role) (v : Value) (s t : State) : Prop where
  rested : ∃ first', t.Rested T first' ∧ (T.side = .target → first' = first)
  inStep : s.InStep → ¬T.Blind first r v → t.InStep
  blind : T.Blind first r v → (∀ u, s.values .target = some u → (u == v) = false) →
    t.values .target = some (T.normal v) ∧ ∃ u, t.values .source = some u ∧ (u == v) = true

/-- Nothing is announced where the end holds an equal value already. -/
theorem State.After.same {first : Bool} {r : Role} {u v : Value} (hs : s.Rested T first)
    (hu : s.values r = some u) (heq : (u == v) = true) : s.After T first r v s where
  rested := ⟨first, hs, fun _ => rfl⟩
  inStep hstep _ := hstep
  blind := by
    rintro ⟨-, -, rfl, -⟩ hdiffers
    rw [hdiffers u hu] at heq
    contradiction

/-- The delegate has handed on `u` last, which the end `r` held then. -/
theorem State.After.of_handed {first : Bool} {r : Role} {u v : Value} {t₁ t : State}
    (ht₁ : ∃ first', t₁.Rested T first' ∧ (T.side = .target → first' = first))
    (hhanded : t₁.Handed T u r t) (hfair : T.Fair u) (hvalue : t₁.values r = some u)
    (hseeing : ¬T.Blind first r v) : s.After T first r v t where
  rested := by
    obtain ⟨first₁, hrested₁, hfirst₁⟩ := ht₁
    obtain ⟨first', hrested, hfirst⟩ := hhanded.rested hrested₁
    exact ⟨first', hrested, fun hside => (hfirst hside).trans (hfirst₁ hside)⟩
  inStep _ _ := by
    obtain ⟨first₁, hrested₁, -⟩ := ht₁
    exact hhanded.inStep hfair hvalue fun r' hmem => hrested₁.shaped.sided hmem
  blind hblind := (hseeing hblind).elim

/-- The end `r` is set while the delegate is at rest. -/
theorem Shows.set_rested (h : T.Shows w s) {first : Bool} (hs : s.Rested T first) (r : Role)
    {v : Value} (hfair : T.Fair v) {n : Nat} (hn : 2 < n) :
    Yields (setAttr (announce n) (T.place r).1 (T.place r).2 v) w fun _ w' =>
      ∃ t, s.After T first r v t ∧ T.Shows w' t := by
  obtain ⟨n, rfl⟩ : ∃ m, n = m + 1 := ⟨n - 1, by omega⟩
  have hn' : 1 < n := by omega
  have hquiet := hs.quiet r.other
  have hput := hs.put r v
  have hvalue : (s.put r v).values r = some v := by simp [State.put]
  have hnormal (t : State) : (t.put r (T.normal v)).values r = some (T.normal v) := by
    simp [State.put]
  refine h.setAttr_yields r v (fun u hu heq => .same hs hu heq) fun hdiffers old => ?_
  have hwritten := h.write r v
  -- A normaliser replaces a value on its own side only. If it comes before the delegate, the normal
  -- form is handed on first, and else the value is.
  by_cases hreplaced : T.side = r ∧ T.isNormal v = false
  · obtain ⟨hside, hnot⟩ := hreplaced
    have hother : .normaliser ∉ s.parts r.other := fun hmem =>
      r.other_ne ((hs.shaped.sided hmem).trans hside)
    have hparts := hs.shaped.side
    rw [hside] at hparts
    cases first with
    | false =>
        refine (hwritten.announce_late (c := ⟨(T.place r).1, (T.place r).2, old, v⟩) hs.idle
          hs.owned hquiet rfl rfl hvalue hfair hparts hother hnot hn').imp ?_
        rintro ⟨⟩ w' ⟨t, ⟨t₁, hhanded₁, hhanded⟩, h'⟩
        obtain ⟨first₁, hrested₁, hfirst₁⟩ := hhanded₁.rested hput
        refine ⟨t, .of_handed ⟨first₁, hrested₁.put r (T.normal v), hfirst₁⟩ hhanded hfair.normal
          (hnormal t₁) ?_, h'⟩
        exact fun hblind => absurd hblind.2.1 (by decide)
    | true =>
        cases r with
        | source =>
            refine (hwritten.announce_first_source (c := ⟨T.source.1, T.source.2, old, v⟩) hs.idle
              hs.owned hquiet rfl rfl hvalue hfair hparts hother hnot hn').imp ?_
            rintro ⟨⟩ w' ⟨t, hhanded, h'⟩
            refine ⟨t, .of_handed ⟨true, hput.put .source (T.normal v), fun _ => rfl⟩ hhanded
              hfair.normal (hnormal _) ?_, h'⟩
            exact fun hblind => absurd hblind.2.2.1 (by decide)
        | target =>
            refine (hwritten.announce_first_target
              (c := ⟨(T.place .target).1, (T.place .target).2, old, v⟩) hs.idle hs.owned hquiet rfl
              rfl hvalue hfair hparts hother hnot hn').imp ?_
            rintro ⟨⟩ w' ⟨t, ⟨t₁, hhanded₁, hhanded⟩, h'⟩
            obtain ⟨first₁, hrested₁, hfirst₁⟩ := hhanded₁.rested (hput.put .target (T.normal v))
            obtain ⟨first', hrested, hfirst⟩ := hhanded.rested hrested₁
            have hother₁ : .normaliser ∉ t₁.parts Role.target.other := by
              rw [hhanded₁.parts_other]
              exact hother
            obtain ⟨htarget, hsource⟩ := hhanded.values hfair hother₁
            refine ⟨t, ⟨⟨first', hrested, fun hT => (hfirst hT).trans (hfirst₁ hT)⟩,
              fun _ hseeing => (hseeing ⟨hside, rfl, rfl, hnot⟩).elim, fun _ _ => ⟨?_, hsource⟩⟩, h'⟩
            rw [htarget, (hhanded₁.values hfair.normal hother).1]
            exact hnormal _
  · -- the normaliser does nothing, and the delegate hands the value on
    have hcalm : (s.put r v).Calm T r v := hput.shaped.calm hreplaced
    refine (hwritten.announce_calm (c := ⟨(T.place r).1, (T.place r).2, old, v⟩) hs.idle hs.owned
      hquiet rfl rfl hvalue hfair hcalm (by omega) fun _ => hn').imp ?_
    rintro ⟨⟩ w' ⟨t, hhanded, h'⟩
    refine ⟨t, .of_handed ⟨first, hput, fun _ => rfl⟩ hhanded hfair hvalue ?_, h'⟩
    rintro ⟨hside, -, rfl, hnot⟩
    exact hreplaced ⟨hside, hnot⟩

end Tandem

end LiveUI
