import LiveUI.Proofs.World.Tandem
import LiveUI.Proofs.World.Totality

/-! # Writes that are normalised

While the delegate is at work a write reaches nobody but the normaliser, and the end holds the
normal form afterwards. The delegate hands a value to one end and what has become of it back to the
other. It answers a change of its target with the value that it was told of, not with the one that
the target holds by then. -/

namespace LiveUI

/-- Equal one way or the other: nothing is known of how the machine compares doubles. -/
def Value.Same (u v : Value) : Prop :=
  (u == v) = true ∨ (v == u) = true

theorem Value.Same.symm {u v : Value} (h : u.Same v) : v.Same u :=
  Or.symm h

open World Step

namespace Tandem

/-- The value and its normal form equal themselves, as all values but not-a-number do. -/
def Fair (T : Tandem) (v : Value) : Prop :=
  (v == v) = true ∧ (T.normal v == T.normal v) = true

def isNormal (T : Tandem) (v : Value) : Bool :=
  v == T.normal v

theorem Fair.normal {T : Tandem} {v : Value} (h : T.Fair v) : T.Fair (T.normal v) := by
  refine ⟨h.2, ?_⟩
  rw [T.idempotent]
  exact h.2

theorem Fair.isNormal_normal {T : Tandem} {v : Value} (h : T.Fair v) :
    T.isNormal (T.normal v) = true := by
  rw [isNormal, T.idempotent]
  exact h.2

namespace State

variable (T : Tandem) (s : State) (r : Role) (v : Value)

/-- What becomes of a value that was written to an end and reached the normaliser alone. -/
def landing : Value :=
  if .normaliser ∈ s.parts r ∧ T.isNormal v = false then T.normal v else v

/-- What the end holds after it was set. -/
def outcome : Value :=
  match s.values r with
  | some u => if u == v then u else s.landing T r v
  | none => s.landing T r v

def set : State :=
  s.put r (s.outcome T r v)

def stored : Value :=
  (s.values r).getD .nil

/-- A value goes to the end `r`, and what has become of it goes back to the other end. -/
def pass : State :=
  if (s.set T r v).stored r == v then s.set T r v
  else (s.set T r v).set T r.other ((s.set T r v).stored r)

variable {T s r v}

theorem stored_set : (s.set T r v).stored r = s.outcome T r v := by
  simp [stored, set, put]

theorem outcome_beq (hfair : T.Fair v) (hnormal : .normaliser ∈ s.parts r → T.isNormal v = true) :
    (s.outcome T r v == v) = true := by
  have hlanding : s.landing T r v = v := by
    unfold landing
    rw [if_neg]
    rintro ⟨hmem, hnot⟩
    rw [hnormal hmem] at hnot
    contradiction
  unfold outcome
  rw [hlanding]
  split
  · split
    next heq => exact heq
    next => exact hfair.1
  · exact hfair.1

/-- What is there is not what was written, so it is the normal form. -/
theorem outcome_of_not (hfair : T.Fair v) (hnot : (s.outcome T r v == v) = false) :
    .normaliser ∈ s.parts r ∧ T.isNormal v = false ∧ s.outcome T r v = T.normal v := by
  have hmem : .normaliser ∈ s.parts r ∧ T.isNormal v = false := by
    by_contra hno
    have hnormal : .normaliser ∈ s.parts r → T.isNormal v = true := by simpa using hno
    rw [outcome_beq hfair hnormal] at hnot
    contradiction
  have hlanding : s.landing T r v = T.normal v := if_pos hmem
  refine ⟨hmem.1, hmem.2, ?_⟩
  unfold outcome at hnot ⊢
  rw [hlanding] at hnot ⊢
  split at hnot
  next u hu =>
    split at hnot
    next heq =>
      rw [heq] at hnot
      contradiction
    next hne => rw [if_neg hne]
  next hu => rfl

theorem pass_eq_set (hfair : T.Fair v) (hnormal : .normaliser ∈ s.parts r → T.isNormal v = true) :
    s.pass T r v = s.set T r v := by
  unfold pass
  rw [stored_set, if_pos (outcome_beq hfair hnormal)]

theorem parts_pass : (s.pass T r v).parts = s.parts := by
  unfold pass
  split <;> rfl

theorem ids_pass : (s.pass T r v).ids = s.ids := by
  unfold pass
  split <;> rfl

theorem gone_pass : (s.pass T r v).gone = s.gone := by
  unfold pass
  split <;> rfl

theorem number_pass : (s.pass T r v).number = s.number := by
  unfold pass
  split <;> rfl

theorem flights_pass : (s.pass T r v).flights = s.flights := by
  unfold pass
  split <;> rfl

theorem owned_pass : (s.pass T r v).owned = s.owned := by
  unfold pass
  split <;> rfl

theorem busy_pass : (s.pass T r v).busy = s.busy := by
  unfold pass
  split <;> rfl

theorem pass_working (busy : Bool) : (s.working busy).pass T r v = (s.pass T r v).working busy := by
  unfold pass
  split <;> (split <;> first | rfl | contradiction)

/-- What happens while the delegate is at work happens to one that is idle again afterwards. -/
theorem pass_at_work (hidle : s.busy = false) :
    ((s.working true).pass T r v).working false = s.pass T r v := by
  have hsame : ((s.pass T r v).working true).working false = s.pass T r v := by
    unfold pass
    split <;> simp [working, set, put, hidle]
  rw [pass_working, hsame]

theorem pass_enter (r' : Role) : (s.enter r').pass T r v = (s.pass T r v).enter r' := by
  unfold pass
  split <;> (split <;> first | rfl | contradiction)

end State

/-! ## Reactions without effect -/

variable {T : Tandem} {w : World} {s : State} {spread : Announce}

/-- The normaliser writes the normal form of what is not in normal form. -/
theorem react_normaliser {r : Role} {c : Change}
    (hobject : c.object = (T.place r).1) (hattr : c.attr = (T.place r).2)
    (hnot : T.isNormal c.new = false) {post : World → Prop}
    (hset : Yields (setAttr spread (T.place r).1 (T.place r).2 (T.normal c.new)) w fun _ w' =>
      post w') : Yields (react spread (T.callback s .normaliser) c) w fun _ w' => post w' := by
  have hroutine : T.routine c = .write c.object c.attr (T.normal c.new) fun _ => .skip := by
    unfold routine
    rw [if_neg]
    simpa [isNormal] using hnot
  change Yields ((T.routine c).run spread >>= fun _ => pure ()) w _
  rw [hroutine, hobject, hattr]
  refine Yields.bind (Yields.bind (hset.imp fun _ w' h' => ?_))
  exact Yields.of_pure (Yields.of_pure h')

namespace Shows

theorem isRegistered (h : T.Shows w s) {r : Role} {p : Part} (hp : p ∈ s.parts r) :
    w.isRegistered ⟨(T.place r).1, s.ids p⟩ = true := by
  have hmem : T.observer s r p ∈ w.observersOf (T.place r).1 (T.place r).2 := by
    rw [h.observers]
    exact List.mem_map_of_mem hp
  exact (w.isRegistered_iff _).mpr ⟨_, (mem_observersOf.mp hmem).1, rfl⟩

/-- A delegate that is at work or belongs to its target is not let go of. -/
theorem release (h : T.Shows w s) (hkept : s.busy = true ∨ s.owned = true) :
    w.release s.number = w := by
  obtain ⟨listener, hx⟩ := h.binding
  refine release_of_inService hx ?_
  rcases hkept with hbusy | howned
  · simp [Binding.inService, record, hbusy]
  · simp [Binding.inService, record, howned]

/-- A delegate at work does not listen, and the normaliser leaves a normal form alone. -/
theorem react_idle (h : T.Shows w s) {p : Part} {c : Change}
    (hp : (s.busy = true ∧ p ≠ .normaliser) ∨ (p = .normaliser ∧ T.isNormal c.new = true)) :
    Yields (react spread (T.callback s p) c) w fun _ w' => T.Shows w' s := by
  obtain ⟨listener, hx⟩ := h.binding
  rcases hp with ⟨hbusy, hp⟩ | ⟨rfl, hnormal⟩
  · have hrecord : (T.record s listener).busy = true := hbusy
    cases p with
    | normaliser => exact (hp rfl).elim
    | source =>
        refine Yields.get_bind ?_
        rw [hx]
        have hskipped : Yields (onSource spread (T.record s listener)) w fun _ w' =>
            T.Shows w' s := by
          refine Yields.get_bind ?_
          split
          · exact Yields.of_pure h
          · exact Yields.of_modify (h.log _)
        refine Yields.bind (hskipped.imp fun _ w₁ h₁ => Yields.of_modify ?_)
        rwa [h₁.release (.inl hbusy)]
    | target =>
        refine Yields.get_bind ?_
        rw [hx]
        have hskipped : Yields (onTarget spread (T.record s listener) c) w fun _ w' =>
            T.Shows w' s :=
          Yields.bind (Yields.of_guarded_busy hx hrecord (Yields.of_pure h))
        refine Yields.bind (hskipped.imp fun _ w₁ h₁ => Yields.of_modify ?_)
        rwa [h₁.release (.inl hbusy)]
  · have hskip : T.routine c = .skip := if_pos hnormal
    change Yields ((T.routine c).run spread >>= fun _ => pure ()) w _
    rw [hskip]
    exact Yields.of_pure h

/-- The first observer of a snapshot is called, as it is registered. -/
theorem deliver_cons (h : T.Shows w s) {r : Role} {p : Part} (hp : p ∈ s.parts r) {c : Change}
    (hobject : c.object = (T.place r).1) {rest : List Observer} {post : Unit → World → Prop}
    (hreact : ∀ w₁, T.Shows w₁ s → Yields (react spread (T.callback s p) c) w₁ fun _ w' =>
      Yields (deliver spread c rest) w' post) :
    Yields (deliver spread c (T.observer s r p :: rest)) w post := by
  have hregistered : w.isRegistered ⟨c.object, (T.observer s r p).id⟩ = true := by
    rw [hobject]
    exact h.isRegistered hp
  refine Yields.get_bind ?_
  rw [if_pos hregistered]
  exact Yields.modify_bind (Yields.bind (hreact _ (h.log _)))

theorem deliver_nil (h : T.Shows w s) (c : Change) :
    Yields (deliver spread c []) w fun _ w' => T.Shows w' s :=
  Yields.of_pure h

end Shows

/-! ## Writes while the delegate is at work -/

namespace Shows

/-- An announcement is a delivery to the observers of the end. -/
theorem announce_yields (h : T.Shows w s) {r : Role} {c : Change} {n : Nat}
    (hobject : c.object = (T.place r).1) (hattr : c.attr = (T.place r).2) {post : State → Prop}
    (hunheard : s.parts r = [] → post s)
    (hdeliver : ∀ w₁, T.Shows w₁ (s.enter r) →
      Yields (deliver (announce n) c ((s.parts r).map (T.observer s r))) w₁ fun _ w' =>
        ∃ t, post t ∧ T.Shows w' (t.enter r)) :
    Yields (announce (n + 1) c) w fun _ w' => ∃ t, post t ∧ T.Shows w' t := by
  refine Yields.get_bind ?_
  rw [hobject, hattr, h.observers]
  cases hparts : s.parts r with
  | nil => exact Yields.of_pure ⟨s, hunheard hparts, h⟩
  | cons p ps =>
      rw [hparts] at hdeliver
      refine Yields.modify_bind (Yields.bind ((hdeliver _ (h.beginFlight hobject hattr)).imp ?_))
      rintro ⟨⟩ w' ⟨t, ht, h'⟩
      exact Yields.of_modify ⟨t, ht, h'.endFlight hobject hattr⟩

/-- An announcement that leads to one state only. -/
theorem announce_to (h : T.Shows w s) {r : Role} {c : Change} {n : Nat}
    (hobject : c.object = (T.place r).1) (hattr : c.attr = (T.place r).2) {s' : State}
    (hunheard : s.parts r = [] → s = s')
    (hdeliver : ∀ w₁, T.Shows w₁ (s.enter r) →
      Yields (deliver (announce n) c ((s.parts r).map (T.observer s r))) w₁ fun _ w' =>
        T.Shows w' (s'.enter r)) :
    Yields (announce (n + 1) c) w fun _ w' => T.Shows w' s' := by
  have hannounced : Yields (announce (n + 1) c) w fun _ w' => ∃ t, t = s' ∧ T.Shows w' t :=
    h.announce_yields hobject hattr hunheard fun w₁ h₁ =>
      (hdeliver w₁ h₁).imp fun _ w' h' => ⟨s', rfl, h'⟩
  refine hannounced.imp ?_
  rintro _ w' ⟨t, rfl, h'⟩
  exact h'

/-- A write changes the end where the value is another one, and it is announced then. -/
theorem setAttr_yields (h : T.Shows w s) (r : Role) (v : Value) {post : State → Prop}
    (hsame : ∀ u, s.values r = some u → (u == v) = true → post s)
    (hannounce : (∀ u, s.values r = some u → (u == v) = false) → ∀ old,
      Yields (spread ⟨(T.place r).1, (T.place r).2, old, v⟩)
        (w.write (T.place r).1 (T.place r).2 v) fun _ w' => ∃ t, post t ∧ T.Shows w' t) :
    Yields (setAttr spread (T.place r).1 (T.place r).2 v) w fun _ w' =>
      ∃ t, post t ∧ T.Shows w' t := by
  refine Yields.get_bind ?_
  rw [h.values]
  cases hvalue : s.values r with
  | none =>
      have hann := hannounce (fun u hu => by simp [hvalue] at hu) .nil
      exact Yields.modify_bind (Yields.bind (hann.imp fun _ w' h' => Yields.of_pure h'))
  | some u =>
      dsimp only
      split
      next heq => exact Yields.of_pure ⟨s, hsame u hvalue heq, h⟩
      next hne =>
        have hann := hannounce (fun u' hu' => by
          obtain rfl := Option.some.inj (hvalue.symm.trans hu')
          simpa using hne) u
        exact Yields.modify_bind (Yields.bind (hann.imp fun _ w' h' => Yields.of_pure h'))

/-- The end holds what it should after a write, if it does so after the announcement. -/
theorem set_yields (h : T.Shows w s) (r : Role) (v : Value)
    (hannounce : ∀ old, Yields (spread ⟨(T.place r).1, (T.place r).2, old, v⟩)
      (w.write (T.place r).1 (T.place r).2 v) fun _ w' => T.Shows w' (s.put r (s.landing T r v))) :
    Yields (setAttr spread (T.place r).1 (T.place r).2 v) w fun _ w' =>
      T.Shows w' (s.set T r v) := by
  have hset : Yields (setAttr spread (T.place r).1 (T.place r).2 v) w fun _ w' =>
      ∃ t, t = s.set T r v ∧ T.Shows w' t := by
    refine h.setAttr_yields r v (fun u hu heq => ?_) fun hne old =>
      (hannounce old).imp fun _ w' h' => ?_
    · have houtcome : s.outcome T r v = u := by simp [State.outcome, hu, heq]
      simp only [State.set, State.put, houtcome, ← hu, Function.update_eq_self]
    · have houtcome : s.outcome T r v = s.landing T r v := by
        unfold State.outcome
        split
        next u hu => rw [if_neg (by simp [hne u hu])]
        next => rfl
      refine ⟨s.set T r v, rfl, ?_⟩
      rwa [State.set, houtcome]
  refine hset.imp ?_
  rintro _ w' ⟨t, rfl, h'⟩
  exact h'

/-- Reaching observers that do nothing. -/
theorem deliver_idle (h : T.Shows w s) {r : Role} {c : Change} (hobject : c.object = (T.place r).1)
    {ps : List Part} (hps : ∀ p ∈ ps, p ∈ s.parts r)
    (hidle : ∀ p ∈ ps, (s.busy = true ∧ p ≠ .normaliser) ∨
      (p = .normaliser ∧ T.isNormal c.new = true)) :
    Yields (deliver spread c (ps.map (T.observer s r))) w fun _ w' => T.Shows w' s := by
  induction ps generalizing w with
  | nil => exact h.deliver_nil c
  | cons p ps ih =>
      refine h.deliver_cons (hps p List.mem_cons_self) hobject fun w₁ h₁ => ?_
      refine (h₁.react_idle (hidle p List.mem_cons_self)).imp fun _ w₂ h₂ => ?_
      exact ih h₂ (fun q hq => hps q (List.mem_cons_of_mem p hq))
        fun q hq => hidle q (List.mem_cons_of_mem p hq)

/-- A normal form that is written while the delegate is at work stays as it is. -/
theorem set_normal (h : T.Shows w s) (hbusy : s.busy = true) (r : Role) {v : Value}
    (hnormal : .normaliser ∈ s.parts r → T.isNormal v = true) (n : Nat) :
    Yields (setAttr (announce (n + 1)) (T.place r).1 (T.place r).2 v) w fun _ w' =>
      T.Shows w' (s.set T r v) := by
  have hlanding : s.landing T r v = v := by
    unfold State.landing
    rw [if_neg]
    rintro ⟨hmem, hnot⟩
    rw [hnormal hmem] at hnot
    contradiction
  refine h.set_yields r v fun old => ?_
  rw [hlanding]
  refine (h.write r v).announce_to rfl rfl (fun _ => rfl) fun w₁ h₁ => ?_
  refine h₁.deliver_idle rfl (fun p hp => hp) fun p hp => ?_
  by_cases hp' : p = .normaliser
  · exact .inr ⟨hp', hnormal (hp' ▸ hp)⟩
  · exact .inl ⟨hbusy, hp'⟩

/-- Reaching some of the observers of an end while the delegate is at work, once `v` or its normal
form is there. -/
theorem deliver_busy (h : T.Shows w s) (hbusy : s.busy = true) {r : Role} {c : Change}
    (hobject : c.object = (T.place r).1) (hattr : c.attr = (T.place r).2) (hfair : T.Fair c.new)
    {u : Value} (hvalue : s.values r = some u) (hu : u = c.new ∨ u = T.normal c.new)
    {ps : List Part} (hps : ∀ p ∈ ps, p ∈ s.parts r) (n : Nat) :
    Yields (deliver (announce (n + 1)) c (ps.map (T.observer s r))) w fun _ w' =>
      T.Shows w' (if .normaliser ∈ ps ∧ T.isNormal c.new = false then
        s.put r (T.normal c.new) else s) := by
  induction ps generalizing w s u with
  | nil => exact h.deliver_nil c
  | cons p ps ih =>
      have hrest : ∀ q ∈ ps, q ∈ s.parts r := fun q hq => hps q (List.mem_cons_of_mem p hq)
      refine h.deliver_cons (hps p List.mem_cons_self) hobject fun w₁ h₁ => ?_
      by_cases hcalled : p = .normaliser ∧ T.isNormal c.new = false
      · obtain ⟨rfl, hnot⟩ := hcalled
        -- A value that has been replaced is normal, and is left as it is the second time.
        have houtcome : s.outcome T r (T.normal c.new) = T.normal c.new := by
          rcases hu with rfl | rfl
          · have hne : (c.new == T.normal c.new) = false := hnot
            simp [State.outcome, hvalue, hne, State.landing, hfair.isNormal_normal]
          · simp [State.outcome, hvalue, hfair.2]
        have hset := h₁.set_normal hbusy r (fun _ => hfair.isNormal_normal) n
        rw [State.set, houtcome] at hset
        refine (react_normaliser hobject hattr hnot hset).imp fun _ w₂ h₂ => ?_
        have hnow : (s.put r (T.normal c.new)).values r = some (T.normal c.new) := by
          simp [State.put]
        refine (ih h₂ hbusy hnow (.inr rfl) hrest).imp fun _ w₃ h₃ => ?_
        rw [if_pos ⟨List.mem_cons_self, hnot⟩]
        have htwice : (s.put r (T.normal c.new)).put r (T.normal c.new) =
            s.put r (T.normal c.new) := by simp [State.put]
        rw [htwice, ite_self] at h₃
        exact h₃
      · have hidle : (s.busy = true ∧ p ≠ .normaliser) ∨
            (p = .normaliser ∧ T.isNormal c.new = true) := by
          by_cases hp : p = .normaliser
          · exact .inr ⟨hp, by simpa [hp] using hcalled⟩
          · exact .inl ⟨hbusy, hp⟩
        refine (h₁.react_idle hidle).imp fun _ w₂ h₂ => ?_
        refine (ih h₂ hbusy hvalue hu hrest).imp fun _ w₃ h₃ => ?_
        have hiff : (.normaliser ∈ p :: ps ∧ T.isNormal c.new = false) ↔
            (.normaliser ∈ ps ∧ T.isNormal c.new = false) := by
          refine ⟨fun hmem => ⟨?_, hmem.2⟩, fun hmem => ⟨List.mem_cons_of_mem p hmem.1, hmem.2⟩⟩
          rcases List.mem_cons.mp hmem.1 with heq | hmem'
          · exact (hcalled ⟨heq.symm, hmem.2⟩).elim
          · exact hmem'
        simp only [hiff]
        exact h₃

/-- A write while the delegate is at work. Only where the normaliser observes does an announcement
nest in the one of the write. -/
theorem set_busy (h : T.Shows w s) (hbusy : s.busy = true) (r : Role) {v : Value}
    (hfair : T.Fair v) {n : Nat} (hn : 0 < n) (hdeep : .normaliser ∈ s.parts r → 1 < n) :
    Yields (setAttr (announce n) (T.place r).1 (T.place r).2 v) w fun _ w' =>
      T.Shows w' (s.set T r v) := by
  by_cases hnormal : .normaliser ∈ s.parts r → T.isNormal v = true
  · obtain ⟨n, rfl⟩ : ∃ m, n = m + 1 := ⟨n - 1, by omega⟩
    exact h.set_normal hbusy r hnormal n
  · obtain ⟨hmem, hnot⟩ : .normaliser ∈ s.parts r ∧ T.isNormal v = false := by
      simpa using hnormal
    obtain ⟨n, rfl⟩ : ∃ m, n = m + 2 := ⟨n - 2, by have := hdeep hmem; omega⟩
    refine h.set_yields r v fun old => ?_
    have hlanding : s.landing T r v = T.normal v := if_pos ⟨hmem, hnot⟩
    have hput : s.put r (T.normal v) = (s.put r v).put r (T.normal v) := by simp [State.put]
    rw [hlanding, hput]
    refine (h.write r v).announce_to (n := n + 1) rfl rfl
      (fun hnone => absurd (hnone ▸ hmem : .normaliser ∈ ([] : List Part)) (by simp))
      fun w₁ h₁ => ?_
    have hnow : ((s.put r v).enter r).values r = some v := by simp [State.put, State.enter]
    have hdelivered := h₁.deliver_busy hbusy (c := ⟨(T.place r).1, (T.place r).2, old, v⟩) rfl rfl
      hfair hnow (.inl rfl) (fun p hp => hp) n
    refine hdelivered.imp fun _ w₂ h₂ => ?_
    have hcalled : .normaliser ∈ ((s.put r v).enter r).parts r ∧ T.isNormal v = false :=
      ⟨hmem, hnot⟩
    rw [if_pos hcalled] at h₂
    exact h₂

end Shows

/-! ## The delegate at work -/

namespace Shows

theorem stored_eq (h : T.Shows w s) (r : Role) :
    (w.attr? (T.place r).1 (T.place r).2).getD .nil = s.stored r := by
  rw [h.values]
  rfl

/-- Where the first write was not enough, the value that it left is in normal form and goes to the
end that is not normalised. -/
theorem set_other (h : T.Shows w (s.set T r v)) (hbusy : s.busy = true) (hfair : T.Fair v)
    (hne : ((s.set T r v).stored r == v) = false) {n : Nat} (hn : 0 < n) :
    Yields (setAttr (announce n) (T.place r.other).1 (T.place r.other).2 ((s.set T r v).stored r)) w
      fun _ w' => T.Shows w' (s.pass T r v) := by
  have hmem : .normaliser ∈ s.parts r := by
    rw [State.stored_set] at hne
    exact (State.outcome_of_not hfair hne).1
  have hother : .normaliser ∉ (s.set T r v).parts r.other := by
    intro hboth
    exact r.other_ne ((h.normaliser _ hboth).trans (h.normaliser _ hmem).symm)
  obtain ⟨n, rfl⟩ : ∃ m, n = m + 1 := ⟨n - 1, by omega⟩
  rw [State.pass, if_neg (by simp [hne])]
  exact h.set_normal hbusy r.other (fun hboth => (hother hboth).elim) n

/-- The delegate hands a value to its target, and what has become of it back to its source. -/
theorem storeValue (h : T.Shows w s) (hbusy : s.busy = true) {v : Value} (hfair : T.Fair v) {n : Nat}
    (hn : 0 < n) (hdeep : .normaliser ∈ s.parts .target → 1 < n) (s₀ : State)
    (listener : Option Subscription) :
    Yields (storeValue (announce n) (T.record s₀ listener) v) w fun result w' =>
      result = .ok () ∧ T.Shows w' (s.pass T .target v) := by
  refine Yields.bind ((h.set_busy hbusy .target hfair hn hdeep).imp fun _ w₁ h₁ => ?_)
  have hstored : (w₁.attr? (T.record s₀ listener).target (T.record s₀ listener).attr).getD .nil =
      (s.set T .target v).stored .target := h₁.stored_eq .target
  refine Yields.get_bind ?_
  dsimp only
  rw [hstored]
  split
  next heq =>
    refine Yields.of_pure ⟨rfl, ?_⟩
    rw [State.pass, if_pos heq]
    exact h₁
  next hne =>
    have hjoins : (T.record s₀ listener).Joins T.source.1 T.source.2 := T.denotes
    have hfree : (T.record s₀ listener).code.HostFree { frame := (T.record s₀ listener).frame } :=
      Code.Denotes.hostFree T.denotes
    refine Yields.bind ⟨_, _, sourceOf_eq (announce n) hfree w₁, ?_⟩
    rw [hjoins.source_eq]
    have hother := h₁.set_other hbusy hfair (by simpa using hne) hn
    exact Yields.bind (hother.imp fun _ w₂ h₂ => Yields.of_pure ⟨rfl, h₂⟩)

/-- Evaluating the delegate and storing what it comes to. -/
theorem refresh (h : T.Shows w s) (hidle : s.busy = false) {v : Value}
    (hvalue : s.values .source = some v) (hfair : T.Fair v) {n : Nat} (hn : 0 < n)
    (hdeep : .normaliser ∈ s.parts .target → 1 < n) :
    Yields (refresh (announce n) s.number) w fun result w' =>
      result = .ok () ∧ ∃ id, T.Shows w' ((s.relisten id).pass T .target v) := by
  obtain ⟨listener, hx⟩ := h.binding
  refine Yields.of_guarded hx hidle (Yields.get_bind ?_)
  have h₁ := h.setBusy true
  have halive : (w.setBusy s.number true).isAlive (T.record s listener).target = true :=
    h₁.alive .target
  simp only [halive, Bool.not_true, Bool.false_eq_true, if_false]
  have hlook := (Code.Denotes.hostFree T.denotes).evaluate_eq_look
    (applyFunc_callsBuiltins (announce n)) (w.setBusy s.number true)
  have hread : (w.setBusy s.number true).attr? T.source.1 T.source.2 = some v :=
    (h₁.values .source).trans hvalue
  rw [Code.Denotes.look_eq T.denotes, hread] at hlook
  refine Yields.bind ⟨_, _, hlook, Yields.modify_bind ?_⟩
  refine Yields.bind ((h₁.log (.evaluated s.number (.ok v) [T.source])).resubscribe.imp ?_)
  rintro ⟨⟩ w₂ ⟨id, h₂⟩
  refine Yields.modify_bind ?_
  have hdeep' : .normaliser ∈ ((s.working true).relisten id).parts .target → 1 < n := by
    intro hmem
    exact hdeep (by simpa [State.relisten, State.listen, State.drop, State.working] using hmem)
  have hstore := (h₂.log (.notice (.dependsOn (T.record s listener).label 1))).storeValue rfl hfair
    hn hdeep' s listener
  refine hstore.imp ?_
  rintro result w₃ ⟨rfl, h₃⟩
  refine ⟨rfl, id, ?_⟩
  have hdone := h₃.setBusy false
  have hnumber : (((s.working true).relisten id).pass T .target v).number = s.number :=
    State.number_pass
  rw [hnumber] at hdone
  have hworking : (s.working true).relisten id = (s.relisten id).working true := rfl
  have hidle' : (s.relisten id).busy = false := hidle
  rwa [hworking, State.pass_at_work hidle'] at hdone

/-- Handing a change of the target back to the source. -/
theorem writeBack (h : T.Shows w s) (hidle : s.busy = false) (hquiet : s.flights .source = 0)
    {c : Change} (hobject : c.object = (T.place .target).1) (hfair : T.Fair c.new) {n : Nat}
    (hn : 0 < n) (hdeep : .normaliser ∈ s.parts .source → 1 < n) :
    Yields (writeBack (announce n) s.number c) w fun result w' =>
      result = .ok () ∧ T.Shows w' (s.pass T .source c.new) := by
  obtain ⟨listener, hx⟩ := h.binding
  have hjoins : (T.record s listener).Joins T.source.1 T.source.2 := T.denotes
  have hfree : (T.record s listener).code.HostFree { frame := (T.record s listener).frame } :=
    Code.Denotes.hostFree T.denotes
  refine Yields.of_guarded hx hidle ?_
  refine Yields.bind ⟨_, _, sourceOf_eq (announce n) hfree _, ?_⟩
  rw [hjoins.source_eq]
  have h₁ := h.setBusy true
  have hfree : (w.setBusy s.number true).isInFlight T.source.1 T.source.2 = false :=
    isInFlight_of_flights ((h₁.flights .source).trans hquiet)
  refine Yields.get_bind ?_
  simp only [hfree, Bool.false_eq_true, if_false]
  refine Yields.modify_bind ?_
  have hset := (h₁.log (.notice (.writingBack (T.record s listener).label))).set_busy rfl .source
    hfair hn hdeep
  refine Yields.bind (hset.imp fun _ w₂ h₂ => ?_)
  have hdone (w₃ : World) (h₃ : T.Shows w₃ ((s.working true).pass T .source c.new)) :
      T.Shows (w₃.setBusy s.number false) (s.pass T .source c.new) := by
    have hset := h₃.setBusy false
    have hnumber : ((s.working true).pass T .source c.new).number = s.number := State.number_pass
    rwa [hnumber, State.pass_at_work hidle] at hset
  have hstored : (w₂.attr? T.source.1 T.source.2).getD .nil =
      ((s.working true).set T .source c.new).stored .source := h₂.stored_eq .source
  refine Yields.get_bind ?_
  rw [hstored]
  split
  next heq =>
    refine Yields.of_pure ⟨rfl, hdone _ ?_⟩
    rw [State.pass, if_pos heq]
    exact h₂
  next hne =>
    have hother := h₂.set_other rfl hfair (by simpa using hne) hn
    rw [hobject]
    exact Yields.bind (hother.imp fun _ w₃ h₃ => Yields.of_pure ⟨rfl, hdone _ h₃⟩)

/-- The delegate answers a change of its target. -/
theorem react_target (h : T.Shows w s) (hidle : s.busy = false) (howned : s.owned = true)
    (hquiet : s.flights .source = 0) {c : Change} (hobject : c.object = (T.place .target).1)
    (hfair : T.Fair c.new) {n : Nat} (hn : 0 < n) (hdeep : .normaliser ∈ s.parts .source → 1 < n) :
    Yields (react (announce n) (T.callback s .target) c) w fun _ w' =>
      T.Shows w' (s.pass T .source c.new) := by
  obtain ⟨listener, hx⟩ := h.binding
  refine Yields.get_bind ?_
  rw [hx]
  have hanswer : Yields (onTarget (announce n) (T.record s listener) c) w fun _ w' =>
      T.Shows w' (s.pass T .source c.new) := by
    refine Yields.bind ((h.writeBack hidle hquiet hobject hfair hn hdeep).imp ?_)
    rintro result w₁ ⟨rfl, h₁⟩
    exact Yields.of_pure h₁
  refine Yields.bind (hanswer.imp fun _ w₁ h₁ => Yields.of_modify ?_)
  have hkept := h₁.release (.inr (State.owned_pass.trans howned))
  rw [State.number_pass] at hkept
  rwa [hkept]

/-- The delegate follows a change of its source. -/
theorem react_source (h : T.Shows w s) (hidle : s.busy = false) (howned : s.owned = true)
    (hquiet : s.flights .target = 0) {v : Value} (hvalue : s.values .source = some v)
    (hfair : T.Fair v) (c : Change) {n : Nat} (hn : 0 < n)
    (hdeep : .normaliser ∈ s.parts .target → 1 < n) :
    Yields (react (announce n) (T.callback s .source) c) w fun _ w' =>
      ∃ id, T.Shows w' ((s.relisten id).pass T .target v) := by
  obtain ⟨listener, hx⟩ := h.binding
  refine Yields.get_bind ?_
  rw [hx]
  have halive : w.isAlive (T.record s listener).target = true := h.alive .target
  have hfree : w.isInFlight (T.record s listener).target (T.record s listener).attr = false :=
    isInFlight_of_flights ((h.flights .target).trans hquiet)
  have hbusy : (T.record s listener).busy = false := hidle
  have hfollow : Yields (onSource (announce n) (T.record s listener)) w fun _ w' =>
      ∃ id, T.Shows w' ((s.relisten id).pass T .target v) := by
    refine Yields.get_bind ?_
    simp only [halive, hbusy, hfree, Bool.not_true, Bool.false_eq_true, if_false]
    refine Yields.modify_bind ?_
    refine Yields.bind (((h.log _).refresh hidle hvalue hfair hn hdeep).imp ?_)
    rintro result w₁ ⟨rfl, h₁⟩
    exact Yields.of_pure h₁
  refine Yields.bind (hfollow.imp ?_)
  rintro ⟨⟩ w₁ ⟨id, h₁⟩
  refine Yields.of_modify ⟨id, ?_⟩
  have hkept := h₁.release (.inr (State.owned_pass.trans howned))
  rw [State.number_pass] at hkept
  change T.Shows (w₁.release s.number) _
  have hnumber : (s.relisten id).number = s.number := rfl
  rw [hnumber] at hkept
  rwa [hkept]

end Shows

end Tandem

end LiveUI
