import LiveUI.Proofs.World.Making

/-! # Scripts

A step says where it leads, and nothing of what goes on in the meantime. A script says that, too: it is
a tree of looks at the world and of deeds, one after another, and some of what is done takes a stretch
of time, with a beginning and an end. A script passes through worlds, and at each of them some stretches
have begun and not ended. What every deed keeps to is kept to by every script, from its beginning to
each world that it passes. -/

namespace LiveUI

/-! ## Deeds -/

namespace World

/-- Observe attributes one after another on behalf of a binding. -/
def observeAll (b : Nat) : List (Handle × String) → World → List Subscription × World
  | [], w => ([], w)
  | p :: ps, w =>
      let s := w.observe p.1 p.2 (.source b)
      let rest := observeAll b ps s.2
      (s.1 :: rest.1, rest.2)

/-- A binding observes what it has read, and nothing else that it read before. -/
def follow (w : World) (b : Nat) (reads : List (Handle × String)) : World :=
  let fresh := w.observeAll b reads
  let stale := (fresh.2.binding? b).elim [] (·.sources)
  stale.foldl unobserve (fresh.2.modifyBinding b fun x => { x with sources := fresh.1 })

end World

/-- One thing that is done to the world. -/
inductive Deed where
  | log (e : Entry)
  | write (o : Handle) (attr : String) (v : Value)
  | create (typeName : String) (attrs : List (String × Value))
  /-- A routine of the host is registered as an observer. -/
  | observe (o : Handle) (attr : String) (routine : Change → Host)
  | unobserve (s : Subscription)
  | function (name : String) (body : Nat → List Value → Host)
  | builtin (b : Builtin)
  | enter (f : Func) (args : List Value)
  | remember (m : Memory)
  | destroy (o : Handle)
  | disconnect (b : Nat)
  | release (b : Nat)
  | resubscribe (b : Nat) (reads : List (Handle × String))

namespace Deed

def apply : Deed → World → World
  | log e, w => w.log e
  | write o attr v, w => w.write o attr v
  | create typeName attrs, w => (w.create typeName attrs).2
  | observe o attr routine, w => (w.observe o attr (.host routine)).2
  | unobserve s, w => w.unobserve s
  | function name body, w => (w.addFunction name body).2
  | builtin b, w => (w.addBuiltin b).2
  | enter f args, w => ((w.enterFunction? f args).map (·.2)).getD w
  | remember m, w => { w with memory := m }
  | destroy o, w => w.destroy o
  | disconnect b, w => w.disconnect b
  | release b, w => w.release b
  | resubscribe b reads, w => w.follow b reads

/-- Entering a function counts the call and does nothing else. -/
theorem apply_enter (f : Func) (args : List Value) (w : World) :
    ∃ functions, (enter f args).apply w = { w with functions } := by
  simp only [apply, World.enterFunction?]
  cases w.functions.find? (·.id == f.id) with
  | none => exact ⟨w.functions, rfl⟩
  | some _ => exact ⟨_, rfl⟩

/-- A binding has to be there to observe anything. -/
def ready : Deed → World → Bool
  | resubscribe b _, w => (w.binding? b).isSome
  | _, _ => true

end Deed

/-! ## Stretches -/

/-- What goes on for a stretch of time, while other things are done. -/
inductive Stretch where
  /-- A change is being announced to the observers of its attribute. -/
  | dispatch (c : Change)
  /-- A binding is at work. -/
  | work (b : Nat)
  /-- A binding evaluates its expression, and then observes what it has read. -/
  | evaluation (b : Nat)

namespace Stretch

/-- There are observers to announce a change to; a binding is not at work already. -/
def canBegin : Stretch → World → Bool
  | dispatch c, w => !(w.observersOf c.object c.attr).isEmpty
  | work b, w => (w.binding? b).any (!·.busy)
  | evaluation _, _ => true

def begin : Stretch → World → World
  | dispatch c, w => w.beginFlight c
  | work b, w => w.setBusy b true
  | evaluation _, w => w

def finish : Stretch → World → World
  | dispatch c, w => w.endFlight c
  | work b, w => w.setBusy b false
  | evaluation _, w => w

end Stretch

/-! ## Scripts -/

inductive Script : Type → Type 1 where
  | done {α : Type} (result : α) : Script α
  /-- It does not go on from here. -/
  | fail {α : Type} : Script α
  | look {α : Type} (next : World → Script α) : Script α
  | act {α : Type} (d : Deed) (next : Script α) : Script α
  /-- Everything in `body` is done within the stretch. -/
  | within {α β : Type} (t : Stretch) (body : Script β) (next : β → Script α) : Script α

namespace Script

variable {α β γ : Type}

def bind : {α : Type} → Script α → (α → Script β) → Script β
  | _, done a, k => k a
  | _, fail, _ => fail
  | _, look next, k => look fun w => (next w).bind k
  | _, act d next, k => act d (next.bind k)
  | _, within t body next, k => within t body fun r => (next r).bind k

instance : Monad Script where
  pure := done
  bind := Script.bind

/-- What a script does. It stops where a deed is not ready, or where a stretch cannot begin. -/
def run : {α : Type} → Script α → World → Option (α × World)
  | _, done a, w => some (a, w)
  | _, fail, _ => none
  | _, look next, w => (next w).run w
  | _, act d next, w => if d.ready w then next.run (d.apply w) else none
  | _, within t body next, w =>
      if t.canBegin w then
        (body.run (t.begin w)).bind fun p => (next p.1).run (t.finish p.2)
      else none

/-- The script, begun in a world, passes another one while it is in some stretches, the innermost
first. -/
inductive Passes : {α : Type} → Script α → World → List Stretch → World → Prop where
  | now {α : Type} {p : Script α} {w : World} : Passes p w [] w
  | look {α : Type} {next : World → Script α} {w w' : World} {s : List Stretch}
      (h : Passes (next w) w s w') : Passes (look next) w s w'
  | act {α : Type} {d : Deed} {next : Script α} {w w' : World} {s : List Stretch}
      (hready : d.ready w = true) (h : Passes next (d.apply w) s w') : Passes (act d next) w s w'
  | inside {α β : Type} {t : Stretch} {body : Script β} {next : β → Script α} {w w' : World}
      {s : List Stretch} (hbegin : t.canBegin w = true) (h : Passes body (t.begin w) s w') :
      Passes (within t body next) w (s ++ [t]) w'
  | after {α β : Type} {t : Stretch} {body : Script β} {next : β → Script α} {w w₁ w' : World}
      {r : β} {s : List Stretch} (hbegin : t.canBegin w = true)
      (hbody : body.run (t.begin w) = some (r, w₁)) (h : Passes (next r) (t.finish w₁) s w') :
      Passes (within t body next) w s w'

/-- The script, begun in a world, comes to do a deed in another one while it is in some stretches. -/
inductive Does : {α : Type} → Script α → World → List Stretch → Deed → World → Prop where
  | now {α : Type} {d : Deed} {next : Script α} {w : World} (hready : d.ready w = true) :
      Does (act d next) w [] d w
  | look {α : Type} {next : World → Script α} {w w' : World} {s : List Stretch} {d : Deed}
      (h : Does (next w) w s d w') : Does (look next) w s d w'
  | act {α : Type} {d d' : Deed} {next : Script α} {w w' : World} {s : List Stretch}
      (hready : d'.ready w = true) (h : Does next (d'.apply w) s d w') : Does (act d' next) w s d w'
  | inside {α β : Type} {t : Stretch} {body : Script β} {next : β → Script α} {w w' : World}
      {s : List Stretch} {d : Deed} (hbegin : t.canBegin w = true)
      (h : Does body (t.begin w) s d w') : Does (within t body next) w (s ++ [t]) d w'
  | after {α β : Type} {t : Stretch} {body : Script β} {next : β → Script α} {w w₁ w' : World}
      {r : β} {s : List Stretch} {d : Deed} (hbegin : t.canBegin w = true)
      (hbody : body.run (t.begin w) = some (r, w₁)) (h : Does (next r) (t.finish w₁) s d w') :
      Does (within t body next) w s d w'

theorem run_act_eq_some {d : Deed} {next : Script α} {w : World} {q : α × World} :
    (act d next).run w = some q ↔ d.ready w = true ∧ next.run (d.apply w) = some q := by
  simp [run]

theorem run_within_eq_some {t : Stretch} {body : Script β} {next : β → Script α} {w : World}
    {q : α × World} : (within t body next).run w = some q ↔ t.canBegin w = true ∧
      ∃ r w₁, body.run (t.begin w) = some (r, w₁) ∧ (next r).run (t.finish w₁) = some q := by
  simp [run, Option.bind_eq_some_iff]

theorem run_bind (p : Script α) (k : α → Script β) (w : World) :
    (p >>= k).run w = (p.run w).bind fun q => (k q.1).run q.2 := by
  change (p.bind k).run w = _
  induction p generalizing w with
  | done a => rfl
  | fail => rfl
  | look next ih => exact ih w k w
  | act d next ih =>
      simp only [Script.bind, run]
      split
      · exact ih k _
      · rfl
  | within t body next _ ih =>
      simp only [Script.bind, run]
      split
      · rw [Option.bind_assoc]
        exact congrArg _ (funext fun q => ih q.1 k _)
      · rfl

/-- What is passed is passed by the one part, or by the other one after it. -/
theorem passes_bind {p : Script α} {k : α → Script β} {w v : World} {s : List Stretch}
    (h : (p >>= k).Passes w s v) :
    p.Passes w s v ∨ ∃ a w₁, p.run w = some (a, w₁) ∧ (k a).Passes w₁ s v := by
  change (p.bind k).Passes w s v at h
  induction p generalizing w s with
  | done a => exact .inr ⟨a, w, rfl, h⟩
  | fail =>
      cases h
      exact .inl .now
  | look next ih =>
      cases h with
      | now => exact .inl .now
      | look h => exact (ih w h).imp_left .look
  | act d next ih =>
      cases h with
      | now => exact .inl .now
      | act hready h =>
          refine (ih h).imp (.act hready) ?_
          rintro ⟨a, w₁, hrun, hpass⟩
          exact ⟨a, w₁, run_act_eq_some.mpr ⟨hready, hrun⟩, hpass⟩
  | within t body next _ ih =>
      cases h with
      | now => exact .inl .now
      | inside hbegin h => exact .inl (.inside hbegin h)
      | after hbegin hbody h =>
          refine (ih _ h).imp (.after hbegin hbody) ?_
          rintro ⟨a, w₁, hrun, hpass⟩
          exact ⟨a, w₁, run_within_eq_some.mpr ⟨hbegin, _, _, hbody, hrun⟩, hpass⟩

theorem does_bind {p : Script α} {k : α → Script β} {w v : World} {s : List Stretch} {d : Deed}
    (h : (p >>= k).Does w s d v) :
    p.Does w s d v ∨ ∃ a w₁, p.run w = some (a, w₁) ∧ (k a).Does w₁ s d v := by
  change (p.bind k).Does w s d v at h
  induction p generalizing w s with
  | done a => exact .inr ⟨a, w, rfl, h⟩
  | fail => cases h
  | look next ih =>
      cases h with
      | look h => exact (ih w h).imp_left .look
  | act d' next ih =>
      cases h with
      | now hready => exact .inl (.now hready)
      | act hready h =>
          refine (ih h).imp (.act hready) ?_
          rintro ⟨a, w₁, hrun, hdoes⟩
          exact ⟨a, w₁, run_act_eq_some.mpr ⟨hready, hrun⟩, hdoes⟩
  | within t body next _ ih =>
      cases h with
      | inside hbegin h => exact .inl (.inside hbegin h)
      | after hbegin hbody h =>
          refine (ih _ h).imp (.after hbegin hbody) ?_
          rintro ⟨a, w₁, hrun, hdoes⟩
          exact ⟨a, w₁, run_within_eq_some.mpr ⟨hbegin, _, _, hbody, hrun⟩, hdoes⟩

/-- A script that has a result passes the world that it comes to. -/
theorem passes_of_run {p : Script α} {w w' : World} {a : α} (h : p.run w = some (a, w')) :
    p.Passes w [] w' := by
  induction p generalizing w with
  | done b =>
      obtain ⟨-, rfl⟩ := by simpa [run] using h
      exact .now
  | fail => cases h
  | look next ih => exact .look (ih w h)
  | act d next ih =>
      obtain ⟨hready, h⟩ := run_act_eq_some.mp h
      exact .act hready (ih h)
  | within t body next _ ih =>
      obtain ⟨hbegin, r, w₁, hbody, h⟩ := run_within_eq_some.mp h
      exact .after hbegin hbody (ih r h)

/-- What stretches do not put an end to has been ended by a deed. -/
theorem exists_does {P : World → Prop} (hbegin : ∀ (t : Stretch) w, P w → P (t.begin w))
    (hfinish : ∀ (t : Stretch) w, P w → P (t.finish w)) {p : Script α} {w w' : World} {a : α}
    (hrun : p.run w = some (a, w')) (hw : P w) (hw' : ¬P w') :
    ∃ s d v, p.Does w s d v ∧ P v ∧ ¬P (d.apply v) := by
  induction p generalizing w w' with
  | done b =>
      obtain ⟨-, rfl⟩ := by simpa [run] using hrun
      exact absurd hw hw'
  | fail => cases hrun
  | look next ih =>
      obtain ⟨s, d, v, hdoes, hv⟩ := ih w hrun hw hw'
      exact ⟨s, d, v, .look hdoes, hv⟩
  | act d next ih =>
      obtain ⟨hready, hrun⟩ := run_act_eq_some.mp hrun
      by_cases hnow : P (d.apply w)
      · obtain ⟨s, d', v, hdoes, hv⟩ := ih hrun hnow hw'
        exact ⟨s, d', v, .act hready hdoes, hv⟩
      · exact ⟨[], d, w, .now hready, hw, hnow⟩
  | within t body next ihbody ih =>
      obtain ⟨hcan, r, w₁, hbody, hrun⟩ := run_within_eq_some.mp hrun
      by_cases hnow : P w₁
      · obtain ⟨s, d, v, hdoes, hv⟩ := ih r hrun (hfinish t w₁ hnow) hw'
        exact ⟨s, d, v, .after hcan hbody hdoes, hv⟩
      · obtain ⟨s, d, v, hdoes, hv⟩ := ihbody hbody (hbegin t w hw) hnow
        exact ⟨s ++ [t], d, v, .inside hcan hdoes, hv⟩

/-- A deed leads from one world that is passed to another one. -/
theorem Does.passes {p : Script α} {w v : World} {s : List Stretch} {d : Deed} (h : p.Does w s d v) :
    p.Passes w s v ∧ d.ready v = true ∧ p.Passes w s (d.apply v) := by
  induction h with
  | now hready => exact ⟨.now, hready, .act hready .now⟩
  | look _ ih => exact ⟨.look ih.1, ih.2.1, .look ih.2.2⟩
  | act hready _ ih => exact ⟨.act hready ih.1, ih.2.1, .act hready ih.2.2⟩
  | inside hbegin _ ih => exact ⟨.inside hbegin ih.1, ih.2.1, .inside hbegin ih.2.2⟩
  | after hbegin hbody _ ih => exact ⟨.after hbegin hbody ih.1, ih.2.1, .after hbegin hbody ih.2.2⟩

end Script

end LiveUI
