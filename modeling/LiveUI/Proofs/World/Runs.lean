import LiveUI.Proofs.World.Network

/-! # Propagation as a derivation

In a network the course of an announcement is given by rules, one for each thing that an observer
may come upon. A derivation holds the announcement together with all that are nested in it, so what
is true of propagation is proved by induction on derivations. -/

namespace LiveUI

/-- The attribute path that the expression of a delegate denotes in a world. -/
def Binding.source (x : Binding) (w : World) : Except EvalError (Handle × String) :=
  match x.code.attrPath? with
  | none => .error (.notAssignable x.label)
  | some (base, attr) =>
      match (base.look { frame := x.frame } w).1 with
      | .ok (.object o) => .ok (o, attr)
      | .ok v => .error (.notAssignable ("a '" ++ v.typeName ++ "' value"))
      | .error e => .error e

namespace World

/-- The value that is compared with the one that should be there; nothing where there is none. -/
def stored (w : World) (o : Handle) (attr : String) : Value :=
  (w.attr? o attr).getD .nil

/-- Something was noticed, and nothing else has happened. -/
inductive Notices : World → World → Prop where
  | refl (w : World) : Notices w w
  | notice {w w' : World} (n : Notice) (h : Notices w w') : Notices w (w'.notice n)

end World

open World

/-- A piece of propagation. What comes of the work of a binding is a part of it. -/
inductive Work where
  | announce (c : Change)
  | deliver (c : Change) (observers : List Observer)
  | react (c : Change) (role : Role) (b : Nat)
  | refresh (b : Nat) (result : Except EvalError Unit)
  | store (b : Nat) (v : Value) (result : Except EvalError Unit)
  | writeBack (b : Nat) (c : Change) (result : Except EvalError Unit)
  | set (o : Handle) (attr : String) (v : Value)

/-- Why a binding that is called does nothing. -/
inductive Skips (w : World) (x : Binding) : Role → Prop where
  | atWork {role : Role} (h : x.busy = true) : Skips w x role
  | targetInFlight (h : w.isInFlight x.target x.attr = true) : Skips w x .source

inductive Runs : Work → World → World → Prop where
  | unheard {c : Change} {w : World} (h : w.observersOf c.object c.attr = []) :
      Runs (.announce c) w w
  | heard {c : Change} {w w' : World} (h : w.observersOf c.object c.attr ≠ [])
      (run : Runs (.deliver c (w.observersOf c.object c.attr)) (w.beginFlight c) w') :
      Runs (.announce c) w (w'.endFlight c)
  | delivered {c : Change} {w : World} : Runs (.deliver c []) w w
  | dropped {c : Change} {obs : Observer} {rest : List Observer} {w w' : World}
      (h : obs ∉ w.observers c.object) (run : Runs (.deliver c rest) w w') :
      Runs (.deliver c (obs :: rest)) w w'
  | called {c : Change} {obs : Observer} {rest : List Observer} {w w₁ w' : World} {role : Role}
      {b : Nat} (h : obs ∈ w.observers c.object) (hcall : obs.callback = role.callback b)
      (run : Runs (.react c role b) (w.log (.called c obs.id)) w₁)
      (runRest : Runs (.deliver c rest) w₁ w') : Runs (.deliver c (obs :: rest)) w w'
  | skipped {c : Change} {role : Role} {b : Nat} {x : Binding} {w w' : World}
      (hx : w.binding? b = some x) (h : Skips w x role) (hn : Notices w w') :
      Runs (.react c role b) w w'
  | refreshed {c : Change} {b : Nat} {x : Binding} {result : Except EvalError Unit}
      {w w₁ w₂ w' : World} (hx : w.binding? b = some x) (hbusy : x.busy = false)
      (hflight : w.isInFlight x.target x.attr = false) (hn : Notices w w₁)
      (run : Runs (.refresh b result) (w₁.setBusy b true) w₂)
      (hn' : Notices (w₂.setBusy b false) w') : Runs (.react c .source b) w w'
  | answered {c : Change} {b : Nat} {x : Binding} {result : Except EvalError Unit}
      {w w₁ w' : World} (hx : w.binding? b = some x) (hbusy : x.busy = false)
      (run : Runs (.writeBack b c result) (w.setBusy b true) w₁)
      (hn : Notices (w₁.setBusy b false) w') : Runs (.react c .target b) w w'
  | failed {b : Nat} {x : Binding} {e : EvalError} {reads : List (Handle × String)}
      {w w₁ w' : World} (hx : w.binding? b = some x) (hlook : x.look w = (.error e, reads))
      (hsub : resubscribe b reads (w.log (.evaluated b (.error e) reads)) = some ((), w₁))
      (hn : Notices w₁ w') : Runs (.refresh b (.error e)) w w'
  | evaluated {b : Nat} {x : Binding} {v : Value} {reads : List (Handle × String)}
      {result : Except EvalError Unit} {w w₁ w₂ w' : World} (hx : w.binding? b = some x)
      (hlook : x.look w = (.ok v, reads))
      (hsub : resubscribe b reads (w.log (.evaluated b (.ok v) reads)) = some ((), w₁))
      (hn : Notices w₁ w₂) (run : Runs (.store b v result) w₂ w') : Runs (.refresh b result) w w'
  | bound {b : Nat} {x : Binding} {v : Value} {w w' : World} (hx : w.binding? b = some x)
      (hkind : x.kind = .bind) (run : Runs (.set x.target x.attr v) w w') :
      Runs (.store b v (.ok ())) w w'
  | agreed {b : Nat} {x : Binding} {v : Value} {w w' : World} (hx : w.binding? b = some x)
      (hkind : x.kind = .delegate) (run : Runs (.set x.target x.attr v) w w')
      (h : (w'.stored x.target x.attr == v) = true) : Runs (.store b v (.ok ())) w w'
  | handedBack {b : Nat} {x : Binding} {v : Value} {o : Handle} {attr : String} {w w₁ w' : World}
      (hx : w.binding? b = some x) (hkind : x.kind = .delegate)
      (run : Runs (.set x.target x.attr v) w w₁)
      (h : (w₁.stored x.target x.attr == v) = false) (hsource : x.source w₁ = .ok (o, attr))
      (runSource : Runs (.set o attr (w₁.stored x.target x.attr)) w₁ w') :
      Runs (.store b v (.ok ())) w w'
  | unreturned {b : Nat} {x : Binding} {v : Value} {e : EvalError} {w w' : World}
      (hx : w.binding? b = some x) (hkind : x.kind = .delegate)
      (run : Runs (.set x.target x.attr v) w w')
      (h : (w'.stored x.target x.attr == v) = false) (hsource : x.source w' = .error e) :
      Runs (.store b v (.error e)) w w'
  | sourceless {b : Nat} {x : Binding} {c : Change} {e : EvalError} {w : World}
      (hx : w.binding? b = some x) (hsource : x.source w = .error e) :
      Runs (.writeBack b c (.error e)) w w
  | sourceInFlight {b : Nat} {x : Binding} {c : Change} {o : Handle} {attr : String} {w w' : World}
      (hx : w.binding? b = some x) (hsource : x.source w = .ok (o, attr))
      (hflight : w.isInFlight o attr = true) (hn : Notices w w') :
      Runs (.writeBack b c (.ok ())) w w'
  | returned {b : Nat} {x : Binding} {c : Change} {o : Handle} {attr : String} {w w₁ w' : World}
      (hx : w.binding? b = some x) (hsource : x.source w = .ok (o, attr))
      (hflight : w.isInFlight o attr = false) (hn : Notices w w₁)
      (run : Runs (.set o attr c.new) w₁ w') (h : (w'.stored o attr == c.new) = true) :
      Runs (.writeBack b c (.ok ())) w w'
  | normalised {b : Nat} {x : Binding} {c : Change} {o : Handle} {attr : String}
      {w w₁ w₂ w' : World} (hx : w.binding? b = some x) (hsource : x.source w = .ok (o, attr))
      (hflight : w.isInFlight o attr = false) (hn : Notices w w₁)
      (run : Runs (.set o attr c.new) w₁ w₂) (h : (w₂.stored o attr == c.new) = false)
      (runTarget : Runs (.set c.object x.attr (w₂.stored o attr)) w₂ w') :
      Runs (.writeBack b c (.ok ())) w w'
  | unchanged {o : Handle} {attr : String} {v old : Value} {w : World}
      (h : w.attr? o attr = some old) (heq : (old == v) = true) : Runs (.set o attr v) w w
  | changed {o : Handle} {attr : String} {v : Value} {w w' : World}
      (h : ∀ old, w.attr? o attr = some old → (old == v) = false)
      (run : Runs (.announce ⟨o, attr, w.stored o attr, v⟩) (w.write o attr v) w') :
      Runs (.set o attr v) w w'

/-! ## What a derivation keeps -/

namespace World

variable {w w' : World}

namespace Notices

theorem keeps (h : Notices w w') : Keeps w w' := by
  induction h with
  | refl => exact Keeps.refl w
  | notice n h ih => exact ih.trans (Keeps.log _ _)

theorem network (h : Notices w w') (hw : Network w) : Network w' := by
  induction h with
  | refl => exact hw
  | notice n h ih => exact ih.log fun _ => rfl

theorem bindings (h : Notices w w') : w'.bindings = w.bindings := by
  induction h with
  | refl => rfl
  | notice n h ih => exact ih

theorem binding? (h : Notices w w') (b : Nat) : w'.binding? b = w.binding? b := by
  simp only [World.binding?, h.bindings]

end Notices

theorem Keeps.exists_busy (h : Keeps w w') {b : Nat} {x : Binding} (hx : w.binding? b = some x)
    (hbusy : x.busy = true) : ∃ x', w'.binding? b = some x' ∧ x'.busy = true := by
  have heq := h.binding? b
  rw [hx] at heq
  obtain ⟨x', hx', hcore⟩ := Option.map_eq_some_iff.mp heq
  exact ⟨x', hx', (congrArg Binding.busy hcore).trans hbusy⟩

/-- The work of a binding that its target owns keeps the network, with the busy mark around it. -/
theorem Network.work (h : Network w) {b : Nat} {x : Binding} (hx : w.binding? b = some x)
    (howned : x.owned = true) (hbusy : x.busy = false) (h' : Network w')
    (hkeeps : Keeps (w.setBusy b true) w') :
    Network (w'.setBusy b false) ∧ Keeps w (w'.setBusy b false) := by
  have hset := (hkeeps.binding? b).symm
  rw [binding?_setBusy hx] at hset
  obtain ⟨x', hx', hcore⟩ := Option.map_eq_some_iff.mp hset.symm
  have howned' : x'.owned = true := (congrArg Binding.owned hcore).trans howned
  refine ⟨h'.endWork hx' howned', hkeeps.work fun y hy hid => ?_⟩
  rw [h.eq_of_id hx hy hid]
  exact hbusy

end World

/-- What has to be so for a piece of propagation to begin. -/
def Work.Ready (w : World) : Work → Prop
  | .announce _ | .deliver _ _ | .set _ _ _ => True
  | .react _ role b => ∃ x, w.binding? b = some x ∧ x.inService = true ∧
      (role = .target → x.kind = .delegate)
  | .refresh b _ | .store b _ _ | .writeBack b _ _ => ∃ x, w.binding? b = some x ∧ x.busy = true

theorem World.Network.ready {w : World} (h : Network w) {c : Change} {obs : Observer} {role : Role}
    {b : Nat} (hobs : obs ∈ w.observers c.object) (hcall : obs.callback = role.callback b) :
    (Work.react c role b).Ready w := by
  cases role with
  | source =>
      obtain ⟨x, hx, hservice, -⟩ := h.exists_read hobs hcall
      exact ⟨x, hx, hservice, fun heq => nomatch heq⟩
  | target =>
      obtain ⟨x, hx, hkind, howned, -⟩ := h.exists_target hobs hcall
      exact ⟨x, hx, by simp [Binding.inService, howned], fun _ => hkind⟩

/-- Propagation keeps a network. -/
theorem Runs.keeps {k : Work} {w w' : World} (run : Runs k w w') (h : Network w)
    (hready : k.Ready w) : Network w' ∧ Keeps w w' := by
  -- A reaction marks its binding for as long as it lasts. All other work leaves the marks alone.
  induction run with
  | unheard => exact ⟨h, Keeps.refl _⟩
  | heard _ _ ih =>
      obtain ⟨hnet, hkeeps⟩ := ih (h.beginFlight _) trivial
      exact ⟨hnet.endFlight _, hkeeps.flight⟩
  | delivered => exact ⟨h, Keeps.refl _⟩
  | dropped _ _ ih => exact ih h trivial
  | called hobs hcall _ _ ih ihRest =>
      obtain ⟨hnet, hkeeps⟩ := ih (h.log fun _ => rfl) (h.ready hobs hcall)
      obtain ⟨hnet', hkeeps'⟩ := ihRest hnet trivial
      exact ⟨hnet', ((Keeps.log _ _).trans hkeeps).trans hkeeps'⟩
  | skipped _ _ hn => exact ⟨hn.network h, hn.keeps⟩
  | refreshed hx hbusy _ hn _ hn' ih =>
      obtain ⟨hservice, -⟩ := of_binding? hx hready
      have howned := Binding.owned_of_idle hservice hbusy
      have hnet := hn.network h
      rw [← hn.binding?] at hx
      have huse := hnet.inUse _ (mem_of_binding? _ hx) hservice
      obtain ⟨hnet', hkeeps⟩ := ih (hnet.setBusy hx huse) ⟨_, binding?_setBusy hx true, rfl⟩
      obtain ⟨hdone, hkeepsDone⟩ := hnet.work hx howned hbusy hnet' hkeeps
      exact ⟨hn'.network hdone, (hn.keeps.trans hkeepsDone).trans hn'.keeps⟩
  | answered hx hbusy _ hn ih =>
      obtain ⟨hservice, -⟩ := of_binding? hx hready
      have howned := Binding.owned_of_idle hservice hbusy
      have huse := h.inUse _ (mem_of_binding? _ hx) hservice
      obtain ⟨hnet', hkeeps⟩ := ih (h.setBusy hx huse) ⟨_, binding?_setBusy hx true, rfl⟩
      obtain ⟨hdone, hkeepsDone⟩ := h.work hx howned hbusy hnet' hkeeps
      exact ⟨hn.network hdone, hkeepsDone.trans hn.keeps⟩
  | failed hx hlook hsub hn =>
      obtain ⟨y, hy, hbusy⟩ := hready
      have heval := (h.evaluated hy (Binding.inService_of_busy hbusy) _ _).result hsub
      exact ⟨hn.network heval.network, heval.keeps.trans hn.keeps⟩
  | evaluated hx hlook hsub hn _ ih =>
      obtain ⟨y, hy, hbusy⟩ := hready
      have heval := (h.evaluated hy (Binding.inService_of_busy hbusy) _ _).result hsub
      have hkeeps := heval.keeps.trans hn.keeps
      obtain ⟨hnet', hkeeps'⟩ := ih (hn.network heval.network) (hkeeps.exists_busy hy hbusy)
      exact ⟨hnet', hkeeps.trans hkeeps'⟩
  | bound _ _ _ ih => exact ih h trivial
  | agreed _ _ _ _ ih => exact ih h trivial
  | handedBack hx _ _ _ _ _ ih ihSource =>
      obtain ⟨hnet, hkeeps⟩ := ih h trivial
      obtain ⟨hnet', hkeeps'⟩ := ihSource hnet trivial
      exact ⟨hnet', hkeeps.trans hkeeps'⟩
  | unreturned _ _ _ _ _ ih => exact ih h trivial
  | sourceless => exact ⟨h, Keeps.refl _⟩
  | sourceInFlight _ _ _ hn => exact ⟨hn.network h, hn.keeps⟩
  | returned _ _ _ hn _ _ ih =>
      obtain ⟨hnet, hkeeps⟩ := ih (hn.network h) trivial
      exact ⟨hnet, hn.keeps.trans hkeeps⟩
  | normalised _ _ _ hn _ _ _ ih ihTarget =>
      obtain ⟨hnet, hkeeps⟩ := ih (hn.network h) trivial
      obtain ⟨hnet', hkeeps'⟩ := ihTarget hnet trivial
      exact ⟨hnet', (hn.keeps.trans hkeeps).trans hkeeps'⟩
  | unchanged => exact ⟨h, Keeps.refl _⟩
  | changed _ _ ih =>
      obtain ⟨hnet, hkeeps⟩ := ih (h.write _ _ _) trivial
      exact ⟨hnet, (Keeps.write _ _ _ _).trans hkeeps⟩

end LiveUI
