import LiveUI.Proofs.World.Realms

/-! # Where values come from

An evaluation that calls builtins only makes its result of the constants and slots of the code and of
attributes. What is so of all these, and of a list when it is so of the elements, is so of the
result, also where functions of the host are among the values, as long as none is called. -/

namespace LiveUI

/-- What is so of every attribute, and of lists as of their elements. -/
structure World.Pervades (w : World) (P : Value → Prop) : Prop extends Value.Partwise P where
  attr : ∀ {o : Handle} {attr : String} {v : Value}, w.attr? o attr = some v → P v

theorem Reads.mem_note {r : Reads} {o : Handle} {attr : String} {p : Handle × String}
    (h : p ∈ (r.note o attr).pairs) : p ∈ r.pairs ∨ p = (o, attr) := by
  unfold note at h
  split at h
  · exact (List.mem_append.mp h).imp_right List.mem_singleton.mp
  · exact .inl h

namespace Evaluation

variable {α β : Type} {w : World} {H : Value → Prop} {P : α → Prop} {Q : β → Prop}

/-- Whenever the evaluation comes to a result, it has left the world alone and noted no attribute
twice. The objects that it notes are as `H` says, and a result that is no error is as `P` says. -/
def Brings (w : World) (H : Value → Prop) (P : α → Prop) (m : Evaluation α) : Prop :=
  ∀ s r s' w', outcome m s w = some ((r, s'), w') →
    w' = w ∧ (s.Distinct → s'.Distinct) ∧ (∀ p ∈ s'.pairs, p ∈ s.pairs ∨ H (.object p.1)) ∧ Gives P r

namespace Brings

theorem of_pure {a : α} (h : P a) : Brings w H P (pure a) := by
  intro s r s' w' hout
  obtain ⟨⟨rfl, rfl⟩, rfl⟩ := by simpa [outcome_pure] using hout
  exact ⟨rfl, id, fun _ => .inl, .ok h⟩

theorem of_throw (e : EvalError) : Brings w H P (throw e : Evaluation α) := by
  intro s r s' w' hout
  obtain ⟨⟨rfl, rfl⟩, rfl⟩ := by simpa [outcome_throw] using hout
  exact ⟨rfl, id, fun _ => .inl, .error e⟩

theorem of_except {r : Except EvalError α} (h : Gives P r) :
    Brings w H P (MonadExcept.ofExcept r : Evaluation α) := by
  cases r with
  | ok a => exact of_pure (h a rfl)
  | error e => exact of_throw e

theorem bind {m : Evaluation α} {f : α → Evaluation β} (hm : Brings w H P m)
    (hf : ∀ a, P a → Brings w H Q (f a)) : Brings w H Q (m >>= f) := by
  intro s r s' w' hout
  rw [outcome_bind] at hout
  obtain ⟨⟨⟨r₁, s₁⟩, w₁⟩, hfirst, hrest⟩ := Option.bind_eq_some_iff.mp hout
  obtain ⟨rfl, hdistinct, hreads, hP⟩ := hm s r₁ s₁ w₁ hfirst
  cases r₁ with
  | error e =>
      obtain ⟨⟨rfl, rfl⟩, rfl⟩ := by simpa using hrest
      exact ⟨rfl, hdistinct, hreads, .error e⟩
  | ok a =>
      obtain ⟨rfl, hdistinct', hreads', hQ⟩ := hf a (hP a rfl) s₁ r s' w' hrest
      refine ⟨rfl, hdistinct' ∘ hdistinct, fun p hp => ?_, hQ⟩
      exact (hreads' p hp).elim (hreads p) .inr

theorem readAttr (hH : w.Pervades H) {base : Value} (h : H base) (attr : String) :
    Brings w H H (readAttr base attr) := by
  cases base with
  | object o =>
      intro s r s' w' hout
      rw [outcome_readAttr] at hout
      obtain ⟨⟨rfl, rfl⟩, rfl⟩ := by simpa using hout
      refine ⟨rfl, fun hs => hs.note o attr, fun p hp => ?_, ?_⟩
      · rcases Reads.mem_note hp with hp | rfl
        · exact .inl hp
        · exact .inr h
      · cases hattr : w.attr? o attr with
        | none => exact .error _
        | some v => exact .ok (hH.attr hattr)
  | _ => exact of_throw _

/-- A function of the host brings nothing, for it has no result. -/
theorem call (hH : w.Pervades H) (callee : Value) {args : List Value} (hargs : ∀ v ∈ args, H v) :
    Brings w H H (call builtinsOnly callee args) := by
  cases callee with
  | func f =>
      cases hkind : f.kind with
      | host =>
          intro s r s' w' hout
          simp only [Evaluation.call, builtinsOnly, hkind] at hout
          cases hout
      | builtin b =>
          have hresult := of_except (w := w) (H := H) (hH.apply b hargs)
          cases happly : b.apply args with
          | ok v =>
              simp only [Evaluation.call, builtinsOnly, hkind, happly]
              rwa [happly] at hresult
          | error e =>
              simp only [Evaluation.call, builtinsOnly, hkind, happly]
              rwa [happly] at hresult
  | _ => exact of_throw _

end Brings

end Evaluation

namespace Code

open Evaluation

variable {w : World} {scope : Scope} {H : Value → Prop}

mutual

theorem eval_brings (hH : w.Pervades H) : ∀ c : Code, (∀ v ∈ c.origins scope, H v) →
    Brings w H H (c.eval builtinsOnly scope)
  | .const v, h | .slot n, h | .change, h => by
      simp only [eval]
      exact .of_pure (h _ List.mem_cons_self)
  | .list items, h => by
      simp only [eval]
      exact (evalAll_brings hH items h).bind fun vs hvs => .of_pure ((hH.list vs).mpr hvs)
  | .attr value a, h => by
      simp only [eval]
      exact (eval_brings hH value h).bind fun base hbase => .readAttr hH hbase a
  | .index value i, h => by
      simp only [origins, List.forall_mem_append] at h
      simp only [eval]
      exact (eval_brings hH value h.1).bind fun base hbase => (eval_brings hH i h.2).bind fun i _ =>
        .of_except (hH.subscript hbase i)
  | .call func args, h => by
      simp only [origins, List.forall_mem_append] at h
      simp only [eval]
      exact (eval_brings hH func h.1).bind fun callee _ =>
        (evalAll_brings hH args h.2).bind fun args hargs => .call hH callee hargs
  | .unary op operand, h => by
      simp only [eval]
      exact (eval_brings hH operand h).bind fun v _ => .of_except (hH.unary op v)
  | .binary op left right, h => by
      simp only [origins, List.forall_mem_append] at h
      simp only [eval]
      exact (eval_brings hH left h.1).bind fun l hl => (eval_brings hH right h.2).bind fun r hr =>
        .of_except (hH.binary op hl hr)
  | .boolOp .and left right, h => by
      simp only [origins, List.forall_mem_append] at h
      simp only [eval]
      refine (eval_brings hH left h.1).bind fun l hl => ?_
      split
      · exact eval_brings hH right h.2
      · exact .of_pure hl
  | .boolOp .or left right, h => by
      simp only [origins, List.forall_mem_append] at h
      simp only [eval]
      refine (eval_brings hH left h.1).bind fun l hl => ?_
      split
      · exact .of_pure hl
      · exact eval_brings hH right h.2
  | .ifElse body condition otherwise, h => by
      simp only [origins, List.forall_mem_append] at h
      simp only [eval]
      refine (eval_brings hH condition h.1.2).bind fun t _ => ?_
      split
      · exact eval_brings hH body h.1.1
      · exact eval_brings hH otherwise h.2

theorem evalAll_brings (hH : w.Pervades H) : ∀ cs : List Code, (∀ v ∈ allOrigins scope cs, H v) →
    Brings w H (fun vs => ∀ v ∈ vs, H v) (evalAll builtinsOnly scope cs)
  | [], _ => by
      simp only [evalAll]
      exact .of_pure nofun
  | c :: cs, h => by
      simp only [allOrigins, List.forall_mem_append] at h
      simp only [evalAll]
      exact (eval_brings hH c h.1).bind fun v hv => (evalAll_brings hH cs h.2).bind fun vs hvs =>
        .of_pure (List.forall_mem_cons.mpr ⟨hv, hvs⟩)

end

namespace HostFree

variable {code : Code} (h : code.HostFree scope)

include h

/-- What code comes to has what its origins and all attributes have. -/
theorem look_gives (hH : w.Pervades H) (horigins : ∀ v ∈ code.origins scope, H v) :
    Gives H (code.look scope w).1 := by
  obtain ⟨s, hs, -⟩ := h.outcome_eq w
  exact (eval_brings hH code horigins _ _ _ _ hs).2.2.2

/-- What it reads are attributes of objects that it comes from. -/
theorem look_reads (hH : w.Pervades H) (horigins : ∀ v ∈ code.origins scope, H v) :
    ∀ p ∈ (code.look scope w).2, H (.object p.1) := by
  obtain ⟨s, hs, hreads⟩ := h.outcome_eq w
  rw [← hreads]
  intro p hp
  exact ((eval_brings hH code horigins _ _ _ _ hs).2.2.1 p hp).resolve_left List.not_mem_nil

/-- It notes no attribute twice. -/
theorem look_distinct (w : World) :
    (code.look scope w).2.Pairwise fun p q => ¬(p.1.id = q.1.id ∧ p.2 = q.2) := by
  obtain ⟨s, hs, hreads⟩ := h.outcome_eq w
  have hall : w.Pervades fun _ => True := ⟨⟨fun _ _ => trivial, fun _ => by simp⟩, fun _ => trivial⟩
  rw [← hreads]
  exact (eval_brings hall code (fun _ _ => trivial) _ _ _ _ hs).2.1 .nil

end HostFree

end Code

theorem Code.origins_attrPath {code base : Code} {attr : String} {scope : Scope}
    (h : code.attrPath? = some (base, attr)) : code.origins scope = base.origins scope := by
  cases code with
  | attr value a =>
      obtain ⟨rfl, -⟩ := by simpa [attrPath?] using h
      rfl
  | _ => simp [attrPath?] at h

namespace World

/-! ## Worlds in which objects know live objects only -/

/-- Every object in the value is alive. -/
def Knows (w : World) (v : Value) : Prop :=
  ∀ o : Handle, o.id ∈ v.objects → w.isAlive o = true

/-- Attributes and bindings lead to live objects only. -/
structure Intact (w : World) : Prop where
  attrs : ∀ {o : Handle} {attr : String} {v : Value}, w.attr? o attr = some v → w.Knows v
  bindings : ∀ {b : Nat} {x : Binding}, w.binding? b = some x →
    ∀ v ∈ x.code.origins { frame := x.frame }, w.Knows v

variable {w w' : World}

theorem knows_congr (h : ∀ o, w'.isAlive o = w.isAlive o) (v : Value) : w'.Knows v ↔ w.Knows v := by
  simp only [Knows, h]

theorem knows_nil : w.Knows .nil := by
  intro o ho
  simp [Value.objects] at ho

theorem partwise_knows (w : World) : Value.Partwise w.Knows where
  scalar v hv := by
    intro o ho
    cases v with
    | nil | bool _ | int _ | float _ | str _ => simp [Value.objects] at ho
    | list _ | object _ | func _ => simp [Value.isScalar] at hv
  list items := by
    simp only [Knows, Value.objects, Value.mem_objectsList]
    constructor
    · exact fun h v hv o ho => h o ⟨v, hv, ho⟩
    · rintro h o ⟨v, hv, ho⟩
      exact h v hv o ho

theorem knows_object {o : Handle} : w.Knows (.object o) ↔ w.isAlive o = true := by
  refine ⟨fun h => h o (by simp [Value.objects]), fun h p hp => ?_⟩
  have hid : p.id = o.id := by simpa [Value.objects] using hp
  rwa [isAlive, w.object?_congr hid]

namespace Intact

theorem pervades (h : Intact w) : w.Pervades w.Knows :=
  ⟨w.partwise_knows, h.attrs⟩

theorem stored (h : Intact w) (o : Handle) (attr : String) : w.Knows ((w.attr? o attr).getD .nil) := by
  cases hattr : w.attr? o attr with
  | none => exact knows_nil
  | some v => exact h.attrs hattr

theorem of_keeps (h : Intact w) (hkeeps : Keeps w w')
    (hattr : ∀ o attr v, w'.attr? o attr = some v → w.Knows v) : Intact w' := by
  have hknows := fun v => (knows_congr hkeeps.isAlive v).mpr
  refine ⟨fun hv => hknows _ (hattr _ _ _ hv), fun {b x} hx v hv => hknows v ?_⟩
  obtain ⟨y, hy, hcore⟩ := hkeeps.exists_binding? hx
  have hcode : x.code = y.code := congrArg (·.code) hcore
  have hframe : x.frame = y.frame := congrArg (·.frame) hcore
  rw [hcode, hframe] at hv
  exact h.bindings hy v hv

/-- What a delegate may write back to is alive. -/
theorem isAlive_source (h : Intact w) {x : Binding}
    (horigins : ∀ v ∈ x.code.origins { frame := x.frame }, w.Knows v)
    (hhost : x.code.HostFree { frame := x.frame }) {o : Handle} {attr : String}
    (hsource : x.source w = .ok (o, attr)) : w.isAlive o = true := by
  unfold Binding.source at hsource
  cases hpath : x.code.attrPath? with
  | none => simp [hpath] at hsource
  | some path =>
      obtain ⟨base, a⟩ := path
      rw [Code.origins_attrPath hpath] at horigins
      have hgives := (hhost.attrPath hpath).look_gives h.pervades horigins
      rw [hpath] at hsource
      cases hlook : (base.look { frame := x.frame } w).1 with
      | error e => simp [hlook] at hsource
      | ok v =>
          cases v with
          | object p =>
              obtain ⟨rfl, -⟩ : p = o ∧ a = attr := by simpa [hlook] using hsource
              exact knows_object.mp (hgives _ hlook)
          | _ => simp [hlook] at hsource

end Intact

end World

end LiveUI
