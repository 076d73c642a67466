import Mathlib.Logic.Relation
import LiveUI.Proofs.Value.Parts
import LiveUI.Proofs.World.Reading

/-! # What code can reach

Code takes values from its constants, its slots and the record of the change, and goes from them to
the elements of lists and to the attributes of objects. Operators and builtins lead nowhere else.
Where all functions that can be reached so are builtins, the reads that an evaluation notes are all
that it depends on. -/

namespace LiveUI

namespace World

/-- One step from a value: to an element of a list, or to an attribute of an object. -/
inductive Leads (w : World) : Value → Value → Prop where
  | element {items : List Value} {v : Value} (h : v ∈ items) : Leads w (.list items) v
  | attr {o : Handle} {attr : String} {v : Value} (h : w.attr? o attr = some v) :
      Leads w (.object o) v

/-- Some steps from a value, or none. -/
def Reaches (w : World) : Value → Value → Prop :=
  Relation.ReflTransGen w.Leads

/-- From the value one comes to no function of the host. -/
def Harmless (w : World) (v : Value) : Prop :=
  ∀ f : Func, w.Reaches v (.func f) → f.kind ≠ .host

variable {w : World}

theorem Harmless.leads {u v : Value} (h : w.Harmless u) (huv : w.Leads u v) : w.Harmless v :=
  fun f hf => h f (.head huv hf)

theorem Harmless.of_leads {u : Value} (hfunc : ∀ f, u = .func f → f.kind ≠ .host)
    (h : ∀ v, w.Leads u v → w.Harmless v) : w.Harmless u := by
  intro f hf
  rcases Relation.ReflTransGen.cases_head hf with heq | ⟨v, huv, hv⟩
  · exact hfunc f heq
  · exact h v huv f hv

theorem partwise_harmless (w : World) : Value.Partwise w.Harmless where
  scalar v hv := by
    refine .of_leads (fun f hf => ?_) fun u hu => ?_
    · simp [hf, Value.isScalar] at hv
    · cases hu <;> simp [Value.isScalar] at hv
  list items := by
    refine ⟨fun h v hv => h.leads (.element hv), fun h => .of_leads nofun fun u hu => ?_⟩
    cases hu with
    | element hu => exact h u hu

/-- What is passed on in a world from a value to the elements of a list and to the attributes of an
object, and is said of no function of the host. -/
structure Hereditary (w : World) (P : Value → Prop) : Prop extends Value.Partwise P where
  attr : ∀ {o : Handle} {attr : String} {v : Value}, P (.object o) → w.attr? o attr = some v → P v
  func : ∀ {f : Func}, P (.func f) → f.kind ≠ .host

theorem hereditary_harmless (w : World) : w.Hereditary w.Harmless where
  toPartwise := w.partwise_harmless
  attr h hattr := h.leads (.attr hattr)
  func h := h _ .refl

end World

/-! ## Worlds without functions of the host -/

namespace Value

mutual

/-- No function of the host is a part of the value. -/
def isInnocent : Value → Bool
  | func f => f.kind != .host
  | list items => allInnocent items
  | nil | bool _ | int _ | float _ | str _ | object _ => true

def allInnocent : List Value → Bool
  | [] => true
  | v :: vs => isInnocent v && allInnocent vs

end

theorem isInnocent_of_mem {v : Value} : ∀ {items : List Value}, allInnocent items = true →
    v ∈ items → v.isInnocent = true
  | u :: items, h, hv => by
      simp only [allInnocent, Bool.and_eq_true] at h
      rcases List.mem_cons.mp hv with rfl | hv
      · exact h.1
      · exact isInnocent_of_mem h.2 hv

end Value

namespace World

/-- Where no attribute holds a function of the host, none is come upon from an innocent value. -/
theorem Reaches.isInnocent {w : World} (hw : ∀ x ∈ w.objects, ∀ a ∈ x.attrs, a.2.isInnocent = true)
    {u v : Value} (h : w.Reaches u v) (hu : u.isInnocent = true) : v.isInnocent = true := by
  induction h with
  | refl => exact hu
  | tail _ hlast ih =>
      cases hlast with
      | element h => exact Value.isInnocent_of_mem ih h
      | attr h =>
          obtain ⟨x, hx, hattr⟩ := Option.bind_eq_some_iff.mp h
          obtain ⟨a, ha, rfl⟩ := Option.map_eq_some_iff.mp hattr
          exact hw x (List.mem_of_find?_eq_some hx) a (List.mem_of_find?_eq_some ha)

theorem Harmless.of_isInnocent {w : World}
    (hw : ∀ x ∈ w.objects, ∀ a ∈ x.attrs, a.2.isInnocent = true) {v : Value}
    (hv : v.isInnocent = true) : w.Harmless v := by
  intro f hf
  simpa [Value.isInnocent] using Reaches.isInnocent hw hf hv

end World

/-! ## Reads without repetition -/

/-- No attribute is noted twice. -/
def Reads.Distinct (r : Reads) : Prop :=
  r.pairs.Pairwise fun p q => ¬(p.1.id = q.1.id ∧ p.2 = q.2)

theorem Reads.Distinct.note {r : Reads} (h : r.Distinct) (o : Handle) (attr : String) :
    (r.note o attr).Distinct := by
  unfold Reads.note
  split
  next hnew =>
    simp only [Bool.and_eq_true, Bool.not_eq_true'] at hnew
    refine List.pairwise_append.mpr ⟨h, List.pairwise_singleton _ _, fun p hp q hq hsame => ?_⟩
    obtain rfl := List.mem_singleton.mp hq
    have hseen : r.contains o attr = true :=
      List.any_eq_true.mpr ⟨p, hp, by simpa using hsame⟩
    simp [hseen] at hnew
  next => exact h

/-! ## Evaluation -/

namespace Evaluation

variable {α β : Type} {w : World} {H : Value → Prop} {P : α → Prop} {Q : β → Prop}

/-- In the world an evaluation comes to a result, without noting an attribute twice. The objects that
it notes are as `H` says, and a result that is no error is as `P` says. -/
def Draws (w : World) (H : Value → Prop) (P : α → Prop) (m : Evaluation α) : Prop :=
  ∀ s, ∃ r s', outcome m s w = some ((r, s'), w) ∧ (s.Distinct → s'.Distinct) ∧
    (∀ p ∈ s'.pairs, p ∈ s.pairs ∨ H (.object p.1)) ∧ Gives P r

namespace Draws

theorem of_pure {a : α} (h : P a) : Draws w H P (pure a) :=
  fun s => ⟨.ok a, s, rfl, id, fun _ => .inl, .ok h⟩

theorem of_throw (e : EvalError) : Draws w H P (throw e : Evaluation α) :=
  fun s => ⟨.error e, s, rfl, id, fun _ => .inl, .error e⟩

theorem of_except {r : Except EvalError α} (h : Gives P r) :
    Draws w H P (MonadExcept.ofExcept r : Evaluation α) := by
  cases r with
  | ok a => exact of_pure (h a rfl)
  | error e => exact of_throw e

theorem bind {m : Evaluation α} {f : α → Evaluation β} (hm : Draws w H P m)
    (hf : ∀ a, P a → Draws w H Q (f a)) : Draws w H Q (m >>= f) := by
  intro s
  obtain ⟨r, s₁, hr, hdistinct, hreads, hP⟩ := hm s
  cases r with
  | error e => exact ⟨.error e, s₁, outcome_bind_error hr, hdistinct, hreads, .error e⟩
  | ok a =>
      obtain ⟨r', s₂, hr', hdistinct', hreads', hQ⟩ := hf a (hP a rfl) s₁
      refine ⟨r', s₂, (outcome_bind_ok hr).trans hr', hdistinct' ∘ hdistinct, fun p hp => ?_, hQ⟩
      exact (hreads' p hp).elim (hreads p) .inr

/-- What is read is an attribute of a value at hand. -/
theorem readAttr (hH : w.Hereditary H) {base : Value} (h : H base) (attr : String) :
    Draws w H H (readAttr base attr) := by
  cases base with
  | object o =>
      refine fun s => ⟨_, _, outcome_readAttr o attr s w, fun hs => hs.note o attr, fun p hp => ?_, ?_⟩
      · unfold Reads.note at hp
        split at hp
        · rcases List.mem_append.mp hp with hp | hp
          · exact .inl hp
          · obtain rfl := List.mem_singleton.mp hp
            exact .inr h
        · exact .inl hp
      · cases hattr : w.attr? o attr with
        | none => exact .error _
        | some v => exact .ok (hH.attr h hattr)
  | _ => exact of_throw _

/-- What is called is a builtin, and looks at its arguments only. -/
theorem call (hH : w.Hereditary H) {callee : Value} {args : List Value} (hcallee : H callee)
    (hargs : ∀ v ∈ args, H v) : Draws w H H (call builtinsOnly callee args) := by
  cases callee with
  | func f =>
      cases hkind : f.kind with
      | host => exact absurd hkind (hH.func hcallee)
      | builtin b =>
          have hresult := of_except (w := w) (H := H) (hH.apply b hargs)
          cases happly : b.apply args with
          | ok v =>
              simp only [Evaluation.call, builtinsOnly, hkind, happly]
              rwa [happly] at hresult
          | error e =>
              simp only [Evaluation.call, builtinsOnly, hkind, happly]
              rwa [happly] at hresult
  | _ => exact of_throw _

end Draws

end Evaluation

namespace Code

open Evaluation

mutual

/-- The values that code can begin with: its constants, what is in its slots, and the record of the
change. -/
def origins (scope : Scope) : Code → List Value
  | .const v => [v]
  | .slot n => [scope.frame.get n]
  | .change => [scope.change]
  | .list items => allOrigins scope items
  | .attr value _ => origins scope value
  | .index value i => origins scope value ++ origins scope i
  | .call func args => origins scope func ++ allOrigins scope args
  | .unary _ operand => origins scope operand
  | .binary _ left right | .boolOp _ left right => origins scope left ++ origins scope right
  | .ifElse body condition otherwise =>
      origins scope body ++ origins scope condition ++ origins scope otherwise

def allOrigins (scope : Scope) : List Code → List Value
  | [] => []
  | c :: cs => origins scope c ++ allOrigins scope cs

end

/-- The functions that code can come to in a world. -/
def Reaches (scope : Scope) (code : Code) (w : World) (f : Func) : Prop :=
  ∃ v ∈ code.origins scope, w.Reaches v (.func f)

variable {w : World} {scope : Scope} {H : Value → Prop}

mutual

theorem eval_draws (hH : w.Hereditary H) : ∀ c : Code, (∀ v ∈ c.origins scope, H v) →
    Draws w H H (c.eval builtinsOnly scope)
  | .const v, h => by
      simp only [eval]
      exact .of_pure (h v List.mem_cons_self)
  | .slot n, h => by
      simp only [eval]
      exact .of_pure (h _ List.mem_cons_self)
  | .change, h => by
      simp only [eval]
      exact .of_pure (h _ List.mem_cons_self)
  | .list items, h => by
      simp only [eval]
      exact (evalAll_draws hH items h).bind fun vs hvs => .of_pure ((hH.list vs).mpr hvs)
  | .attr value a, h => by
      simp only [eval]
      exact (eval_draws hH value h).bind fun base hbase => .readAttr hH hbase a
  | .index value i, h => by
      simp only [origins, List.forall_mem_append] at h
      simp only [eval]
      exact (eval_draws hH value h.1).bind fun base hbase => (eval_draws hH i h.2).bind fun i _ =>
        .of_except (hH.subscript hbase i)
  | .call func args, h => by
      simp only [origins, List.forall_mem_append] at h
      simp only [eval]
      exact (eval_draws hH func h.1).bind fun callee hcallee =>
        (evalAll_draws hH args h.2).bind fun args hargs => .call hH hcallee hargs
  | .unary op operand, h => by
      simp only [eval]
      exact (eval_draws hH operand h).bind fun v _ => .of_except (hH.unary op v)
  | .binary op left right, h => by
      simp only [origins, List.forall_mem_append] at h
      simp only [eval]
      exact (eval_draws hH left h.1).bind fun l hl => (eval_draws hH right h.2).bind fun r hr =>
        .of_except (hH.binary op hl hr)
  | .boolOp .and left right, h => by
      simp only [origins, List.forall_mem_append] at h
      simp only [eval]
      refine (eval_draws hH left h.1).bind fun l hl => ?_
      split
      · exact eval_draws hH right h.2
      · exact .of_pure hl
  | .boolOp .or left right, h => by
      simp only [origins, List.forall_mem_append] at h
      simp only [eval]
      refine (eval_draws hH left h.1).bind fun l hl => ?_
      split
      · exact .of_pure hl
      · exact eval_draws hH right h.2
  | .ifElse body condition otherwise, h => by
      simp only [origins, List.forall_mem_append] at h
      simp only [eval]
      refine (eval_draws hH condition h.1.2).bind fun t _ => ?_
      split
      · exact eval_draws hH body h.1.1
      · exact eval_draws hH otherwise h.2

theorem evalAll_draws (hH : w.Hereditary H) : ∀ cs : List Code, (∀ v ∈ allOrigins scope cs, H v) →
    Draws w H (fun vs => ∀ v ∈ vs, H v) (evalAll builtinsOnly scope cs)
  | [], _ => by
      simp only [evalAll]
      exact .of_pure nofun
  | c :: cs, h => by
      simp only [allOrigins, List.forall_mem_append] at h
      simp only [evalAll]
      exact (eval_draws hH c h.1).bind fun v hv => (evalAll_draws hH cs h.2).bind fun vs hvs =>
        .of_pure (List.forall_mem_cons.mpr ⟨hv, hvs⟩)

end

/-- Code that reaches builtins only comes to a result whether its reads are noted or not, and to the
same one. No attribute is noted twice, and in every world that agrees on the attributes noted, also on
which of them are missing, the evaluation comes to the same result and notes the same attributes in
the same order. -/
theorem evaluate_determined {code : Code} (h : ∀ f, code.Reaches scope w f → f.kind ≠ .host)
    (announce : Announce) :
    ∃ result reads,
      code.evaluate (applyFunc announce) scope true w = some ((result, reads), w) ∧
      code.evaluate (applyFunc announce) scope false w = some ((result, []), w) ∧
      reads.Pairwise (fun p q => ¬(p.1.id = q.1.id ∧ p.2 = q.2)) ∧
      ∀ w', (∀ p ∈ reads, w'.attr? p.1 p.2 = w.attr? p.1 p.2) →
        code.evaluate (applyFunc announce) scope true w' = some ((result, reads), w') := by
  have hbuiltins := applyFunc_callsBuiltins announce
  have hobserves := eval_observes hbuiltins scope code
  obtain ⟨result, s, hout, hdistinct, -⟩ :=
    eval_draws w.hereditary_harmless code (fun v hv f hf => h f ⟨v, hv, hf⟩) { recording := true }
  refine ⟨result, s.pairs, ?_, ?_, hdistinct .nil, fun w' hagree => ?_⟩
  · rw [evaluate_eq_outcome, (hobserves.same hout).2]
    rfl
  · have hsilent := hobserves.silent hout (q := { recording := false }) rfl
    rw [evaluate_eq_outcome, (hobserves.same hsilent).2]
    rfl
  · have hcongr := hobserves.congr hout rfl hagree
    rw [evaluate_eq_outcome, (hobserves.same hcongr).2]
    rfl

/-- An object that shows its first note when it is open. -/
def formWorld (notes : List Value) : World :=
  { objects := [{ handle := ⟨1, "Form"⟩, attrs := [("open", .bool false), ("notes", .list notes)] }]
    nextObject := 2 }

/-- `form.notes[0] if form.open else len(form.title)` -/
def firstNote : Code :=
  .ifElse (.index (.attr (.slot 0) "notes") (.const (.int 0))) (.attr (.slot 0) "open")
    (.call (.const (.func ⟨0, "len", .builtin .len⟩)) [.attr (.slot 0) "title"])

/-- A form that is closed has no title to be shown, whatever its notes are. -/
theorem evaluate_determined_form :
    (∀ f, firstNote.Reaches { frame := ⟨[.object ⟨1, "Form"⟩]⟩ } (formWorld []) f →
      f.kind ≠ .host) ∧
    ∃ result reads,
      result = .error (.missingAttribute "Form" "title") ∧
      reads = [(⟨1, "Form"⟩, "open"), (⟨1, "Form"⟩, "title")] ∧
      firstNote.evaluate (applyFunc (announce 1)) { frame := ⟨[.object ⟨1, "Form"⟩]⟩ } true
        (formWorld [.str "a"]) = some ((result, reads), formWorld [.str "a"]) := by
  have h : ∀ f, firstNote.Reaches { frame := ⟨[.object ⟨1, "Form"⟩]⟩ } (formWorld []) f →
      f.kind ≠ .host := by
    rintro f ⟨v, hv, hf⟩
    have hinnocent : ∀ v ∈ firstNote.origins { frame := ⟨[.object ⟨1, "Form"⟩]⟩ },
        v.isInnocent = true := by decide
    exact World.Harmless.of_isInnocent (by decide) (hinnocent v hv) f hf
  obtain ⟨result, reads, hrecorded, -, -, hagree⟩ := evaluate_determined h (announce 1)
  have hsame : result = .error (.missingAttribute "Form" "title") ∧
      reads = [(⟨1, "Form"⟩, "open"), (⟨1, "Form"⟩, "title")] := by
    obtain ⟨⟨rfl, rfl⟩, -⟩ := by simpa using hrecorded.symm.trans rfl
    exact ⟨rfl, rfl⟩
  refine ⟨h, result, reads, hsame.1, hsame.2, hagree _ fun p hp => ?_⟩
  rw [hsame.2] at hp
  simp only [List.mem_cons, List.not_mem_nil, or_false] at hp
  rcases hp with rfl | rfl <;> rfl

end Code

end LiveUI
