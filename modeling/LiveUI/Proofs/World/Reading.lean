import LiveUI.Proofs.World.Store

/-! # What an evaluation depends on

An evaluation that calls builtins only leaves the world as it is. Its outcome depends on nothing
but the attributes that it notes: in a world that agrees on them it goes the same way, step by
step, and notes the same attributes in the same order. -/

namespace LiveUI

/-- Calling builtins only: a function of the host has no result. -/
def builtinsOnly : Apply := fun f args =>
  match f.kind with
  | .builtin b => return b.apply args
  | .host => failure

namespace Evaluation

variable {α β : Type}

/-- An evaluation in a world, behind the reads so far: its result, the reads then and the world
then. -/
def outcome (m : Evaluation α) (s : Reads) (w : World) :
    Option ((Except EvalError α × Reads) × World) :=
  (m.run.run s).run w

theorem outcome_pure (a : α) (s : Reads) (w : World) :
    outcome (pure a) s w = some ((.ok a, s), w) := rfl

theorem outcome_throw (e : EvalError) (s : Reads) (w : World) :
    outcome (throw e : Evaluation α) s w = some ((.error e, s), w) := rfl

theorem outcome_bind (m : Evaluation α) (f : α → Evaluation β) (s : Reads) (w : World) :
    outcome (m >>= f) s w = (outcome m s w).bind fun ((r, s'), w') =>
      match r with
      | .ok a => outcome (f a) s' w'
      | .error e => some ((.error e, s'), w') := by
  change ((m.run.run s).run w).bind _ = ((m.run.run s).run w).bind _
  congr 1
  funext ⟨⟨r, s'⟩, w'⟩
  cases r <;> rfl

theorem run_bind (m : Evaluation α) (f : α → Evaluation β) (s : Reads) :
    (m >>= f).run.run s = m.run.run s >>= fun p =>
      match p.1 with
      | .ok a => (f a).run.run p.2
      | .error e => pure (.error e, p.2) := by
  funext w
  change ((m.run.run s) w).bind _ = ((m.run.run s) w).bind _
  congr 1
  funext ⟨⟨r, s'⟩, w'⟩
  cases r <;> rfl

theorem outcome_bind_ok {m : Evaluation α} {f : α → Evaluation β} {s s' : Reads} {w w' : World}
    {a : α} (h : outcome m s w = some ((.ok a, s'), w')) :
    outcome (m >>= f) s w = outcome (f a) s' w' := by
  rw [outcome_bind, h]
  rfl

theorem outcome_bind_error {m : Evaluation α} {f : α → Evaluation β} {s s' : Reads} {w w' : World}
    {e : EvalError} (h : outcome m s w = some ((.error e, s'), w')) :
    outcome (m >>= f) s w = some ((.error e, s'), w') := by
  rw [outcome_bind, h]
  rfl

/-- Two worlds agree on the attributes that have been noted. -/
def Agree (s : Reads) (w w' : World) : Prop :=
  ∀ p ∈ s.pairs, w'.attr? p.1 p.2 = w.attr? p.1 p.2

/-- What is known of an evaluation `m` of which `m'` is the same one with another way to call
functions of the host. Where `m` has an outcome, it leaves the world alone, `m'` has the same one,
and the outcome is that of every world with the same values of the attributes noted. -/
structure Observes (m m' : Evaluation α) : Prop where
  same {s s' : Reads} {w w' : World} {r : Except EvalError α} :
    outcome m s w = some ((r, s'), w') → w' = w ∧ outcome m' s w = some ((r, s'), w)
  noted {s s' : Reads} {w w' : World} {r : Except EvalError α} :
    outcome m s w = some ((r, s'), w') → s'.recording = s.recording ∧ s.pairs ⊆ s'.pairs
  congr {s s' : Reads} {w w' w₂ : World} {r : Except EvalError α} :
    outcome m s w = some ((r, s'), w') → s.recording = true → Agree s' w w₂ →
      outcome m s w₂ = some ((r, s'), w₂)
  silent {s s' q : Reads} {w w' : World} {r : Except EvalError α} :
    outcome m s w = some ((r, s'), w') → q.recording = false →
      outcome m q w = some ((r, q), w)

namespace Observes

theorem pure (a : α) : Observes (Pure.pure a) (Pure.pure a) where
  same h := by
    obtain ⟨⟨rfl, rfl⟩, rfl⟩ := by simpa [outcome_pure] using h
    exact ⟨rfl, rfl⟩
  noted h := by
    obtain ⟨⟨rfl, rfl⟩, rfl⟩ := by simpa [outcome_pure] using h
    exact ⟨rfl, fun _ => id⟩
  congr h _ _ := by
    obtain ⟨⟨rfl, rfl⟩, rfl⟩ := by simpa [outcome_pure] using h
    rfl
  silent h _ := by
    obtain ⟨⟨rfl, rfl⟩, rfl⟩ := by simpa [outcome_pure] using h
    rfl

theorem throw (e : EvalError) :
    Observes (MonadExcept.throw e : Evaluation α) (MonadExcept.throw e) where
  same h := by
    obtain ⟨⟨rfl, rfl⟩, rfl⟩ := by simpa [outcome_throw] using h
    exact ⟨rfl, rfl⟩
  noted h := by
    obtain ⟨⟨rfl, rfl⟩, rfl⟩ := by simpa [outcome_throw] using h
    exact ⟨rfl, fun _ => id⟩
  congr h _ _ := by
    obtain ⟨⟨rfl, rfl⟩, rfl⟩ := by simpa [outcome_throw] using h
    rfl
  silent h _ := by
    obtain ⟨⟨rfl, rfl⟩, rfl⟩ := by simpa [outcome_throw] using h
    rfl

/-- The outcome of a sequence of evaluations comes from those of its parts. -/
theorem bind {m m' : Evaluation α} {f f' : α → Evaluation β} (hm : Observes m m')
    (hf : ∀ a, Observes (f a) (f' a)) : Observes (m >>= f) (m' >>= f') := by
  -- Either the first part fails and decides the outcome, or the second goes on from its reads.
  have parts : ∀ {s s' : Reads} {w w' : World} {r : Except EvalError β},
      outcome (m >>= f) s w = some ((r, s'), w') →
        (∃ e, r = .error e ∧ outcome m s w = some ((.error e, s'), w')) ∨
        ∃ a s₁, outcome m s w = some ((.ok a, s₁), w) ∧
          outcome (f a) s₁ w = some ((r, s'), w') := by
    intro s s' w w' r h
    rw [outcome_bind] at h
    obtain ⟨⟨⟨r₁, s₁⟩, w₁⟩, h₁, h₂⟩ := Option.bind_eq_some_iff.mp h
    obtain ⟨rfl, -⟩ := hm.same h₁
    cases r₁ with
    | error e =>
        obtain ⟨⟨rfl, rfl⟩, rfl⟩ := by simpa using h₂
        exact .inl ⟨e, rfl, h₁⟩
    | ok a => exact .inr ⟨a, s₁, h₁, h₂⟩
  refine ⟨?_, ?_, ?_, ?_⟩
  · intro s s' w w' r h
    obtain ⟨e, rfl, h₁⟩ | ⟨a, s₁, h₁, h₂⟩ := parts h
    · obtain ⟨rfl, h'⟩ := hm.same h₁
      exact ⟨rfl, outcome_bind_error h'⟩
    · obtain ⟨rfl, h'⟩ := (hf a).same h₂
      exact ⟨rfl, by rw [outcome_bind_ok (hm.same h₁).2, h']⟩
  · intro s s' w w' r h
    obtain ⟨e, rfl, h₁⟩ | ⟨a, s₁, h₁, h₂⟩ := parts h
    · exact hm.noted h₁
    · have first := hm.noted h₁
      have second := (hf a).noted h₂
      exact ⟨second.1.trans first.1, fun p hp => second.2 (first.2 hp)⟩
  · intro s s' w w' w₂ r h hrec hagree
    obtain ⟨e, rfl, h₁⟩ | ⟨a, s₁, h₁, h₂⟩ := parts h
    · exact outcome_bind_error (hm.congr h₁ hrec hagree)
    · have second := (hf a).noted h₂
      have hfirst := hm.congr h₁ hrec fun p hp => hagree p (second.2 hp)
      rw [outcome_bind_ok hfirst]
      exact (hf a).congr h₂ ((hm.noted h₁).1.trans hrec) hagree
  · intro s s' q w w' r h hq
    obtain ⟨e, rfl, h₁⟩ | ⟨a, s₁, h₁, h₂⟩ := parts h
    · exact outcome_bind_error (hm.silent h₁ hq)
    · rw [outcome_bind_ok (hm.silent h₁ hq)]
      exact (hf a).silent h₂ hq

theorem ofExcept (r : Except EvalError α) :
    Observes (MonadExcept.ofExcept r : Evaluation α) (MonadExcept.ofExcept r) := by
  cases r with
  | ok a => exact pure a
  | error e => exact throw e

end Observes

end Evaluation

/-! ## Reading attributes -/

namespace Reads

theorem note_of_recording {s : Reads} (o : Handle) (attr : String) (h : s.recording = true) :
    ∃ p ∈ (s.note o attr).pairs, p.1.id = o.id ∧ p.2 = attr := by
  unfold note
  split
  next => exact ⟨(o, attr), by simp, rfl, rfl⟩
  next hseen =>
    have hcontains : s.contains o attr = true := by simpa [h] using hseen
    obtain ⟨p, hp, heq⟩ := List.any_eq_true.mp hcontains
    exact ⟨p, hp, by simpa using heq⟩

theorem recording_note (s : Reads) (o : Handle) (attr : String) :
    (s.note o attr).recording = s.recording := by
  unfold note
  split <;> rfl

theorem subset_note (s : Reads) (o : Handle) (attr : String) :
    s.pairs ⊆ (s.note o attr).pairs := by
  unfold note
  split
  · exact List.subset_append_left _ _
  · exact fun _ => id

theorem note_of_silent {s : Reads} (o : Handle) (attr : String) (h : s.recording = false) :
    s.note o attr = s := by
  simp [note, h]

end Reads

namespace Evaluation

/-- Reading an attribute notes it and looks at nothing else. -/
theorem outcome_readAttr (o : Handle) (attr : String) (s : Reads) (w : World) :
    outcome (readAttr (.object o) attr) s w =
      some ((((w.attr? o attr).elim (.error (.missingAttribute o.typeName attr)) .ok),
        s.note o attr), w) := by
  have hnote : outcome (modifyThe Reads (·.note o attr)) s w =
      some ((.ok ⟨⟩, s.note o attr), w) := rfl
  have hget : outcome (getThe World) (s.note o attr) w =
      some ((.ok w, s.note o attr), w) := rfl
  simp only [readAttr]
  rw [outcome_bind_ok hnote, outcome_bind_ok hget]
  cases w.attr? o attr <;> rfl

theorem Observes.readAttr (base : Value) (attr : String) :
    Observes (readAttr base attr) (readAttr base attr) := by
  cases base with
  | object o =>
      refine ⟨?_, ?_, ?_, ?_⟩
      · intro s s' w w' r h
        have heq := h
        rw [outcome_readAttr] at heq
        obtain ⟨⟨rfl, rfl⟩, rfl⟩ := by simpa using heq
        exact ⟨rfl, h⟩
      · intro s s' w w' r h
        rw [outcome_readAttr] at h
        obtain ⟨⟨rfl, rfl⟩, rfl⟩ := by simpa using h
        exact ⟨s.recording_note o attr, s.subset_note o attr⟩
      · intro s s' w w' w₂ r h hrec hagree
        rw [outcome_readAttr] at h ⊢
        obtain ⟨⟨rfl, rfl⟩, rfl⟩ := by simpa using h
        obtain ⟨p, hp, hid, rfl⟩ := Reads.note_of_recording o attr hrec
        have hsame : w₂.attr? o p.2 = w.attr? o p.2 := by
          rw [← World.attr?_congr w hid, ← World.attr?_congr w₂ hid]
          exact hagree p hp
        rw [hsame]
      · intro s s' q w w' r h hq
        rw [outcome_readAttr] at h ⊢
        obtain ⟨⟨rfl, rfl⟩, rfl⟩ := by simpa using h
        rw [Reads.note_of_silent o attr hq]
  | _ => exact throw _

/-! ## Calls and whole expressions -/

/-- Builtins are called in one way only. -/
def CallsBuiltins (apply : Apply) : Prop :=
  ∀ f args b, f.kind = .builtin b → apply f args = pure (b.apply args)

theorem builtinsOnly_callsBuiltins : CallsBuiltins builtinsOnly :=
  fun f args b hf => by simp only [builtinsOnly, hf]

theorem Observes.call {apply : Apply} (happly : CallsBuiltins apply) (callee : Value)
    (args : List Value) :
    Observes (call builtinsOnly callee args) (call apply callee args) := by
  cases callee with
  | func f =>
      cases hkind : f.kind with
      | builtin b =>
          have hbuiltin : Evaluation.call builtinsOnly (.func f) args =
              (MonadExcept.ofExcept (b.apply args) : Evaluation Value) := by
            simp only [Evaluation.call, builtinsOnly, hkind]
            cases b.apply args <;> rfl
          have happlied : Evaluation.call apply (.func f) args =
              (MonadExcept.ofExcept (b.apply args) : Evaluation Value) := by
            simp only [Evaluation.call, happly f args b hkind]
            cases b.apply args <;> rfl
          rw [hbuiltin, happlied]
          exact ofExcept _
      | host =>
          have hnone : ∀ s w, outcome (Evaluation.call builtinsOnly (.func f) args) s w = none := by
            intro s w
            simp only [Evaluation.call, builtinsOnly, hkind]
            rfl
          refine ⟨?_, ?_, ?_, ?_⟩ <;> intros <;> simp_all
  | _ => exact throw _

end Evaluation

namespace Evaluation

/-- A relation between evaluations that do the same, but call functions with `apply` on one side and
with `apply'` on the other: it is kept by all that code is evaluated with. -/
structure Congruence (apply apply' : Apply)
    (R : ∀ {α : Type}, Evaluation α → Evaluation α → Prop) : Prop where
  pure {α : Type} (a : α) : R (Pure.pure a) (Pure.pure a)
  throw {α : Type} (e : EvalError) : R (MonadExcept.throw e : Evaluation α) (MonadExcept.throw e)
  bind {α β : Type} {m m' : Evaluation α} {f f' : α → Evaluation β} (hm : R m m')
    (hf : ∀ a, R (f a) (f' a)) : R (m >>= f) (m' >>= f')
  readAttr (base : Value) (attr : String) : R (readAttr base attr) (readAttr base attr)
  call (callee : Value) (args : List Value) : R (call apply callee args) (call apply' callee args)

theorem Congruence.ofExcept {apply apply' : Apply}
    {R : ∀ {α : Type}, Evaluation α → Evaluation α → Prop} (h : Congruence apply apply' R)
    {α : Type} (r : Except EvalError α) :
    R (MonadExcept.ofExcept r : Evaluation α) (MonadExcept.ofExcept r) := by
  cases r with
  | ok a => exact h.pure a
  | error e => exact h.throw e

end Evaluation

namespace Code

open Evaluation

section Congruence

variable {apply apply' : Apply} {R : ∀ {α : Type}, Evaluation α → Evaluation α → Prop}
  (h : Congruence apply apply' R) (scope : Scope)

include h

mutual

/-- Code goes the same way on both sides. -/
theorem eval_congr : ∀ c : Code, R (c.eval apply scope) (c.eval apply' scope)
  | .const v => by simpa only [eval] using h.pure v
  | .slot n => by simpa only [eval] using h.pure (scope.frame.get n)
  | .change => by simpa only [eval] using h.pure scope.change
  | .list items => by
      simp only [eval]
      exact h.bind (evalAll_congr items) fun vs => h.pure (Value.list vs)
  | .attr value a => by
      simp only [eval]
      exact h.bind (eval_congr value) fun base => h.readAttr base a
  | .index value i => by
      simp only [eval]
      exact h.bind (eval_congr value) fun base => h.bind (eval_congr i) fun i =>
        h.ofExcept (Value.subscript base i)
  | .call func args => by
      simp only [eval]
      exact h.bind (eval_congr func) fun callee => h.bind (evalAll_congr args) fun args =>
        h.call callee args
  | .unary op operand => by
      simp only [eval]
      exact h.bind (eval_congr operand) fun v => h.ofExcept (Value.unary op v)
  | .binary op left right => by
      simp only [eval]
      exact h.bind (eval_congr left) fun l => h.bind (eval_congr right) fun r =>
        h.ofExcept (Value.binary op l r)
  | .boolOp .and left right => by
      simp only [eval]
      refine h.bind (eval_congr left) fun l => ?_
      split
      · exact eval_congr right
      · exact h.pure l
  | .boolOp .or left right => by
      simp only [eval]
      refine h.bind (eval_congr left) fun l => ?_
      split
      · exact h.pure l
      · exact eval_congr right
  | .ifElse body condition otherwise => by
      simp only [eval]
      refine h.bind (eval_congr condition) fun t => ?_
      split
      · exact eval_congr body
      · exact eval_congr otherwise

theorem evalAll_congr : ∀ cs : List Code, R (evalAll apply scope cs) (evalAll apply' scope cs)
  | [] => by simpa only [evalAll] using h.pure []
  | c :: cs => by
      simp only [evalAll]
      exact h.bind (eval_congr c) fun v => h.bind (evalAll_congr cs) fun vs => h.pure (v :: vs)

end

end Congruence

/-- Whatever the way to call functions of the host, code observes what it observes with builtins
alone. -/
theorem eval_observes {apply : Apply} (happly : CallsBuiltins apply) (scope : Scope) (c : Code) :
    Observes (c.eval builtinsOnly scope) (c.eval apply scope) := by
  have congruence : Congruence builtinsOnly apply Observes :=
    ⟨Observes.pure, Observes.throw, Observes.bind, Observes.readAttr, Observes.call happly⟩
  exact eval_congr congruence scope c

/-- In whatever world the code is evaluated, it calls no function of the host. -/
def HostFree (scope : Scope) (code : Code) : Prop :=
  ∀ w, ∃ out, code.evaluate builtinsOnly scope true w = some out

/-- What code that calls no function of the host comes to in a world, and the attributes that it
reads there. -/
def look (scope : Scope) (code : Code) (w : World) :
    Except EvalError Value × List (Handle × String) :=
  match code.evaluate builtinsOnly scope true w with
  | some (out, _) => out
  | none => (.ok .nil, [])

theorem evaluate_eq_outcome (apply : Apply) (scope : Scope) (recording : Bool) (code : Code)
    (w : World) :
    code.evaluate apply scope recording w =
      (outcome (code.eval apply scope) { recording } w).map
        fun ((r, s), w') => ((r, s.pairs), w') := by
  change (outcome (code.eval apply scope) { recording } w).bind _ = _
  cases outcome (code.eval apply scope) { recording } w <;> rfl

namespace HostFree

variable {scope : Scope} {code : Code} (h : code.HostFree scope)

include h

/-- The evaluation behind `look`. -/
theorem outcome_eq (w : World) :
    ∃ s, outcome (code.eval builtinsOnly scope) { recording := true } w =
      some (((code.look scope w).1, s), w) ∧ s.pairs = (code.look scope w).2 := by
  obtain ⟨out, hout⟩ := h w
  have hlook : code.look scope w = out.1 := by
    simp only [look, hout]
  rw [evaluate_eq_outcome] at hout
  obtain ⟨⟨⟨r, s⟩, w'⟩, hrun, rfl⟩ := Option.map_eq_some_iff.mp hout
  have hworld := (eval_observes builtinsOnly_callsBuiltins scope code).same hrun
  rw [hlook]
  exact ⟨s, hworld.2, rfl⟩

theorem evaluate_eq_look {apply : Apply} (happly : CallsBuiltins apply) (w : World) :
    code.evaluate apply scope true w = some (code.look scope w, w) := by
  obtain ⟨s, hs, hreads⟩ := h.outcome_eq w
  rw [evaluate_eq_outcome, ((eval_observes happly scope code).same hs).2]
  simp [hreads]

/-- Without recording the result is the same. -/
theorem evaluate_silent {apply : Apply} (happly : CallsBuiltins apply) (w : World) :
    code.evaluate apply scope false w = some (((code.look scope w).1, []), w) := by
  obtain ⟨s, hs, -⟩ := h.outcome_eq w
  have hsilent := (eval_observes happly scope code).silent hs (q := { recording := false }) rfl
  rw [evaluate_eq_outcome, ((eval_observes happly scope code).same hsilent).2]
  rfl

/-- Worlds that agree on the attributes read in one of them look the same. -/
theorem look_congr {w w₂ : World}
    (hagree : ∀ p ∈ (code.look scope w).2, w₂.attr? p.1 p.2 = w.attr? p.1 p.2) :
    code.look scope w₂ = code.look scope w := by
  obtain ⟨s, hs, hreads⟩ := h.outcome_eq w
  obtain ⟨s₂, hs₂, hreads₂⟩ := h.outcome_eq w₂
  have hcongr := (eval_observes builtinsOnly_callsBuiltins scope code).congr hs rfl
      (by rw [Agree, hreads]; exact hagree)
  obtain ⟨hr, rfl⟩ := by simpa using hs₂.symm.trans hcongr
  exact Prod.ext hr (hreads₂.symm.trans hreads)

end HostFree

/-! ## Code without functions of the host -/

mutual

/-- Whatever is called is written as a builtin. -/
def callsBuiltins : Code → Bool
  | .const _ | .slot _ | .change => true
  | .list items => allCallBuiltins items
  | .attr value _ => callsBuiltins value
  | .index value i => callsBuiltins value && callsBuiltins i
  | .call (.const (.func f)) args => f.kind != .host && allCallBuiltins args
  | .call _ _ => false
  | .unary _ operand => callsBuiltins operand
  | .binary _ left right | .boolOp _ left right => callsBuiltins left && callsBuiltins right
  | .ifElse body condition otherwise =>
      callsBuiltins body && callsBuiltins condition && callsBuiltins otherwise

def allCallBuiltins : List Code → Bool
  | [] => true
  | c :: cs => callsBuiltins c && allCallBuiltins cs

end

/-- An evaluation that comes to something from all reads in all worlds. -/
def Comes {α : Type} (m : Evaluation α) : Prop :=
  ∀ s w, ∃ out, outcome m s w = some out

theorem Comes.of_pure {α : Type} (a : α) : Comes (pure a) :=
  fun _ _ => ⟨_, rfl⟩

theorem Comes.of_throw {α : Type} (e : EvalError) : Comes (throw e : Evaluation α) :=
  fun _ _ => ⟨_, rfl⟩

theorem Comes.of_except {α : Type} (r : Except EvalError α) :
    Comes (MonadExcept.ofExcept r : Evaluation α) := by
  cases r with
  | ok a => exact .of_pure a
  | error e => exact .of_throw e

theorem Comes.bind {α β : Type} {m : Evaluation α} {f : α → Evaluation β} (hm : Comes m)
    (hf : ∀ a, Comes (f a)) : Comes (m >>= f) := by
  intro s w
  obtain ⟨⟨⟨r, s'⟩, w'⟩, hout⟩ := hm s w
  cases r with
  | ok a =>
      rw [outcome_bind_ok hout]
      exact hf a s' w'
  | error e => exact ⟨_, outcome_bind_error hout⟩

theorem Comes.readAttr (base : Value) (attr : String) : Comes (readAttr base attr) := by
  cases base with
  | object o => exact fun s w => ⟨_, outcome_readAttr o attr s w⟩
  | _ => exact .of_throw _

theorem Comes.call {f : Func} (hf : f.kind ≠ .host) (args : List Value) :
    Comes (Evaluation.call builtinsOnly (.func f) args) := by
  cases hkind : f.kind with
  | host => exact (hf hkind).elim
  | builtin b =>
      intro s w
      simp only [Evaluation.call, builtinsOnly, hkind]
      exact ⟨_, rfl⟩

mutual

theorem comes_of_callsBuiltins (scope : Scope) :
    ∀ c : Code, c.callsBuiltins = true → Comes (c.eval builtinsOnly scope)
  | .const v, _ => by simpa only [eval] using Comes.of_pure v
  | .slot n, _ => by simpa only [eval] using Comes.of_pure (scope.frame.get n)
  | .change, _ => by simpa only [eval] using Comes.of_pure scope.change
  | .list items, h => by
      simp only [eval]
      exact (comes_of_allCallBuiltins scope items h).bind fun vs => .of_pure (Value.list vs)
  | .attr value a, h => by
      simp only [eval]
      exact (comes_of_callsBuiltins scope value h).bind fun base => .readAttr base a
  | .index value i, h => by
      simp only [callsBuiltins, Bool.and_eq_true] at h
      simp only [eval]
      exact (comes_of_callsBuiltins scope value h.1).bind fun base =>
        (comes_of_callsBuiltins scope i h.2).bind fun i => .of_except (Value.subscript base i)
  | .call (.const (.func f)) args, h => by
      simp only [callsBuiltins, Bool.and_eq_true, bne_iff_ne] at h
      simp only [eval, pure_bind]
      exact (comes_of_allCallBuiltins scope args h.2).bind fun args => .call h.1 args
  | .unary op operand, h => by
      simp only [eval]
      exact (comes_of_callsBuiltins scope operand h).bind fun v => .of_except (Value.unary op v)
  | .binary op left right, h => by
      simp only [callsBuiltins, Bool.and_eq_true] at h
      simp only [eval]
      exact (comes_of_callsBuiltins scope left h.1).bind fun l =>
        (comes_of_callsBuiltins scope right h.2).bind fun r => .of_except (Value.binary op l r)
  | .boolOp .and left right, h => by
      simp only [callsBuiltins, Bool.and_eq_true] at h
      simp only [eval]
      refine (comes_of_callsBuiltins scope left h.1).bind fun l => ?_
      split
      · exact comes_of_callsBuiltins scope right h.2
      · exact .of_pure l
  | .boolOp .or left right, h => by
      simp only [callsBuiltins, Bool.and_eq_true] at h
      simp only [eval]
      refine (comes_of_callsBuiltins scope left h.1).bind fun l => ?_
      split
      · exact .of_pure l
      · exact comes_of_callsBuiltins scope right h.2
  | .ifElse body condition otherwise, h => by
      simp only [callsBuiltins, Bool.and_eq_true] at h
      simp only [eval]
      refine (comes_of_callsBuiltins scope condition h.1.2).bind fun t => ?_
      split
      · exact comes_of_callsBuiltins scope body h.1.1
      · exact comes_of_callsBuiltins scope otherwise h.2

theorem comes_of_allCallBuiltins (scope : Scope) :
    ∀ cs : List Code, allCallBuiltins cs = true → Comes (evalAll builtinsOnly scope cs)
  | [], _ => by simpa only [evalAll] using Comes.of_pure []
  | c :: cs, h => by
      simp only [allCallBuiltins, Bool.and_eq_true] at h
      simp only [evalAll]
      exact (comes_of_callsBuiltins scope c h.1).bind fun v =>
        (comes_of_allCallBuiltins scope cs h.2).bind fun vs => .of_pure (v :: vs)

end

theorem HostFree.of_callsBuiltins {code : Code} (h : code.callsBuiltins = true) (scope : Scope) :
    code.HostFree scope := by
  intro w
  obtain ⟨out, hout⟩ := comes_of_callsBuiltins scope code h { recording := true } w
  rw [evaluate_eq_outcome, hout]
  exact ⟨_, rfl⟩

end Code

theorem applyFunc_callsBuiltins (announce : Announce) :
    Evaluation.CallsBuiltins (applyFunc announce) := by
  intro f args b hf
  simp only [applyFunc, hf]

end LiveUI
