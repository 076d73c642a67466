import LiveUI.Value.Call

/-! # The parts of a result

Operators and builtins make numbers, truth values and strings, or put together what they find in
their operands. What is so of every part of the operands is so of every part of the result. -/

namespace LiveUI

/-- What a computation comes to, if it does not fail, is as `P` says. -/
def Gives {α : Type} (P : α → Prop) (r : Except EvalError α) : Prop :=
  ∀ a, r = .ok a → P a

namespace Gives

variable {α β : Type} {P : α → Prop} {Q : β → Prop}

theorem ok {a : α} (h : P a) : Gives P (.ok a) := by
  intro b hb
  cases hb
  exact h

theorem error (e : EvalError) : Gives P (.error e) :=
  nofun

theorem bind {r : Except EvalError α} {f : α → Except EvalError β} (hr : Gives P r)
    (hf : ∀ a, P a → Gives Q (f a)) : Gives Q (r >>= f) := by
  cases r with
  | error e => exact error e
  | ok a => exact hf a (hr a rfl)

theorem map {r : Except EvalError α} {f : α → β} (hr : Gives P r) (hf : ∀ a, P a → Q (f a)) :
    Gives Q (f <$> r) := by
  cases r with
  | error e => exact error e
  | ok a => exact ok (hf a (hr a rfl))

theorem trivial (r : Except EvalError α) : Gives (fun _ => True) r :=
  fun _ _ => True.intro

end Gives

namespace Value

/-- A value without parts, and without an identity. -/
def isScalar : Value → Bool
  | nil | bool _ | int _ | float _ | str _ => true
  | list _ | object _ | func _ => false

/-- A property that every scalar has, and a list when all its elements have it. -/
structure Partwise (P : Value → Prop) : Prop where
  scalar : ∀ v : Value, v.isScalar = true → P v
  list : ∀ items, P (list items) ↔ ∀ v ∈ items, P v

namespace Partwise

variable {P : Value → Prop} (hP : Partwise P)

include hP

/-- A result that is a scalar whatever it is. -/
theorem of_map {α : Type} {f : α → Value} (hf : ∀ a, (f a).isScalar = true)
    (r : Except EvalError α) : Gives P (f <$> r) :=
  (Gives.trivial r).map fun a _ => hP.scalar _ (hf a)

/-! ## Operators -/

theorem arithmetic (op : BinaryOp) (ints : Int64 → Int64 → Except EvalError Int64)
    (floats : Float → Float → Except EvalError Float) (left right : Value) :
    Gives P (arithmetic op ints floats left right) := by
  unfold Value.arithmetic
  split
  · exact hP.of_map (fun _ => rfl) _
  · split
    · exact hP.of_map (fun _ => rfl) _
    · exact .error _

theorem unary (op : UnaryOp) (v : Value) : Gives P (unary op v) := by
  unfold Value.unary
  split
  · exact .ok (hP.scalar _ rfl)
  · exact .ok (hP.scalar _ rfl)
  · split
    · exact hP.of_map (fun _ => rfl) _
    · exact .error _

/-- An element of a list has what the list has, and a character is a scalar. -/
theorem subscript {base : Value} (hbase : P base) (index : Value) :
    Gives P (subscript base index) := by
  unfold Value.subscript
  split
  · exact .error _
  · split
    next items =>
      refine (Gives.trivial _).bind fun n _ => .ok ?_
      rw [List.getD_eq_getElem?_getD]
      cases hitem : items[n]? with
      | none => exact hP.scalar _ rfl
      | some v => exact (hP.list items).mp hbase v (List.mem_of_getElem? hitem)
    · exact (Gives.trivial _).bind fun n _ => .ok (hP.scalar _ rfl)
    · exact .error _

theorem add {left right : Value} (hleft : P left) (hright : P right) : Gives P (add left right) := by
  unfold Value.add
  split
  · exact .ok (hP.scalar _ rfl)
  · rw [hP.list] at hleft hright
    refine .ok ((hP.list _).mpr fun v hv => ?_)
    rcases List.mem_append.mp hv with hv | hv
    · exact hleft v hv
    · exact hright v hv
  · exact hP.arithmetic _ _ _ _ _

/-- Copies of a list one after another have the elements of the list. -/
theorem repeated {items : List Value} (hitems : ∀ v ∈ items, P v) (times : Int64) :
    Gives P (Value.list <$> Value.repeated items times) := by
  refine Gives.map (P := fun copies => ∀ v ∈ copies, P v) ?_ fun copies => (hP.list copies).mpr
  simp only [Value.repeated]
  split
  · exact .ok nofun
  · split
    · exact .error _
    · refine .ok fun v hv => ?_
      obtain ⟨copy, hcopy, hv⟩ := List.mem_flatten.mp hv
      exact hitems v (List.eq_of_mem_replicate hcopy ▸ hv)

theorem mul {left right : Value} (hleft : P left) (hright : P right) : Gives P (mul left right) := by
  unfold Value.mul
  split
  · exact hP.of_map (fun _ => rfl) _
  · exact hP.of_map (fun _ => rfl) _
  · exact hP.repeated ((hP.list _).mp hleft) _
  · exact hP.repeated ((hP.list _).mp hright) _
  · exact hP.arithmetic _ _ _ _ _

theorem div (left right : Value) : Gives P (div left right) := by
  unfold Value.div
  split
  · exact hP.of_map (fun _ => rfl) _
  · exact .error _

theorem ordered (holds : Ordering → Bool) (left right : Value) :
    Gives P (ordered holds left right) :=
  (Gives.trivial _).bind fun _ _ => .ok (hP.scalar _ rfl)

theorem binary (op : BinaryOp) {left right : Value} (hleft : P left) (hright : P right) :
    Gives P (binary op left right) := by
  cases op with
  | add => exact hP.add hleft hright
  | mul => exact hP.mul hleft hright
  | div => exact hP.div left right
  | sub | floorDiv | mod => exact hP.arithmetic _ _ _ _ _
  | eq | ne => exact .ok (hP.scalar _ rfl)
  | lt | le | gt | ge => exact hP.ordered _ _ _
  | isIn | notIn => exact hP.of_map (fun _ => rfl) _

/-! ## Builtins -/

omit hP in
theorem only (b : Builtin) {args : List Value} (hargs : ∀ v ∈ args, P v) :
    Gives P (b.only args) := by
  unfold Builtin.only
  split
  · exact .ok (hargs _ List.mem_cons_self)
  · exact .error _

theorem lenOf (v : Value) : Gives P (Builtin.lenOf v) := by
  unfold Builtin.lenOf
  split
  · exact .ok (hP.scalar _ rfl)
  · exact .ok (hP.scalar _ rfl)
  · exact .error _

theorem toInt (v : Value) : Gives P (Builtin.toInt v) := by
  unfold Builtin.toInt
  split
  · split
    · exact .ok (hP.scalar _ rfl)
    · exact .error _
  · split
    · split
      · exact hP.of_map (fun _ => rfl) _
      · exact .error _
    · exact .ok (hP.scalar _ rfl)
    · exact .error _

theorem toFloat (v : Value) : Gives P (Builtin.toFloat v) := by
  unfold Builtin.toFloat
  split
  · split
    · exact .ok (hP.scalar _ rfl)
    · exact .error _
  · split
    · exact .ok (hP.scalar _ rfl)
    · exact .error _

theorem magnitude (v : Value) : Gives P (Builtin.magnitude v) := by
  unfold Builtin.magnitude
  split
  · exact .ok (hP.scalar _ rfl)
  · split
    · exact hP.of_map (fun _ => rfl) _
    · exact .error _

omit hP in
theorem keepBest (keep : Ordering) {best : Value} (hbest : P best) {vs : List Value}
    (hvs : ∀ v ∈ vs, P v) : Gives P (Builtin.keepBest keep best vs) := by
  induction vs generalizing best with
  | nil => exact .ok hbest
  | cons v vs ih =>
      refine (Gives.trivial _).bind fun o _ => ih ?_ fun u hu => hvs u (List.mem_cons_of_mem v hu)
      split
      · exact hvs v List.mem_cons_self
      · exact hbest

/-- The extreme is one of the arguments, or of the elements of the only one. -/
theorem extreme (b : Builtin) (keep : Ordering) {args : List Value} (hargs : ∀ v ∈ args, P v) :
    Gives P (b.extreme keep args) := by
  have hkeep : ∀ {v : Value} {vs : List Value}, (∀ u ∈ v :: vs, P u) →
      Gives P (Builtin.keepBest keep v vs) :=
    fun hvs => keepBest keep (hvs _ List.mem_cons_self) fun u hu =>
      hvs u (List.mem_cons_of_mem _ hu)
  unfold Builtin.extreme
  split
  next items =>
    have hitems := (hP.list items).mp (hargs _ List.mem_cons_self)
    cases items with
    | nil => exact .error _
    | cons v vs => exact hkeep hitems
  next => exact .error _
  next =>
    cases args with
    | nil => exact .error _
    | cons v vs => exact hkeep hargs

theorem apply (b : Builtin) {args : List Value} (hargs : ∀ v ∈ args, P v) :
    Gives P (b.apply args) := by
  cases b with
  | len => exact (only _ hargs).bind fun v _ => hP.lenOf v
  | str => exact hP.of_map (fun _ => rfl) _
  | int => exact (only _ hargs).bind fun v _ => hP.toInt v
  | float => exact (only _ hargs).bind fun v _ => hP.toFloat v
  | bool => exact hP.of_map (fun _ => rfl) _
  | abs => exact (only _ hargs).bind fun v _ => hP.magnitude v
  | min => exact hP.extreme _ _ hargs
  | max => exact hP.extreme _ _ hargs

end Partwise

end Value

end LiveUI
