import LiveUI.World.Basic

/-!
# Objects that nobody refers to

An object lives as long as something refers to it: a value that the host keeps, an attribute or a
child of a living object, or a binding in use. A binding is in use while its target lives and owns
it, or while the host keeps it; it refers to the slots of its frame, to those of the run that made
it and to the constants of its code. Objects that refer to each other in a ring keep each other
alive. A statement names the target of its binding, so that the frame has it or the host keeps it,
and no binding at work loses its target.
-/

namespace LiveUI

namespace Value

mutual

/-- The objects that a value refers to. -/
def objects : Value → List Nat
  | object o => [o.id]
  | list items => objectsList items
  | _ => []

def objectsList : List Value → List Nat
  | [] => []
  | v :: vs => objects v ++ objectsList vs

end

end Value

namespace Code

mutual

/-- The constants in code. -/
def constants : Code → List Value
  | const v => [v]
  | slot _ | change => []
  | list items => constantsList items
  | attr value _ => constants value
  | index value i => constants value ++ constants i
  | call func args => constants func ++ constantsList args
  | unary _ operand => constants operand
  | binary _ left right => constants left ++ constants right
  | boolOp _ left right => constants left ++ constants right
  | ifElse body condition otherwise => constants body ++ constants condition ++ constants otherwise

def constantsList : List Code → List Value
  | [] => []
  | c :: cs => constants c ++ constantsList cs

end

end Code

/-- The objects that an object refers to. Its parent is not among them. -/
def Object.references (x : Object) : List Nat :=
  Value.objectsList (x.attrs.map (·.2)) ++ x.children.map (·.id)

/-- A binding is in use, if the objects `living` are alive. -/
def Binding.isInUse (b : Binding) (living : List Nat) : Bool :=
  b.held || (b.owned && living.contains b.target.id)

namespace World

/-- The values that a binding refers to. -/
def valuesOf (w : World) (b : Binding) : List Value :=
  b.frame.slots ++ b.run.toList.flatMap w.runValues ++ b.code.constants

/-- The objects that one of the values `kept` or something in use refers to, if the objects `living`
are alive. -/
def referenced (w : World) (kept : List Value) (living : List Nat) : List Nat :=
  Value.objectsList (kept ++ w.memory.names.map (·.2)) ++
    (w.objects.filter fun x => living.contains x.handle.id).flatMap Object.references ++
    (w.bindings.filter (·.isInUse living)).flatMap fun b => Value.objectsList (w.valuesOf b)

/-- Those of the objects `ids` that something refers to, if they alone are alive. -/
def survivors (w : World) (kept : List Value) (ids : List Nat) : List Nat :=
  let referenced := w.referenced kept ids
  ids.filter fun i => referenced.contains i

/-- What is left of the objects `ids` when those without a reference are taken away, again and
again, since each of them may have had the last reference to others. -/
def livingOf (w : World) (kept : List Value) (ids : List Nat) : List Nat :=
  if (w.survivors kept ids).length < ids.length then w.livingOf kept (w.survivors kept ids)
  else ids
termination_by ids.length

/-- The objects that are alive while the host refers to the values `kept`. -/
def living (w : World) (kept : List Value) : List Nat :=
  w.livingOf kept (w.objects.map (·.handle.id))

/-- Let go of the bindings of an object that is gone. -/
def disown (w : World) (bindings : List Nat) : World :=
  bindings.foldl (fun w b =>
    (w.modifyBinding b fun x => { x with owned := false }).release b) w

/-- Remove every object that neither the values `kept` nor anything else in use refers to. The
bindings that they owned are let go of, and a run whose bindings are all gone is forgotten. -/
def reclaim (w : World) (kept : List Value) : World :=
  let living := w.living kept
  let (alive, dead) := w.objects.partition fun x => living.contains x.handle.id
  let w := disown { w with objects := alive } (dead.flatMap (·.bindings))
  { w with runs := w.runs.filter fun r =>
      w.bindings.any fun b => b.run == some r.id && (b.held || b.owned) }

/-! ## Laws -/

/-- Nothing comes to life. -/
theorem livingOf_subset (w : World) (kept : List Value) (ids : List Nat) :
    w.livingOf kept ids ⊆ ids := by
  fun_induction livingOf w kept ids with
  | case1 ids _ ih => exact fun x hx => (List.mem_filter.1 (ih hx)).1
  | case2 ids => exact fun _ hx => hx

/-- Each living object is referred to by something in use. -/
theorem livingOf_subset_referenced (w : World) (kept : List Value) (ids : List Nat) :
    w.livingOf kept ids ⊆ w.referenced kept (w.livingOf kept ids) := by
  fun_induction livingOf w kept ids with
  | case1 ids _ ih => exact ih
  | case2 ids h =>
      intro x hx
      have whole := List.length_filter_eq_length_iff.1
        (Nat.le_antisymm (List.length_filter_le ..) (Nat.not_lt.1 h))
      simpa using whole x hx

/-- An object that the host refers to is alive. -/
theorem mem_livingOf_of_kept (w : World) (kept : List Value) (ids : List Nat) (i : Nat)
    (hi : i ∈ ids) (hk : i ∈ Value.objectsList (kept ++ w.memory.names.map (·.2))) :
    i ∈ w.livingOf kept ids := by
  fun_induction livingOf w kept ids with
  | case1 ids _ ih => exact ih (List.mem_filter.2 ⟨hi, by simp [referenced, hk]⟩)
  | case2 ids => exact hi

end World

end LiveUI
