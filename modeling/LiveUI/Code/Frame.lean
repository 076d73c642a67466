import LiveUI.Value.Basic

/-!
# Frames

The slots of one run of a template. A slot that was never written holds nothing, and a frame grows
to take a slot beyond its end.
-/

namespace LiveUI

structure Frame where
  slots : List Value := []
deriving Inhabited

namespace Frame

def ofSize (n : Nat) : Frame :=
  ⟨List.replicate n .nil⟩

def size (f : Frame) : Nat :=
  f.slots.length

def isEmpty (f : Frame) : Bool :=
  f.slots.isEmpty

def get (f : Frame) (slot : Nat) : Value :=
  f.slots.getD slot .nil

def set (f : Frame) (slot : Nat) (v : Value) : Frame :=
  ⟨(f.slots ++ List.replicate (slot + 1 - f.slots.length) Value.nil).set slot v⟩

theorem size_set (f : Frame) (slot : Nat) (v : Value) :
    (f.set slot v).size = max f.size (slot + 1) := by
  simp only [set, size, List.length_set, List.length_append, List.length_replicate]
  omega

theorem get_set_self (f : Frame) (slot : Nat) (v : Value) : (f.set slot v).get slot = v := by
  have h : slot < (f.set slot v).slots.length := by
    have := size_set f slot v
    simp only [size] at this
    omega
  simp only [get, List.getD_eq_getElem?_getD, List.getElem?_eq_getElem h, Option.getD_some]
  simp [set]

end Frame

end LiveUI
