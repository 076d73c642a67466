import LiveUI.Proofs.Number.Signs
import LiveUI.Value.Basic

/-! # Values that equal themselves

Equality of values as writes see it compares doubles as numbers, so a value does not equal itself
where a part of it is not a number. Every other value does. -/

namespace LiveUI.Value

mutual

/-- The value is a double that is not a number, or has one as an element. -/
def hasNaN : Value → Bool
  | float x => x.isNaN
  | list items => anyNaN items
  | nil | bool _ | int _ | str _ | object _ | func _ => false

def anyNaN : List Value → Bool
  | [] => false
  | v :: vs => hasNaN v || anyNaN vs

end

theorem float_beq_self {x : Float} (h : x.isNaN = false) : (x == x) = true := by
  rw [Float.beq_self_iff]
  rintro rfl
  exact absurd h (by decide)

mutual

theorem beq_self : ∀ v : Value, v.hasNaN = false → v.beq v = true
  | nil, _ | str _, _ | object _, _ | func _, _ | int _, _ => by simp [beq]
  | bool b, _ => by cases b <;> rfl
  | float _, h => float_beq_self h
  | list items, h => beqList_self items h

theorem beqList_self : ∀ vs : List Value, anyNaN vs = false → beqList vs vs = true
  | [], _ => rfl
  | v :: vs, h => by
      simp only [anyNaN, Bool.or_eq_false_iff] at h
      rw [beqList, beq_self v h.1, beqList_self vs h.2]
      rfl

end

/-! ## Plain values

Equality of values is not transitive among numbers either. On values made of nothing, integers, strings,
objects and lists it is an equivalence: two of them are equal when they are the same but for the type
names that handles carry. -/

mutual

/-- No truth value, double or function is a part of the value. -/
def plain : Value → Bool
  | nil | int _ | str _ | object _ => true
  | list items => allPlain items
  | bool _ | float _ | func _ => false

def allPlain : List Value → Bool
  | [] => true
  | v :: vs => plain v && allPlain vs

end

mutual

/-- The value with the type names of handles left out. -/
def bare : Value → Value
  | object o => object ⟨o.id, ""⟩
  | list items => list (allBare items)
  | v => v

def allBare : List Value → List Value
  | [] => []
  | v :: vs => bare v :: allBare vs

end

mutual

theorem beq_iff_bare : ∀ a b : Value, a.plain = true → b.plain = true →
    (a.beq b = true ↔ a.bare = b.bare)
  | nil, b, _, hb => by
      cases b <;> simp_all [plain, beq, bare, asFloat?]
  | int n, b, _, hb => by
      cases b <;> simp_all [plain, beq, bare, asFloat?]
  | str s, b, _, hb => by
      cases b <;> simp_all [plain, beq, bare, asFloat?]
  | object o, b, _, hb => by
      cases b <;> simp_all [plain, beq, bare, asFloat?]
  | list items, b, ha, hb => by
      cases b with
      | list items' =>
          simp only [beq, bare, list.injEq]
          exact beqList_iff_allBare items items' ha hb
      | _ => simp_all [plain, beq, bare, asFloat?]

theorem beqList_iff_allBare : ∀ as bs : List Value, allPlain as = true → allPlain bs = true →
    (beqList as bs = true ↔ allBare as = allBare bs)
  | [], [], _, _ => by simp [beqList]
  | [], _ :: _, _, _ => by simp [beqList, allBare]
  | _ :: _, [], _, _ => by simp [beqList, allBare]
  | a :: as, b :: bs, ha, hb => by
      simp only [allPlain, Bool.and_eq_true] at ha hb
      simp only [beqList, allBare, Bool.and_eq_true, List.cons.injEq]
      rw [beq_iff_bare a b ha.1 hb.1, beqList_iff_allBare as bs ha.2 hb.2]

end

theorem eq_iff_bare {a b : Value} (ha : a.plain = true) (hb : b.plain = true) :
    (a == b) = true ↔ a.bare = b.bare :=
  beq_iff_bare a b ha hb

end LiveUI.Value
