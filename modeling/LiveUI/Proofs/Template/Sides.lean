import LiveUI.Proofs.Template.Enclosure
import LiveUI.Proofs.World.Reclaiming
import LiveUI.Template.View

/-! # Sides

Each call of a define has its side of the world: the objects that its arguments reach and those that
it made. The program goes on by writing to objects of one side. Where that side is all in a realm,
and the other side all outside, the other side stays as it is as long as no value that is written
leads there. -/

namespace LiveUI

namespace World

/-! ## Reaching -/

/-- One step from a value: to an element, to an attribute, to the parent or to a child. -/
inductive Linked (w : World) : Value → Value → Prop where
  | leads {u v : Value} (h : w.Leads u v) : Linked w u v
  | parent {o p : Handle} {x : Object} (hx : w.object? o = some x) (hp : x.parent = some p) :
      Linked w (.object o) (.object p)
  | child {o p : Handle} {x : Object} (hx : w.object? o = some x) (hp : p ∈ x.children) :
      Linked w (.object o) (.object p)

/-- From one of the values `vs` some steps lead to a value, or none. -/
def Comprises (w : World) (vs : List Value) (v : Value) : Prop :=
  ∃ u ∈ vs, Relation.ReflTransGen w.Linked u v

/-- Nothing leads out of the objects `P`. -/
def Bounds (w : World) (P : Nat → Prop) : Prop :=
  ∀ x ∈ w.objects, P x.handle.id → (∀ a ∈ x.attrs, ∀ id ∈ a.2.objects, P id) ∧
    (∀ p ∈ x.parent, P p.id) ∧ ∀ p ∈ x.children, P p.id

/-- The objects among the values `M` are alive, and nobody has touched them: they have no observers
and no bindings. -/
def Untouched (w : World) (M : Value → Prop) : Prop :=
  ∀ o, M (.object o) → ∃ x, w.object? o = some x ∧ x.observers = [] ∧ x.bindings = []

/-- The objects among some values, by their numbers. -/
def objectsAmong (M : Value → Prop) (id : Nat) : Prop :=
  ∃ o : Handle, o.id = id ∧ M (.object o)

/-- The two lists of values reach no object in common, and none that anybody has touched. -/
structure Separate (w : World) (vs us : List Value) : Prop where
  left : w.Untouched (w.Comprises vs)
  right : w.Untouched (w.Comprises us)
  disjoint : ∀ id, objectsAmong (w.Comprises vs) id → ¬objectsAmong (w.Comprises us) id

/-- The side of what led from `w` to `w'`, given the values `M`: their objects, and those that it
made. -/
def side (w w' : World) (M : Value → Prop) (id : Nat) : Prop :=
  objectsAmong M id ∨ w.nextObject ≤ id ∧ id < w'.nextObject

/-! ## Writing on one side -/

/-- A value that can be written on the side `S` without reaching the side `T`. Of the objects that
there are it leads, through attributes and elements, to none of `T`, and to no observed one that is
not of `S`. It leads to no function of the host. -/
structure ClearOf (w : World) (S T : Nat → Prop) (v : Value) : Prop where
  objects : ∀ o, w.Reaches v (.object o) →
    o.id < w.nextObject ∧ ¬T o.id ∧ (S o.id ∨ w.observers o = [])
  functions : w.Harmless v

/-- The side `S` after a write of `v` that led from `w` to `w'`. -/
def grown (w w' : World) (S : Nat → Prop) (v : Value) (id : Nat) : Prop :=
  S id ∨ side w w' (w.Reaches v) id

/-- The program goes on for a while, and writes on the side `S` clear of `T`: it makes objects, and
sets and emits attributes. Objects that nobody refers to any more are reclaimed, but none of `T`. -/
inductive Driven (T : Nat → Prop) : (Nat → Prop) → World → World → Prop where
  | done {S : Nat → Prop} {w : World} : Driven T S w w
  | create {S : Nat → Prop} {w w' : World} {typeName : String} {attrs : List (String × Value)}
      (rest : Driven T S (w.create typeName attrs).2 w') : Driven T S w w'
  | reclaim {S : Nat → Prop} {w w' : World} {kept : List Value}
      (hkept : ∀ o, T o.id → w.isAlive o = true → (w.reclaim kept).isAlive o = true)
      (rest : Driven T S (w.reclaim kept) w') : Driven T S w w'
  | set {S : Nat → Prop} {w w₁ w' : World} {n : Nat} {o : Handle} {attr : String} {v : Value}
      {changed : Bool} (ho : S o.id) (hv : w.ClearOf S T v)
      (hset : setAttr (announce n) o attr v w = some (changed, w₁))
      (rest : Driven T (w.grown w₁ S v) w₁ w') : Driven T S w w'
  | emit {S : Nat → Prop} {w w₁ w' : World} {n : Nat} {o : Handle} {attr : String} {v : Value}
      (ho : S o.id) (hv : w.ClearOf S T v)
      (hemit : emitAttr (announce n) o attr v w = some (⟨⟩, w₁))
      (rest : Driven T (w.grown w₁ S v) w₁ w') : Driven T S w w'

/-- The objects of `T` have the same attributes, observers and all else, and their bindings are the
same. -/
structure SameOn (T : Nat → Prop) (w w' : World) : Prop where
  objects : ∀ o, T o.id → w'.object? o = w.object? o
  bindings : ∀ o x, T o.id → w.object? o = some x → ∀ b ∈ x.bindings, w'.binding? b = w.binding? b

/-- Whatever is written on the side `S` clear of `T` leaves `T` as it is. -/
def Isolated (w : World) (S T : Nat → Prop) : Prop :=
  ∀ w', Driven T S w w' → SameOn T w w'

variable {w w' w'' : World} {S T : Nat → Prop}

theorem SameOn.refl (T : Nat → Prop) (w : World) : SameOn T w w :=
  ⟨fun _ _ => rfl, fun _ _ _ _ _ _ => rfl⟩

theorem SameOn.trans (h : SameOn T w w') (h' : SameOn T w' w'') : SameOn T w w'' := by
  refine ⟨fun o ho => (h'.objects o ho).trans (h.objects o ho), fun o x ho hx b hb => ?_⟩
  exact (h'.bindings o x ho ((h.objects o ho).trans hx) b hb).trans (h.bindings o x ho hx b hb)

theorem Bounds.comprises {P : Nat → Prop} (h : w.Bounds P) {vs : List Value}
    (hvs : ∀ v ∈ vs, ∀ id ∈ v.objects, P id) {v : Value} (hv : w.Comprises vs v) :
    ∀ id ∈ v.objects, P id := by
  obtain ⟨u, hu, hsteps⟩ := hv
  induction hsteps with
  | refl => exact hvs u hu
  | tail _ hlast ih =>
      have hbounds {o : Handle} {x : Object} (hx : w.object? o = some x)
          (ho : ∀ id ∈ (Value.object o).objects, P id) :=
        h x (List.mem_of_find?_eq_some hx) (handle_of_object? hx ▸ ho o.id (by simp [Value.objects]))
      cases hlast with
      | leads hleads =>
          cases hleads with
          | element hmem =>
              exact fun id hid => ih id (Value.mem_objectsList.mpr ⟨_, hmem, hid⟩)
          | attr hattr =>
              obtain ⟨x, hx, hget⟩ := Option.bind_eq_some_iff.mp hattr
              obtain ⟨a, ha, rfl⟩ := Option.map_eq_some_iff.mp hget
              exact (hbounds hx ih).1 a (List.mem_of_find?_eq_some ha)
      | parent hx hp => simpa [Value.objects] using (hbounds hx ih).2.1 _ hp
      | child hx hp => simpa [Value.objects] using (hbounds hx ih).2.2 _ hp

/-- Where no attribute holds a function of the host, none is come upon from innocent values. -/
theorem Comprises.isInnocent (hw : ∀ x ∈ w.objects, ∀ a ∈ x.attrs, a.2.isInnocent = true)
    {vs : List Value} (hvs : ∀ v ∈ vs, v.isInnocent = true) {v : Value} (hv : w.Comprises vs v) :
    v.isInnocent = true := by
  obtain ⟨u, hu, hsteps⟩ := hv
  induction hsteps with
  | refl => exact hvs u hu
  | tail _ hlast ih =>
      cases hlast with
      | leads hleads => exact Reaches.isInnocent hw (.single hleads) ih
      | parent | child => rfl

/-- Values that lead to nothing but each other, none of them a function of the host. Their objects
have been made. -/
structure Catchment (w : World) (M : Value → Prop) : Prop where
  leads : ∀ {u v}, M u → w.Leads u v → M v
  objects : ∀ {o}, M (.object o) → o.id < w.nextObject
  functions : ∀ {f}, M (.func f) → f.kind ≠ .host

theorem Untouched.catchment {vs : List Value} (h : w.Untouched (w.Comprises vs)) (hw : w.Numbered)
    (hfunctions : ∀ f, w.Comprises vs (.func f) → f.kind ≠ .host) :
    w.Catchment (w.Comprises vs) where
  leads := by
    rintro u v ⟨s, hs, hu⟩ huv
    exact ⟨s, hs, hu.tail (.leads huv)⟩
  objects ho := by
    obtain ⟨x, hx, -⟩ := h _ ho
    exact hw.lt_of_object? hx
  functions := hfunctions _

theorem ClearOf.catchment {v : Value} (h : w.ClearOf S T v) : w.Catchment (w.Reaches v) where
  leads hu huv := hu.tail huv
  objects ho := (h.objects _ ho).1
  functions := h.functions _

namespace Catchment

variable {M : Value → Prop} {R : Realm}

/-- It is one also in a later world in which its objects are the same. -/
theorem of_same (h : w.Catchment M) (hsame : ∀ o, M (.object o) → w'.object? o = w.object? o)
    (hle : w.nextObject ≤ w'.nextObject) : w'.Catchment M where
  leads hu huv := by
    cases huv with
    | element hv => exact h.leads hu (.element hv)
    | attr hv =>
        rw [attr?, hsame _ hu] at hv
        exact h.leads hu (.attr hv)
  objects ho := Nat.lt_of_lt_of_le (h.objects ho) hle
  functions := h.functions

theorem lt (h : w.Catchment M) {id : Nat} (hid : objectsAmong M id) : id < w.nextObject := by
  obtain ⟨o, rfl, ho⟩ := hid
  exact h.objects ho

mutual

theorem contains (h : w.Catchment M) : ∀ v, M v → (R.joined (objectsAmong M)).Contains w v
  | .object o, hv => Realm.contains_object.mpr ⟨.inr ⟨o, rfl, hv⟩, h.objects hv⟩
  | .func f, hv => ⟨by simp [Value.objects], by simpa [Value.isInnocent] using h.functions hv⟩
  | .list items, hv => ((Realm.partwise_contains _ w).list items).mpr
      (containsAll h items fun v hmem => h.leads hv (.element hmem))
  | .nil, _ | .bool _, _ | .int _, _ | .float _, _ | .str _, _ =>
      (Realm.partwise_contains _ w).scalar _ rfl

theorem containsAll (h : w.Catchment M) :
    ∀ vs : List Value, (∀ v ∈ vs, M v) → ∀ v ∈ vs, (R.joined (objectsAmong M)).Contains w v
  | [], _ => nofun
  | v :: vs, hvs => by
      simp only [List.forall_mem_cons] at hvs ⊢
      exact ⟨contains h v hvs.1, containsAll h vs hvs.2⟩

end

/-- A realm takes in all that can be come upon from a value, if nobody else observes it. -/
theorem isSealed (h : w.Catchment M) (hR : R.Sealed w)
    (hobservers : ∀ o, M (.object o) → R.objects o.id ∨ w.observers o = []) :
    (R.joined (objectsAmong M)).Sealed w := by
  refine hR.joined ?_ ?_
  · rintro o attr v ⟨p, hid, hp⟩ hv
    rw [← attr?_congr w hid] at hv
    exact h.contains v (h.leads hp (.attr hv))
  · rintro o ⟨p, hid, hp⟩
    rw [← hid, ← observers_congr w hid]
    exact hobservers p hp

end Catchment

end World

open World

/-! ## A realm on one side -/

/-- The realm `R` has all of the side `S` and nothing of the realm `T`, whose objects own bindings of
`T` only. -/
structure Realm.Parts (R T : Realm) (w : World) (S : Nat → Prop) : Prop where
  isSealed : R.Sealed w
  inside : ∀ id, S id → R.Has w id
  objects : ∀ id, T.objects id → ¬R.objects id
  bindings : ∀ b, T.bindings b → ¬R.bindings b
  guarded : T.Guarded w
  owned : ∀ o x, T.objects o.id → w.object? o = some x → ∀ b ∈ x.bindings, T.bindings b

namespace Realm.Parts

variable {R T : Realm} {w w' : World} {S : Nat → Prop}

theorem sameOn (h : R.Parts T w S) (hstill : T.Still w w') : SameOn T.objects w w' :=
  ⟨hstill.objects, fun o x ho hx b hb => hstill.bindings b (h.owned o x ho hx b hb)⟩

/-- Where the other realm is the same, its objects own the same. -/
theorem still (h : R.Parts T w S) (hstill : T.Still w w') :
    ∀ o x, T.objects o.id → w'.object? o = some x → ∀ b ∈ x.bindings, T.bindings b := by
  intro o x ho hx
  exact h.owned o x ho (hstill.objects o ho ▸ hx)

/-- The realm that a value has been given to. -/
theorem give (h : R.Parts T w S) {v : Value} (hv : w.ClearOf S T.objects v) :
    (R.joined (objectsAmong (w.Reaches v))).Parts T w S := by
  refine ⟨hv.catchment.isSealed h.isSealed fun o ho => ?_, fun id hid => ?_, fun id hid => ?_,
    h.bindings, h.guarded, h.owned⟩
  · exact (hv.objects o ho).2.2.imp_left fun hS => (h.inside _ hS).1
  · exact ⟨.inl (h.inside id hid).1, (h.inside id hid).2⟩
  · rintro (hR | ⟨o, rfl, ho⟩)
    · exact h.objects id hid hR
    · exact (hv.objects o ho).2.1 hid

/-- A write of a value that was given to the realm. -/
theorem write (h : R.Parts T w S) {v : Value} (hv : w.ClearOf S T.objects v)
    (hin : (R.joined (objectsAmong (w.Reaches v))).Within w w') :
    (R.joined (objectsAmong (w.Reaches v))).Parts T w' (w.grown w' S v) ∧
      SameOn T.objects w w' := by
  have hgiven := h.give hv
  obtain ⟨hguarded, hstill⟩ := hgiven.guarded.within hin hgiven.objects hgiven.bindings
  refine ⟨⟨hin.isSealed, ?_, hgiven.objects, hgiven.bindings, hguarded, hgiven.still hstill⟩,
    hgiven.sameOn hstill⟩
  rintro id (hid | hid | ⟨hle, hlt⟩)
  · exact (hgiven.inside id hid).mono hin.nextObject
  · exact ⟨.inr hid, Nat.lt_of_lt_of_le (hv.catchment.lt hid) hin.nextObject⟩
  · exact ⟨.inl (h.isSealed.newObjects id hle), hlt⟩

/-- An object that somebody else makes is none of the realm's. -/
theorem create (h : R.Parts T w S) (typeName : String) (attrs : List (String × Value)) :
    (R.carried w (w.create typeName attrs).2).Parts T (w.create typeName attrs).2 S ∧
      SameOn T.objects w (w.create typeName attrs).2 := by
  have hnumbered := h.isSealed.numbered.create typeName attrs
  have hobject : ∀ o : Handle, o.id < w.nextObject →
      (w.create typeName attrs).2.object? o = w.object? o :=
    fun o ho => object?_create_of_ne typeName attrs (Nat.ne_of_lt ho)
  -- what is not of the realm has been made, since all numbers still to be given are
  have hmade : ∀ id, T.objects id → id < w.nextObject := fun id hid =>
    Nat.lt_of_not_le fun hle => h.objects id hid (h.isSealed.newObjects id hle)
  have hstill : T.Still w (w.create typeName attrs).2 :=
    ⟨fun o ho => hobject o (hmade _ ho), fun _ _ => rfl⟩
  refine ⟨⟨h.isSealed.carried hnumbered (fun o ho => hobject o ho.2) (fun _ _ => rfl)
    (Nat.le_succ _) (Nat.le_refl _), fun id hid => ?_, ?_, ?_, ⟨?_, ?_⟩, h.still hstill⟩,
    h.sameOn hstill⟩
  · exact ⟨.inl (h.inside id hid), Nat.lt_succ_of_lt (h.inside id hid).2⟩
  · rintro id hid (hR | hle)
    · exact h.objects id hid hR.1
    · exact Nat.not_le.mpr (hmade id hid) (Nat.le_of_succ_le hle)
  · rintro b hb (hR | hle)
    · exact h.bindings b hb hR.1
    · exact h.bindings b hb (h.isSealed.newBindings b hle)
  · intro b x hb hx s hs ho obs hobs
    rw [observers, hobject s.object (hmade _ ho)] at hobs
    exact h.guarded.unwatched b x hb hx s hs ho obs hobs
  · intro o y ho hy
    rcases object?_create hy with hy | ⟨-, rfl⟩
    · exact h.guarded.others o y ho hy
    · exact fun b hb => absurd hb List.not_mem_nil

/-- Objects are reclaimed, but none of the other realm. -/
theorem reclaim (h : R.Parts T w S) {kept : List Value}
    (hkept : ∀ o, T.objects o.id → w.isAlive o = true → (w.reclaim kept).isAlive o = true) :
    R.Parts T (w.reclaim kept) S ∧ SameOn T.objects w (w.reclaim kept) := by
  have hshrinks := Shrinks.reclaim w kept
  have hstill := Still.reclaim h.guarded h.isSealed.numbered hkept
  refine ⟨⟨h.isSealed.shrinks hshrinks, fun id hid => ?_, h.objects, h.bindings,
    h.guarded.shrinks hshrinks, h.still hstill⟩, h.sameOn hstill⟩
  exact (h.inside id hid).mono (Nat.le_of_eq hshrinks.nextObject.symm)

end Realm.Parts

/-- What is written on the side of a realm leaves the other realm alone, however many steps are
taken. -/
theorem World.Driven.sameOn {T : Realm} {S : Nat → Prop} {w w' : World}
    (run : Driven T.objects S w w') : ∀ {R : Realm}, R.Parts T w S → SameOn T.objects w w' := by
  induction run with
  | done => exact fun _ => .refl _ _
  | create _ ih =>
      intro R h
      obtain ⟨hparts, hsame⟩ := h.create _ _
      exact hsame.trans (ih hparts)
  | reclaim hkept _ ih =>
      intro R h
      obtain ⟨hparts, hsame⟩ := h.reclaim hkept
      exact hsame.trans (ih hparts)
  | @set S w w₁ w' n o attr v changed ho hv hset _ ih =>
      intro R h
      have hgiven := h.give hv
      obtain ⟨hin, -⟩ := setAttr_stays (announce_secludes _ n) hgiven.isSealed (hgiven.inside _ ho)
        attr (hv.catchment.contains v .refl) _ _ hset
      obtain ⟨hparts, hsame⟩ := h.write hv hin
      exact hsame.trans (ih hparts)
  | @emit S w w₁ w' n o attr v ho hv hemit _ ih =>
      intro R h
      have hgiven := h.give hv
      obtain ⟨hin, -⟩ := emitAttr_stays (announce_secludes _ n) hgiven.isSealed (hgiven.inside _ ho)
        attr (hv.catchment.contains v .refl) _ _ hemit
      obtain ⟨hparts, hsame⟩ := h.write hv hin
      exact hsame.trans (ih hparts)

end LiveUI
