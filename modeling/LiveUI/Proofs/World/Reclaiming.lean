import LiveUI.Proofs.World.Realms

/-! # Reclaiming

Objects that nobody refers to any more are taken away, and the bindings that they owned are let go
of. Nothing comes in their place, so a realm stays one. What is still alive stays as it is, unless one
of those bindings has observed it. -/

namespace LiveUI

/-- The object is the same, but for some observers that it has no more. -/
structure Object.Drops (x y : Object) : Prop where
  attrs : y.attrs = x.attrs
  bindings : y.bindings = x.bindings
  nextObserver : y.nextObserver = x.nextObserver
  parent : y.parent = x.parent
  children : y.children = x.children
  phase : y.phase = x.phase
  observers : y.observers ⊆ x.observers

/-- The binding does the same, but may have let go of observers. -/
structure Binding.Drops (x y : Binding) : Prop where
  target : y.target = x.target
  frame : y.frame = x.frame
  code : y.code = x.code
  subscriptions : y.subscriptions ⊆ x.subscriptions

namespace World

/-- Some objects are gone, and some observers of those that are left. -/
structure Shrinks (w w' : World) : Prop where
  ids : (w'.objects.map (·.handle.id)).Sublist (w.objects.map (·.handle.id))
  bindingIds : w'.bindings.map (·.id) = w.bindings.map (·.id)
  objects : ∀ o y, w'.object? o = some y → ∃ x, w.object? o = some x ∧ x.Drops y
  bindings : ∀ b y, w'.binding? b = some y → ∃ x, w.binding? b = some x ∧ x.Drops y
  nextObject : w'.nextObject = w.nextObject
  nextBinding : w'.nextBinding = w.nextBinding

variable {w w' w'' : World}

namespace Shrinks

theorem refl (w : World) : w.Shrinks w :=
  ⟨.refl _, rfl, fun _ y hy => ⟨y, hy, rfl, rfl, rfl, rfl, rfl, rfl, fun _ => id⟩,
    fun _ y hy => ⟨y, hy, rfl, rfl, rfl, fun _ => id⟩, rfl, rfl⟩

theorem trans (h : w.Shrinks w') (h' : w'.Shrinks w'') : w.Shrinks w'' := by
  refine ⟨h'.ids.trans h.ids, h'.bindingIds.trans h.bindingIds, fun o z hz => ?_, fun b z hz => ?_,
    h'.nextObject.trans h.nextObject, h'.nextBinding.trans h.nextBinding⟩
  · obtain ⟨y, hy, hdrops'⟩ := h'.objects o z hz
    obtain ⟨x, hx, hdrops⟩ := h.objects o y hy
    exact ⟨x, hx, hdrops'.attrs.trans hdrops.attrs, hdrops'.bindings.trans hdrops.bindings,
      hdrops'.nextObserver.trans hdrops.nextObserver, hdrops'.parent.trans hdrops.parent,
      hdrops'.children.trans hdrops.children, hdrops'.phase.trans hdrops.phase,
      fun _ hobs => hdrops.observers (hdrops'.observers hobs)⟩
  · obtain ⟨y, hy, hdrops'⟩ := h'.bindings b z hz
    obtain ⟨x, hx, hdrops⟩ := h.bindings b y hy
    exact ⟨x, hx, hdrops'.target.trans hdrops.target, hdrops'.frame.trans hdrops.frame,
      hdrops'.code.trans hdrops.code, fun _ hs => hdrops.subscriptions (hdrops'.subscriptions hs)⟩

theorem unobserve (w : World) (s : Subscription) : w.Shrinks (w.unobserve s) := by
  refine ⟨?_, rfl, fun o y hy => ?_, (refl w).bindings, rfl, rfl⟩
  · have hids : (w.unobserve s).objects.map (·.handle.id) = w.objects.map (·.handle.id) := by
      simp only [World.unobserve, World.modifyObject, List.map_map]
      refine List.map_congr_left fun x _ => ?_
      by_cases hx : x.handle.id = s.object.id <;> simp [hx]
    exact hids ▸ .refl _
  · rw [World.unobserve, object?_modifyObject w s.object o] at hy
    · split at hy
      · obtain ⟨x, hx, rfl⟩ := Option.map_eq_some_iff.mp hy
        exact ⟨x, hx, rfl, rfl, rfl, rfl, rfl, rfl, List.filter_subset_self _⟩
      · exact (refl w).objects o y hy
    · exact fun _ => rfl

theorem unobserveAll (w : World) (ss : List Subscription) :
    w.Shrinks (ss.foldl World.unobserve w) := by
  induction ss generalizing w with
  | nil => exact refl w
  | cons s ss ih => exact (unobserve w s).trans (ih _)

theorem modifyBinding (w : World) (b : Nat) {f : Binding → Binding} (hid : ∀ x, (f x).id = x.id)
    (hf : ∀ x : Binding, x.Drops (f x)) : w.Shrinks (w.modifyBinding b f) := by
  refine ⟨.refl _, w.ids_modifyBinding b hid, (refl w).objects, fun c y hy => ?_, rfl, rfl⟩
  rw [w.binding?_modifyBinding b c hid] at hy
  split at hy
  · obtain ⟨x, hx, rfl⟩ := Option.map_eq_some_iff.mp hy
    exact ⟨x, hx, hf x⟩
  · exact (refl w).bindings c y hy

theorem disconnect (w : World) (b : Nat) : w.Shrinks (w.disconnect b) := by
  unfold World.disconnect
  split
  · exact refl w
  · exact ((unobserveAll w _).trans (unobserveAll _ _)).trans
      (modifyBinding _ b (fun _ => rfl) fun _ => ⟨rfl, rfl, rfl, List.nil_subset _⟩)

theorem release (w : World) (b : Nat) : w.Shrinks (w.release b) := by
  obtain heq | heq := w.release_cases b
  · rw [heq]
    exact refl w
  · rw [heq]
    exact disconnect w b

/-- The target owns the binding no more. -/
theorem loosen (w : World) (b : Nat) :
    w.Shrinks (w.modifyBinding b fun x => { x with owned := false }) :=
  modifyBinding w b (fun _ => rfl) fun _ => ⟨rfl, rfl, rfl, fun _ => id⟩

theorem disown (w : World) (bs : List Nat) : w.Shrinks (w.disown bs) := by
  unfold World.disown
  induction bs generalizing w with
  | nil => exact refl w
  | cons b bs ih => exact ((loosen w b).trans (release _ b)).trans (ih _)

end Shrinks

/-- The world with no other objects than `ids`. -/
def keepOnly (w : World) (ids : List Nat) : World :=
  { w with objects := w.objects.filter fun x => ids.contains x.handle.id }

theorem object?_keepOnly (w : World) (ids : List Nat) (o : Handle) :
    (w.keepOnly ids).object? o = if ids.contains o.id then w.object? o else none := by
  simp only [object?, keepOnly, List.find?_filter]
  split
  next hin =>
    congr 1
    funext x
    by_cases hx : x.handle.id = o.id <;> simp_all
  next hout =>
    refine List.find?_eq_none.mpr fun x _ => ?_
    by_cases hx : x.handle.id = o.id
    · simpa [hx] using hout
    · simp [hx]

theorem Shrinks.keepOnly (w : World) (ids : List Nat) : w.Shrinks (w.keepOnly ids) := by
  refine ⟨List.filter_sublist.map _, rfl, fun o y hy => ?_, (refl w).bindings, rfl, rfl⟩
  rw [object?_keepOnly] at hy
  split at hy
  · exact (refl w).objects o y hy
  · cases hy

/-- The bindings of the objects that are not among `ids`. -/
def bindingsBut (w : World) (ids : List Nat) : List Nat :=
  (w.objects.filter fun x => !ids.contains x.handle.id).flatMap (·.bindings)

/-- A run whose bindings are all gone is forgotten. -/
def forgetRuns (w : World) : World :=
  { w with runs := w.runs.filter fun r =>
      w.bindings.any fun b => b.run == some r.id && (b.held || b.owned) }

/-- Objects are taken away, their bindings are let go of, and runs are forgotten. -/
theorem reclaim_eq (w : World) (kept : List Value) :
    w.reclaim kept =
      ((w.keepOnly (w.living kept)).disown (w.bindingsBut (w.living kept))).forgetRuns := by
  simp only [reclaim, List.partition_eq_filter_filter]
  rfl

theorem Shrinks.reclaim (w : World) (kept : List Value) : w.Shrinks (w.reclaim kept) := by
  have hruns (u : World) : u.Shrinks u.forgetRuns :=
    ⟨.refl _, rfl, (refl u).objects, (refl u).bindings, rfl, rfl⟩
  rw [reclaim_eq]
  exact ((Shrinks.keepOnly w _).trans (disown _ _)).trans (hruns _)

theorem Numbered.shrinks (h : w.Numbered) (hs : w.Shrinks w') : w'.Numbered := by
  refine ⟨h.distinct.sublist hs.ids, fun x hx => ?_, fun x hx => ?_, fun o y hy b hb => ?_,
    fun b y hy s hsub => ?_⟩
  · have hmem : x.handle.id ∈ w.objects.map (·.handle.id) :=
      hs.ids.subset (List.mem_map_of_mem hx)
    obtain ⟨y, hy, hid⟩ := List.mem_map.mp hmem
    rw [hs.nextObject, ← hid]
    exact h.objects y hy
  · have hmem : x.id ∈ w.bindings.map (·.id) := hs.bindingIds ▸ List.mem_map_of_mem hx
    obtain ⟨y, hy, hid⟩ := List.mem_map.mp hmem
    rw [hs.nextBinding, ← hid]
    exact h.bindings y hy
  · obtain ⟨x, hx, hdrops⟩ := hs.objects o y hy
    rw [hs.nextBinding]
    exact h.owned o x hx b (hdrops.bindings ▸ hb)
  · obtain ⟨x, hx, hdrops⟩ := hs.bindings b y hy
    refine (h.subscriptions b x hx s (hdrops.subscriptions hsub)).mono
      (Nat.le_of_eq hs.nextObject.symm) fun z hz => .inr ?_
    obtain ⟨u, hu, hdrops'⟩ := hs.objects s.object z hz
    exact ⟨u, hu, Nat.le_of_eq hdrops'.nextObserver.symm⟩

end World

namespace Realm

open World

variable {R T : Realm} {w w' : World}

/-- What is left of a realm is one. -/
theorem Sealed.shrinks (h : R.Sealed w) (hs : w.Shrinks w') : R.Sealed w' := by
  have hle := Nat.le_of_eq hs.nextObject.symm
  have hle' := Nat.le_of_eq hs.nextBinding.symm
  refine ⟨h.numbered.shrinks hs, hs.nextObject ▸ h.newObjects, hs.nextBinding ▸ h.newBindings,
    fun o attr v ho hv => ?_, fun o ho obs hobs => ?_, fun b y hb hy => ?_⟩
  · obtain ⟨y, hy, hattr⟩ := Option.bind_eq_some_iff.mp hv
    obtain ⟨x, hx, hdrops⟩ := hs.objects o y hy
    exact (h.attrs o attr v ho (Option.bind_eq_some_iff.mpr ⟨x, hx, hdrops.attrs ▸ hattr⟩)).mono hle
  · cases hy : w'.object? o with
    | none => simp [World.observers, hy] at hobs
    | some y =>
        obtain ⟨x, hx, hdrops⟩ := hs.objects o y hy
        refine (h.observers o ho obs ?_).mono hle'
        simp only [World.observers, hy, hx, Option.map_some, Option.getD_some] at hobs ⊢
        exact hdrops.observers hobs
  · obtain ⟨x, hx, hdrops⟩ := hs.bindings b y hy
    have hold := (h.bindings b x hb hx).mono hle
    exact ⟨hdrops.target ▸ hold.target, hdrops.frame ▸ hold.slots, hdrops.code ▸ hold.constants,
      fun s hsub => hold.subscriptions s (hdrops.subscriptions hsub)⟩

/-! ## What is still alive -/

/-- The objects and bindings of the realm are the same. -/
structure Still (T : Realm) (w w' : World) : Prop where
  objects : ∀ o, T.objects o.id → w'.object? o = w.object? o
  bindings : ∀ b, T.bindings b → w'.binding? b = w.binding? b

theorem Still.refl (T : Realm) (w : World) : T.Still w w :=
  ⟨fun _ _ => rfl, fun _ _ => rfl⟩

theorem Still.trans {w'' : World} (h : T.Still w w') (h' : T.Still w' w'') : T.Still w w'' :=
  ⟨fun o ho => (h'.objects o ho).trans (h.objects o ho),
    fun b hb => (h'.bindings b hb).trans (h.bindings b hb)⟩

/-- No other binding has observers in the realm, and no other object has bindings of the realm. -/
structure Guarded (T : Realm) (w : World) : Prop where
  unwatched : ∀ b x, ¬T.bindings b → w.binding? b = some x → ∀ s ∈ x.subscriptions,
    T.objects s.object.id → ∀ obs ∈ w.observers s.object, obs.id ≠ s.id
  others : ∀ o x, ¬T.objects o.id → w.object? o = some x → ∀ b ∈ x.bindings, ¬T.bindings b

/-- A change in another realm leaves it as it is, and guarded. -/
theorem Guarded.within (h : T.Guarded w) (hin : R.Within w w')
    (hobjects : ∀ id, T.objects id → ¬R.objects id)
    (hbindings : ∀ b, T.bindings b → ¬R.bindings b) : T.Guarded w' ∧ T.Still w w' := by
  refine ⟨⟨fun b x hb hx s hs ho obs hobs => ?_, fun o y ho hy b hb hown => ?_⟩,
    fun o ho => hin.objects o (hobjects o.id ho), fun b hb => hin.bindings b (hbindings b hb)⟩
  · by_cases hR : R.bindings b
    · exact absurd ((hin.isSealed.bindings b x hR hx).subscriptions s hs).1 (hobjects _ ho)
    · rw [hin.bindings b hR] at hx
      rw [observers, hin.objects s.object (hobjects _ ho)] at hobs
      exact h.unwatched b x hb hx s hs ho obs hobs
  · by_cases hR : R.objects o.id
    · rcases hin.past o y hR hy with ⟨-, hserves⟩ | ⟨x, hx, hgrows⟩
      · exact hbindings b hown (hserves b hb).1
      · rcases hgrows.bindings b hb with hb | hserves
        · exact h.others o x ho hx b hb hown
        · exact hbindings b hown hserves.1
    · rw [hin.objects o hR] at hy
      exact h.others o y ho hy b hb hown

theorem Guarded.shrinks (h : T.Guarded w) (hs : w.Shrinks w') : T.Guarded w' := by
  refine ⟨fun b y hb hy s hsub ho obs hobs => ?_, fun o y ho hy b hb => ?_⟩
  · obtain ⟨x, hx, hdrops⟩ := hs.bindings b y hy
    refine h.unwatched b x hb hx s (hdrops.subscriptions hsub) ho obs ?_
    cases hy : w'.object? s.object with
    | none => simp [observers, hy] at hobs
    | some y =>
        obtain ⟨x, hx, hdrops⟩ := hs.objects s.object y hy
        simp only [observers, hy, hx, Option.map_some, Option.getD_some] at hobs ⊢
        exact hdrops.observers hobs
  · obtain ⟨x, hx, hdrops⟩ := hs.objects o y hy
    exact h.others o x ho hx b (hdrops.bindings ▸ hb)

namespace Still

theorem modifyBinding (w : World) {b : Nat} (hb : ¬T.bindings b) {f : Binding → Binding}
    (hid : ∀ x, (f x).id = x.id) : T.Still w (w.modifyBinding b f) := by
  refine ⟨fun _ _ => rfl, fun c hc => ?_⟩
  rw [w.binding?_modifyBinding b c hid, if_neg fun hbc : b = c => hb (hbc ▸ hc)]

theorem unobserve {s : Subscription}
    (hs : T.objects s.object.id → ∀ obs ∈ w.observers s.object, obs.id ≠ s.id) :
    T.Still w (w.unobserve s) := by
  refine ⟨fun o ho => ?_, fun _ _ => rfl⟩
  rw [World.unobserve, object?_modifyObject w s.object o]
  · split
    next hid =>
      cases hx : w.object? o with
      | none => rfl
      | some x =>
          have hobservers : ∀ obs ∈ x.observers, obs.id ≠ s.id := by
            intro obs hobs
            refine hs (hid ▸ ho) obs ?_
            simpa [observers, w.object?_congr hid, hx] using hobs
          have hsame : x.observers.filter (·.id != s.id) = x.observers :=
            List.filter_eq_self.mpr fun obs hobs => by simpa using hobservers obs hobs
          simp [hsame]
    next => rfl
  · exact fun _ => rfl

theorem unobserveAll {ss : List Subscription}
    (hs : ∀ s ∈ ss, T.objects s.object.id → ∀ obs ∈ w.observers s.object, obs.id ≠ s.id) :
    T.Still w (ss.foldl World.unobserve w) := by
  induction ss generalizing w with
  | nil => exact refl T w
  | cons s ss ih =>
      have hfirst : T.Still w (w.unobserve s) := unobserve (hs s List.mem_cons_self)
      refine hfirst.trans (ih fun t ht ho => ?_)
      have hsame : (w.unobserve s).observers t.object = w.observers t.object := by
        simp only [observers, hfirst.objects _ ho]
      rw [hsame]
      exact hs t (List.mem_cons_of_mem s ht) ho

theorem disconnect (h : T.Guarded w) {b : Nat} (hb : ¬T.bindings b) :
    T.Still w (w.disconnect b) := by
  unfold World.disconnect
  split
  next => exact refl T w
  next x hx =>
    have hall : T.Still w (x.subscriptions.foldl World.unobserve w) :=
      unobserveAll fun s hs => h.unwatched b x hb hx s hs
    rw [Binding.subscriptions, List.foldl_append] at hall
    exact hall.trans (modifyBinding _ hb fun _ => rfl)

theorem release (h : T.Guarded w) {b : Nat} (hb : ¬T.bindings b) : T.Still w (w.release b) := by
  obtain heq | heq := w.release_cases b
  · rw [heq]
    exact refl T w
  · rw [heq]
    exact disconnect h hb

theorem disown (h : T.Guarded w) {bs : List Nat} (hbs : ∀ b ∈ bs, ¬T.bindings b) :
    T.Still w (w.disown bs) := by
  unfold World.disown
  induction bs generalizing w with
  | nil => exact refl T w
  | cons b bs ih =>
      have hb := hbs b List.mem_cons_self
      have hloose : w.Shrinks (w.modifyBinding b fun x => { x with owned := false }) :=
        .modifyBinding w b (fun _ => rfl) fun _ => ⟨rfl, rfl, rfl, fun _ => id⟩
      have hfirst : T.Still w (w.modifyBinding b fun x => { x with owned := false }) :=
        modifyBinding w hb fun _ => rfl
      refine (hfirst.trans (release (h.shrinks hloose) hb)).trans (ih ?_ fun c hc => ?_)
      · exact h.shrinks (hloose.trans (.release _ b))
      · exact hbs c (List.mem_cons_of_mem b hc)

/-- What is guarded and stays alive stays as it is. -/
theorem reclaim (h : T.Guarded w) (hw : w.Numbered) {kept : List Value}
    (hkept : ∀ o, T.objects o.id → w.isAlive o = true → (w.reclaim kept).isAlive o = true) :
    T.Still w (w.reclaim kept) := by
  let ids := w.living kept
  have hsame : ∀ o, T.objects o.id → (w.keepOnly ids).object? o = w.object? o := by
    intro o ho
    rw [object?_keepOnly]
    split
    next => rfl
    next hgone =>
      cases hx : w.object? o with
      | none => rfl
      | some x =>
          have halive := hkept o ho (by simp [isAlive, hx])
          obtain ⟨y, hy⟩ := Option.isSome_iff_exists.mp halive
          rw [reclaim_eq] at hy
          obtain ⟨z, hz, -⟩ := (Shrinks.disown (w.keepOnly ids) _).objects o y hy
          rw [object?_keepOnly, if_neg hgone] at hz
          cases hz
  have hloose : ∀ b ∈ w.bindingsBut ids, ¬T.bindings b := by
    intro b hb
    obtain ⟨x, hx, hb⟩ := List.mem_flatMap.mp hb
    obtain ⟨hmem, hgone⟩ := List.mem_filter.mp hx
    have hfound := hw.object?_of_mem hmem
    refine h.others x.handle x (fun ho => ?_) hfound b hb
    have hnone := hsame x.handle ho
    rw [object?_keepOnly, if_neg (by simpa using hgone), hfound] at hnone
    cases hnone
  have hkeep : T.Still w (w.keepOnly ids) := ⟨hsame, fun _ _ => rfl⟩
  have hdisown := disown (h.shrinks (.keepOnly w ids)) hloose
  rw [reclaim_eq]
  exact (hkeep.trans hdisown).trans ⟨fun _ _ => rfl, fun _ _ => rfl⟩

end Still

end Realm

end LiveUI
