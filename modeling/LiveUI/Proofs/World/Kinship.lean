import LiveUI.Proofs.World.Felling
import LiveUI.Proofs.World.HookCalls
import LiveUI.Proofs.World.Reclaiming

/-! # Parents and children

A child is kept in the list of its parent, and it keeps a link to the parent itself. Both sides are
written when an object gets a parent. When an object is destroyed, the ties to its children are cut
at both ends, but the tie to its own parent at its own end only: the parent keeps the dead object.
Apart from such objects, the two sides agree, and no object is in two places. -/

namespace LiveUI.World

variable {w w' : World}

/-- The children of an object. -/
def childrenOf (w : World) (p : Handle) : List Handle :=
  ((w.object? p).map (·.children)).getD []

/-- What an object keeps of its parent. The parent may be gone. -/
def parentLink (w : World) (c : Handle) : Option Handle :=
  (w.object? c).bind (·.parent)

/-- The parent of an object, as long as it is alive. -/
def parentOf (w : World) (c : Handle) : Option Handle :=
  (w.parentLink c).filter w.isAlive

/-- Nobody has a parent or children. -/
structure Scattered (w : World) : Prop where
  numbers : ∀ o, w.isAlive o = true → o.id < w.nextObject
  parents : ∀ o, w.parentLink o = none
  children : ∀ o, w.childrenOf o = []

/-- What comes of single objects. Further ones are made, an object without a parent becomes the
child of another one, objects are destroyed where `may` admits it, and what nobody refers to is
reclaimed. -/
inductive Raised (may : World → Handle → Prop) : World → Prop where
  | scattered {w : World} (h : w.Scattered) : Raised may w
  | create {w : World} (h : Raised may w) (typeName : String) (attrs : List (String × Value)) :
      Raised may (w.create typeName attrs).2
  | addChild {w : World} {p c : Handle} (h : Raised may w) (hp : w.phase p ≠ .destroyed)
      (hc : w.phase c ≠ .destroyed) (hfree : w.parentOf c = none) : Raised may (w.addChild p c)
  | destroy {w : World} {o : Handle} (h : Raised may w) (hmay : may w o) :
      Raised may (w.destroy o)
  | reclaim {w : World} (h : Raised may w) (kept : List Value) : Raised may (w.reclaim kept)

/-! ## The two sides -/

theorem isAlive_congr (w : World) {o p : Handle} (hid : o.id = p.id) :
    w.isAlive o = w.isAlive p := by
  rw [isAlive, object?_congr w hid, ← isAlive]

theorem phase_of_not_isAlive {o : Handle} (h : ¬w.isAlive o = true) : w.phase o = .destroyed := by
  rw [phase, Option.not_isSome_iff_eq_none.mp h]
  rfl

theorem ne_of_isAlive {o p : Handle} (hp : w.isAlive p = true) (ho : w.object? o = none) :
    ¬p.id = o.id := by
  intro hid
  rw [w.isAlive_congr hid, isAlive, ho] at hp
  cases hp

theorem childrenOf_of_not_isAlive {o : Handle} (h : ¬w.isAlive o = true) : w.childrenOf o = [] := by
  rw [childrenOf, Option.not_isSome_iff_eq_none.mp h]
  rfl

theorem parentLink_of_not_isAlive {o : Handle} (h : ¬w.isAlive o = true) :
    w.parentLink o = none := by
  rw [parentLink, Option.not_isSome_iff_eq_none.mp h]
  rfl

theorem isAlive_of_among {p c : Handle} (h : Among (w.childrenOf p) c) : w.isAlive p = true := by
  by_contra hdead
  obtain ⟨d, hd, -⟩ := h
  rw [childrenOf_of_not_isAlive hdead] at hd
  cases hd

/-- For a parent that is alive, the link is all there is to it. -/
theorem exists_parentOf {p c : Handle} (hp : w.isAlive p = true) :
    (∃ q, w.parentOf c = some q ∧ q.id = p.id) ↔ ∃ q, w.parentLink c = some q ∧ q.id = p.id := by
  refine exists_congr fun q => and_congr_left fun hid => ?_
  rw [parentOf, Option.filter_eq_some_iff, w.isAlive_congr hid, and_iff_left hp]

/-- What is between parents and children. -/
structure Kin (w : World) : Prop where
  numbers : ∀ o, w.isAlive o = true → o.id < w.nextObject
  parents : ∀ c q, w.parentLink c = some q → q.id < w.nextObject
  children : ∀ p c, Among (w.childrenOf p) c → c.id < w.nextObject
  /-- An object that stands is a child of its parent, and of no one else. -/
  linked : ∀ p c, w.isAlive p = true → w.phase c ≠ .destroyed →
    (Among (w.childrenOf p) c ↔ ∃ q, w.parentLink c = some q ∧ q.id = p.id)
  /-- A destroyed object has nobody. -/
  bare : ∀ o, w.phase o = .destroyed → w.parentLink o = none ∧ w.childrenOf o = []
  /-- No child is in two places. -/
  once : ∀ p, ((w.childrenOf p).map (·.id)).Nodup
  sole : ∀ p q c, Among (w.childrenOf p) c → Among (w.childrenOf q) c → p.id = q.id

/-- No child has been destroyed. -/
def Whole (w : World) : Prop :=
  ∀ p c, Among (w.childrenOf p) c → w.isAlive c = true → w.phase c ≠ .destroyed

theorem not_among_nil {c : Handle} : ¬Among [] c := by
  rintro ⟨d, hd, -⟩
  cases hd

theorem Scattered.kin (h : w.Scattered) : w.Kin where
  numbers := h.numbers
  parents c q hq := by
    rw [h.parents] at hq
    cases hq
  children p c hc := absurd (h.children p ▸ hc) not_among_nil
  linked p c _ _ := by
    rw [h.children, h.parents]
    exact iff_of_false not_among_nil (by simp)
  bare o _ := ⟨h.parents o, h.children o⟩
  once p := by
    rw [h.children]
    exact .nil
  sole p q c hc _ := absurd (h.children p ▸ hc) not_among_nil

theorem Scattered.whole (h : w.Scattered) : w.Whole :=
  fun p _ hc _ => absurd (h.children p ▸ hc) not_among_nil

/-! ## New objects -/

section Create

variable (typeName : String) (attrs : List (String × Value))

theorem childrenOf_create (o : Handle) :
    (w.create typeName attrs).2.childrenOf o = w.childrenOf o :=
  map_object?_create (·.children) [] rfl o

theorem parentLink_create (o : Handle) :
    (w.create typeName attrs).2.parentLink o = w.parentLink o := by
  have hbind (w : World) : w.parentLink o = ((w.object? o).map (·.parent)).getD none := by
    rw [parentLink]
    cases w.object? o <;> rfl
  rw [hbind, hbind]
  exact map_object?_create (·.parent) none rfl o

variable {typeName attrs} in
theorem Kin.create (h : w.Kin) : (w.create typeName attrs).2.Kin := by
  have hold {o : Handle} (hne : o.id ≠ w.nextObject) :
      (w.create typeName attrs).2.object? o = w.object? o := object?_create_of_ne typeName attrs hne
  have hnew {o : Handle} (hid : o.id = w.nextObject) : ¬w.isAlive o = true :=
    fun halive => Nat.ne_of_lt (h.numbers o halive) hid
  have hnext : (w.create typeName attrs).2.nextObject = w.nextObject + 1 := rfl
  refine ⟨fun o ho => ?_, fun c q hq => ?_, fun p c hc => ?_, fun p c hp hc => ?_, fun o ho => ?_,
    fun p => ?_, fun p q c hpc hqc => ?_⟩
  · rw [hnext]
    by_cases hid : o.id = w.nextObject
    · omega
    · rw [isAlive, hold hid, ← isAlive] at ho
      exact Nat.lt_succ_of_lt (h.numbers o ho)
  · rw [parentLink_create] at hq
    exact Nat.lt_succ_of_lt (h.parents c q hq)
  · rw [childrenOf_create] at hc
    exact Nat.lt_succ_of_lt (h.children p c hc)
  -- The new number is in no list and no link, so the new object is nobody's parent or child.
  · rw [childrenOf_create, parentLink_create]
    by_cases hpid : p.id = w.nextObject
    · rw [childrenOf_of_not_isAlive (hnew hpid)]
      refine iff_of_false not_among_nil ?_
      rintro ⟨q, hq, hid⟩
      have hlt := h.parents c q hq
      omega
    · by_cases hcid : c.id = w.nextObject
      · rw [parentLink_of_not_isAlive (hnew hcid)]
        exact iff_of_false (fun hpc => Nat.ne_of_lt (h.children p c hpc) hcid) (by simp)
      · rw [isAlive, hold hpid, ← isAlive] at hp
        rw [phase, hold hcid, ← phase] at hc
        exact h.linked p c hp hc
  · rw [childrenOf_create, parentLink_create]
    refine h.bare o ?_
    by_cases hid : o.id = w.nextObject
    · exact phase_of_not_isAlive (hnew hid)
    · rwa [phase, hold hid, ← phase] at ho
  · rw [childrenOf_create]
    exact h.once p
  · rw [childrenOf_create] at hpc hqc
    exact h.sole p q c hpc hqc

variable {typeName attrs} in
theorem Whole.create (h : w.Whole) (hkin : w.Kin) : (w.create typeName attrs).2.Whole := by
  intro p c hc halive
  rw [childrenOf_create] at hc
  have hne := Nat.ne_of_lt (hkin.children p c hc)
  rw [isAlive, object?_create_of_ne _ _ hne, ← isAlive] at halive
  rw [phase, object?_create_of_ne _ _ hne, ← phase]
  exact h p c hc halive

end Create

/-! ## New children -/

section AddChild

variable {p c : Handle}

theorem isAlive_addChild (w : World) (p c o : Handle) :
    (w.addChild p c).isAlive o = w.isAlive o := by
  rw [isAlive, object?_addChild, Option.isSome_map, ← isAlive]

theorem phase_addChild (w : World) (p c o : Handle) : (w.addChild p c).phase o = w.phase o := by
  rw [phase, object?_addChild, Option.map_map]
  rfl

theorem childrenOf_addChild (hp : w.isAlive p = true) (c o : Handle) :
    (w.addChild p c).childrenOf o =
      if p.id = o.id then w.childrenOf o ++ [c] else w.childrenOf o := by
  rw [childrenOf, object?_addChild]
  cases hx : w.object? o with
  | none => simp [childrenOf, hx, ne_of_isAlive hp hx]
  | some x => simp [childrenOf, hx]

theorem parentLink_addChild (hc : w.isAlive c = true) (p o : Handle) :
    (w.addChild p c).parentLink o = if c.id = o.id then some p else w.parentLink o := by
  rw [parentLink, object?_addChild]
  cases hx : w.object? o with
  | none => simp [parentLink, hx, ne_of_isAlive hc hx]
  | some x => simp [parentLink, hx]

theorem isAlive_of_stands {o : Handle} (h : w.phase o ≠ .destroyed) : w.isAlive o = true := by
  by_contra hdead
  exact h (phase_of_not_isAlive hdead)

/-- Who has no parent is nobody's child. -/
theorem Kin.not_among (h : w.Kin) (hc : w.phase c ≠ .destroyed) (hfree : w.parentOf c = none)
    (q : Handle) : ¬Among (w.childrenOf q) c := by
  intro hq
  have halive := isAlive_of_among hq
  obtain ⟨r, hr, -⟩ := (exists_parentOf halive).mpr ((h.linked q c halive hc).mp hq)
  rw [hfree] at hr
  cases hr

theorem among_addChild (hp : w.isAlive p = true) (q d : Handle) :
    Among ((w.addChild p c).childrenOf q) d ↔
      Among (w.childrenOf q) d ∨ p.id = q.id ∧ c.id = d.id := by
  rw [childrenOf_addChild hp]
  split
  next hid => simp [Among, hid]
  next hne => simp [hne]

theorem Kin.addChild (h : w.Kin) (hp : w.phase p ≠ .destroyed) (hc : w.phase c ≠ .destroyed)
    (hfree : w.parentOf c = none) : (w.addChild p c).Kin := by
  have hpAlive := isAlive_of_stands hp
  have hcAlive := isAlive_of_stands hc
  have hnone {d : Handle} (hid : c.id = d.id) (q : Handle) : ¬Among (w.childrenOf q) d :=
    fun hd => h.not_among hc hfree q (hd.congr hid.symm)
  have hnext : (w.addChild p c).nextObject = w.nextObject := rfl
  refine ⟨fun o ho => ?_, fun d q hq => ?_, fun q d hd => ?_, fun q d hq hd => ?_, fun o ho => ?_,
    fun q => ?_, fun q r d hqd hrd => ?_⟩
  · rw [isAlive_addChild] at ho
    exact h.numbers o ho
  · rw [parentLink_addChild hcAlive] at hq
    split at hq
    · obtain rfl := Option.some.inj hq
      exact h.numbers p hpAlive
    · exact h.parents d q hq
  · rcases (among_addChild hpAlive q d).mp hd with hd | ⟨-, hid⟩
    · exact h.children q d hd
    · exact hid ▸ h.numbers c hcAlive
  · rw [isAlive_addChild] at hq
    rw [phase_addChild] at hd
    rw [among_addChild hpAlive, parentLink_addChild hcAlive]
    split
    next hid => simp [hnone hid q, hid]
    next hne => rw [or_iff_left fun hpc => hne hpc.2, h.linked q d hq hd]
  · rw [phase_addChild] at ho
    have hne {e : Handle} (he : w.phase e ≠ .destroyed) : ¬e.id = o.id :=
      fun hid => he ((w.phase_congr hid).trans ho)
    rw [parentLink_addChild hcAlive, if_neg (hne hc), childrenOf_addChild hpAlive, if_neg (hne hp)]
    exact h.bare o ho
  · rw [childrenOf_addChild hpAlive]
    split
    · rw [List.map_append]
      refine List.nodup_append.mpr ⟨h.once q, List.nodup_singleton _, fun i hi j hj hij => ?_⟩
      obtain ⟨d, hd, rfl⟩ := List.mem_map.mp hi
      exact hnone rfl q ⟨d, hd, hij.trans (List.mem_singleton.mp hj)⟩
    · exact h.once q
  · rcases (among_addChild hpAlive q d).mp hqd with hqd | ⟨hpq, hid⟩ <;>
      rcases (among_addChild hpAlive r d).mp hrd with hrd | ⟨hpr, hid'⟩
    · exact h.sole q r d hqd hrd
    · exact absurd hqd (hnone hid' q)
    · exact absurd hrd (hnone hid r)
    · exact hpq.symm.trans hpr

theorem Whole.addChild (h : w.Whole) (hp : w.phase p ≠ .destroyed) (hc : w.phase c ≠ .destroyed) :
    (w.addChild p c).Whole := by
  intro q d hd halive
  rw [isAlive_addChild] at halive
  rw [phase_addChild]
  rcases (among_addChild (isAlive_of_stands hp) q d).mp hd with hd | ⟨-, hid⟩
  · exact h q d hd halive
  · rwa [← w.phase_congr hid]

end AddChild

/-! ## Objects that go -/

/-- Some objects have fallen with all that stood below them, others may be gone altogether, and the
rest are where they were. -/
structure Thins (gone : List Handle) (w w' : World) : Prop where
  next : w.nextObject ≤ w'.nextObject
  isAlive : ∀ o, w'.isAlive o = true → w.isAlive o = true
  fallen : ∀ o, Among gone o →
    w'.phase o = .destroyed ∧ w'.parentLink o = none ∧ w'.childrenOf o = []
  others : ∀ o, ¬Among gone o → w'.isAlive o = true →
    w'.phase o = w.phase o ∧ w'.parentLink o = w.parentLink o ∧ w'.childrenOf o = w.childrenOf o
  closed : ∀ p c, Among gone p → Among (w.childrenOf p) c → w.phase c ≠ .destroyed → Among gone c

namespace Thins

variable {gone : List Handle}

/-- Whoever still has a child had it before. -/
theorem among (h : Thins gone w w') {p c : Handle} (hc : Among (w'.childrenOf p) c) :
    ¬Among gone p ∧ Among (w.childrenOf p) c := by
  have hspared : ¬Among gone p := fun hgone => by
    rw [(h.fallen p hgone).2.2] at hc
    exact not_among_nil hc
  exact ⟨hspared, (h.others p hspared (isAlive_of_among hc)).2.2 ▸ hc⟩

theorem parentLink (h : Thins gone w w') {c q : Handle} (hq : w'.parentLink c = some q) :
    w.parentLink c = some q := by
  have hspared : ¬Among gone c := fun hgone => by
    rw [(h.fallen c hgone).2.1] at hq
    cases hq
  have halive : w'.isAlive c = true := by
    by_contra hdead
    rw [parentLink_of_not_isAlive hdead] at hq
    cases hq
  exact (h.others c hspared halive).2.1 ▸ hq

theorem stands (h : Thins gone w w') {c : Handle} (hc : w'.phase c ≠ .destroyed) :
    ¬Among gone c ∧ w.phase c ≠ .destroyed := by
  have hspared : ¬Among gone c := fun hgone => hc (h.fallen c hgone).1
  exact ⟨hspared, (h.others c hspared (isAlive_of_stands hc)).1 ▸ hc⟩

theorem kin (h : Thins gone w w') (hw : w.Kin) : w'.Kin := by
  refine ⟨fun o ho => Nat.lt_of_lt_of_le (hw.numbers o (h.isAlive o ho)) h.next,
    fun c q hq => Nat.lt_of_lt_of_le (hw.parents c q (h.parentLink hq)) h.next,
    fun p c hc => Nat.lt_of_lt_of_le (hw.children p c (h.among hc).2) h.next,
    fun p c hp hc => ?_, fun o ho => ?_, fun p => ?_,
    fun p q c hpc hqc => hw.sole p q c (h.among hpc).2 (h.among hqc).2⟩
  · obtain ⟨hspared, hstood⟩ := h.stands hc
    have hlinked := hw.linked p c (h.isAlive p hp) hstood
    have hsame := (h.others c hspared (isAlive_of_stands hc)).2.1
    rw [hsame]
    refine ⟨fun hpc => hlinked.mp (h.among hpc).2, fun hlink => ?_⟩
    -- Had the parent fallen, the child would have fallen with it.
    have hpc := hlinked.mpr hlink
    have hparent : ¬Among gone p := fun hgone => hspared (h.closed p c hgone hpc hstood)
    rwa [(h.others p hparent hp).2.2]
  · by_cases hgone : Among gone o
    · exact (h.fallen o hgone).2
    · by_cases halive : w'.isAlive o = true
      · obtain ⟨hphase, hlink, hchildren⟩ := h.others o hgone halive
        rw [hlink, hchildren]
        exact hw.bare o (hphase ▸ ho)
      · exact ⟨parentLink_of_not_isAlive halive, childrenOf_of_not_isAlive halive⟩
  · by_cases halive : w'.isAlive p = true
    · by_cases hgone : Among gone p
      · rw [(h.fallen p hgone).2.2]
        exact .nil
      · rw [(h.others p hgone halive).2.2]
        exact hw.once p
    · rw [childrenOf_of_not_isAlive halive]
      exact .nil

/-- Where nothing falls that has a parent which stays, no child of anyone has fallen. -/
theorem whole (h : Thins gone w w') (hw : w.Whole)
    (hup : ∀ p c, Among (w.childrenOf p) c → Among gone c → Among gone p) : w'.Whole := by
  intro p c hc halive
  obtain ⟨hspared, hpc⟩ := h.among hc
  rw [(h.others c (fun hgone => hspared (hup p c hpc hgone)) halive).1]
  exact hw p c hpc (h.isAlive c halive)

end Thins

theorem Shrinks.thins (h : w.Shrinks w') : Thins [] w w' := by
  have hold {o : Handle} (halive : w'.isAlive o = true) :
      ∃ x y, w.object? o = some x ∧ w'.object? o = some y ∧ x.Drops y := by
    obtain ⟨y, hy⟩ := Option.isSome_iff_exists.mp halive
    obtain ⟨x, hx, hdrops⟩ := h.objects o y hy
    exact ⟨x, y, hx, hy, hdrops⟩
  refine ⟨Nat.le_of_eq h.nextObject.symm, fun o halive => ?_, fun o hgone => ?_,
    fun o _ halive => ?_, fun p c hgone => ?_⟩
  · obtain ⟨x, y, hx, -⟩ := hold halive
    simp [World.isAlive, hx]
  · exact absurd hgone not_among_nil
  · obtain ⟨x, y, hx, hy, hdrops⟩ := hold halive
    simp [phase, parentLink, childrenOf, hx, hy, hdrops.phase, hdrops.parent, hdrops.children]
  · exact absurd hgone not_among_nil

/-- Destroying an object takes what is below it. -/
theorem destroy_thins (w : World) (o : Handle) :
    ∃ gone, Thins gone w (w.destroy o) ∧ ∀ p, Among gone p ↔ w.Beneath o p := by
  obtain ⟨gone, hgone⟩ := destroyTo_razes (.of_length (Nat.le_refl w.objects.length)) o
  have hrazed : Razed [o] gone w (w.destroy o) := hgone
  refine ⟨gone, ⟨(Unhooked.destroyTo _ w o).nextObject, fun p halive => ?_, fun p hp => ?_,
    fun p hp _ => ?_, fun p c hp hc hstands => ?_⟩, fun p => ?_⟩
  · by_cases hp : Among gone p
    · rwa [isAlive, hrazed.fallen p hp, Option.isSome_map, ← isAlive] at halive
    · rwa [isAlive, hrazed.others p hp, Option.isSome_map, ← isAlive] at halive
  · refine ⟨hrazed.phase_fallen hp, ?_⟩
    rw [parentLink, childrenOf, hrazed.fallen p hp]
    cases w.object? p <;> exact ⟨rfl, rfl⟩
  · refine ⟨hrazed.phase hp, ?_⟩
    rw [parentLink, childrenOf, hrazed.others p hp, parentLink, childrenOf]
    cases w.object? p <;> exact ⟨rfl, rfl⟩
  · obtain ⟨x, hx⟩ := Option.isSome_iff_exists.mp (isAlive_of_among hc)
    simp only [childrenOf, hx, Option.map_some, Option.getD_some] at hc
    obtain ⟨d, hd, hid⟩ := hc
    exact (hrazed.closed p x hp hx d hd (w.phase_congr hid ▸ hstands)).congr hid
  · simpa only [List.mem_singleton, exists_eq_left] using hrazed.among_iff p

theorem Kin.destroy (h : w.Kin) (o : Handle) : (w.destroy o).Kin := by
  obtain ⟨gone, hthins, -⟩ := destroy_thins w o
  exact hthins.kin h

/-- An object without a parent takes no one's child with it. -/
theorem Whole.destroy (h : w.Whole) (hkin : w.Kin) {o : Handle} (hroot : w.parentOf o = none) :
    (w.destroy o).Whole := by
  obtain ⟨gone, hthins, hgone⟩ := destroy_thins w o
  refine hthins.whole h fun p c hpc hc => (hgone p).mpr ?_
  cases (hgone c).mp hc with
  | self hid hstands =>
      exact absurd (hpc.congr hid) (hkin.not_among (w.phase_congr hid ▸ hstands) hroot p)
  | @child q d _ x hbeneath hx hd hid hstands =>
      -- It is reached through a parent that is below the object, too, and it has no other parent.
      have hqc : Among (w.childrenOf q) c := by
        simp only [childrenOf, hx, Option.map_some, Option.getD_some]
        exact ⟨d, hd, hid.symm⟩
      have hsame := hkin.sole p q c hpc hqc
      exact (hgone p).mp (((hgone q).mpr hbeneath).congr hsame.symm)

/-! ## Whatever is done -/

section Runs

variable {may : World → Handle → Prop}

theorem Raised.kin (h : Raised may w) : w.Kin := by
  induction h with
  | scattered h => exact h.kin
  | create _ _ _ ih => exact ih.create
  | addChild _ hp hc hfree ih => exact ih.addChild hp hc hfree
  | destroy _ _ ih => exact ih.destroy _
  | reclaim _ kept ih => exact (Shrinks.reclaim _ kept).thins.kin ih

theorem Raised.whole (hroots : ∀ w o, may w o → w.parentOf o = none) (h : Raised may w) :
    w.Whole := by
  induction h with
  | scattered h => exact h.whole
  | create h _ _ ih => exact ih.create h.kin
  | addChild _ hp hc _ ih => exact ih.addChild hp hc
  | destroy h hmay ih => exact ih.destroy h.kin (hroots _ _ hmay)
  | reclaim _ kept ih =>
      exact (Shrinks.reclaim _ kept).thins.whole ih fun _ _ _ hgone => absurd hgone not_among_nil

/-- The children of an object are those that have it as their parent, as far as they have not been
destroyed. A destroyed object has neither a parent nor children, but a list may still have it. No
object is in a list twice, nor in two lists. Where only objects without a parent are destroyed, the
two sides agree altogether. -/
theorem children_iff_parent (h : Raised may w) :
    (∀ p c, w.isAlive p = true → w.phase c ≠ .destroyed →
      (Among (w.childrenOf p) c ↔ ∃ q, w.parentOf c = some q ∧ q.id = p.id)) ∧
    (∀ o, w.phase o = .destroyed → w.parentOf o = none ∧ w.childrenOf o = []) ∧
    (∀ p, ((w.childrenOf p).map (·.id)).Nodup) ∧
    (∀ p q c, Among (w.childrenOf p) c → Among (w.childrenOf q) c → p.id = q.id) ∧
    ((∀ w o, may w o → w.parentOf o = none) → ∀ p c, w.isAlive p = true → w.isAlive c = true →
      (Among (w.childrenOf p) c ↔ ∃ q, w.parentOf c = some q ∧ q.id = p.id)) := by
  have hlinked (p c : Handle) (hp : w.isAlive p = true) (hc : w.phase c ≠ .destroyed) :
      Among (w.childrenOf p) c ↔ ∃ q, w.parentOf c = some q ∧ q.id = p.id := by
    rw [exists_parentOf hp]
    exact h.kin.linked p c hp hc
  have hbare (o : Handle) (ho : w.phase o = .destroyed) :
      w.parentOf o = none ∧ w.childrenOf o = [] := by
    obtain ⟨hlink, hchildren⟩ := h.kin.bare o ho
    rw [parentOf, hlink]
    exact ⟨rfl, hchildren⟩
  refine ⟨hlinked, hbare, h.kin.once, h.kin.sole, fun hroots p c hp hc => ?_⟩
  by_cases hphase : w.phase c = .destroyed
  · refine iff_of_false (fun hpc => h.whole hroots p c hpc hc hphase) ?_
    rw [(hbare c hphase).1]
    simp
  · exact hlinked p c hp hphase

end Runs

/-- A label on a panel. -/
def panelWithLabel : World :=
  ((({} : World).create "Panel" []).2.create "Label" []).2.addChild ⟨1, "Panel"⟩ ⟨2, "Label"⟩

theorem raised_panelWithLabel (may : World → Handle → Prop) : Raised may panelWithLabel := by
  have hempty : Scattered {} := ⟨nofun, fun _ => rfl, fun _ => rfl⟩
  have hmade := (.scattered hempty : Raised may {}).create "Panel" [] |>.create "Label" []
  exact hmade.addChild (by decide) (by decide) rfl

/-- The label has the panel as its parent, so it is among the children of the panel. -/
theorem children_iff_parent_label : Raised (fun w o => w.parentOf o = none) panelWithLabel ∧
    panelWithLabel.parentOf ⟨2, "Label"⟩ = some ⟨1, "Panel"⟩ ∧
    Among (panelWithLabel.childrenOf ⟨1, "Panel"⟩) ⟨2, "Label"⟩ := by
  have hraised := raised_panelWithLabel fun w o => w.parentOf o = none
  obtain ⟨-, -, -, -, hagree⟩ := children_iff_parent hraised
  have hlabel := hagree (fun _ _ hroot => hroot) ⟨1, "Panel"⟩ ⟨2, "Label"⟩ rfl rfl
  exact ⟨hraised, rfl, hlabel.mpr ⟨_, rfl, rfl⟩⟩

/-- A label that is destroyed on its own stays among the children of the panel, but it has no parent
any more. -/
theorem children_keep_destroyed : ∃ w : World, Raised (fun _ _ => True) w ∧
    ∃ p c, w.isAlive p = true ∧ w.isAlive c = true ∧
      Among (w.childrenOf p) c ∧ w.parentOf c = none :=
  ⟨panelWithLabel.destroy ⟨2, "Label"⟩, .destroy (raised_panelWithLabel _) trivial,
    ⟨1, "Panel"⟩, ⟨2, "Label"⟩, rfl, rfl, ⟨⟨2, "Label"⟩, by decide, rfl⟩, rfl⟩

end LiveUI.World
