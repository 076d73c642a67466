import LiveUI.Proofs.Template.Scoping

/-! # Arguments and parameters

Positional arguments go to the first parameters, keyword arguments to the parameters that they name,
and defaults to those that are left. A parameter has one source at most that counts, so the order of
the keywords has no part in what the parameters get. Which of them have a default is told by the
declaration: its defaults belong to the last names. -/

namespace LiveUI.Template

open Markup

section Arguments

variable {params : List (String × Option Value)} {args : List Value}
  {keywords keywords' : List (String × Value)} {values : List Value}

/-- The arguments of a call fit the parameters: no parameter has two of them, none is left over, and
where there is none there is a default. -/
structure Suits (params : List (String × Option Value)) (args : List Value)
    (keywords : List (String × Value)) : Prop where
  room : args.length ≤ params.length
  distinct : (keywords.map (·.1)).Nodup
  known : ∀ name ∈ keywords.map (·.1), name ∈ (params.drop args.length).map (·.1)
  filled : ∀ p ∈ params.drop args.length, p.1 ∈ keywords.map (·.1) ∨ p.2.isSome

/-- The parameters have these values, each from the first of its sources. -/
structure Supplies (params : List (String × Option Value)) (args : List Value)
    (keywords : List (String × Value)) (values : List Value) : Prop where
  length : values.length = params.length
  positional : ∀ (i : Nat) v, args[i]? = some v → values[i]? = some v
  keyword : ∀ (i : Nat) p v, params[i]? = some p → args.length ≤ i → (p.1, v) ∈ keywords →
    values[i]? = some v
  default : ∀ (i : Nat) p, params[i]? = some p → args.length ≤ i → p.1 ∉ keywords.map (·.1) →
    values[i]? = p.2

theorem Suits.perm (h : Suits params args keywords) (hperm : keywords'.Perm keywords) :
    Suits params args keywords' := by
  have hnames := hperm.map (·.1)
  exact ⟨h.room, hnames.nodup_iff.mpr h.distinct,
    fun name hname => h.known name (hnames.mem_iff.mp hname),
    fun p hp => (h.filled p hp).imp_left hnames.mem_iff.mpr⟩

theorem Supplies.perm (h : Supplies params args keywords values) (hperm : keywords'.Perm keywords) :
    Supplies params args keywords' values :=
  ⟨h.length, h.positional, fun i p v hp hi hv => h.keyword i p v hp hi (hperm.mem_iff.mp hv),
    fun i p hp hi hname => h.default i p hp hi fun hin => hname ((hperm.map (·.1)).mem_iff.mpr hin)⟩

/-! ## Keywords -/

/-- What the parameters have after the keywords have been put to those without a value. -/
def fill (params : List (String × Option Value)) (keywords : List (String × Value))
    (bound : List (Option Value)) : List (Option Value) :=
  (bound.zip params).map fun q => q.1.or (keywords.lookup q.2.1)

theorem index_unique (hnames : (params.map (·.1)).Nodup) {i j : Nat} {p q : String × Option Value}
    (hp : params[i]? = some p) (hq : params[j]? = some q) (hname : p.1 = q.1) : i = j := by
  have hi : i < (params.map (·.1)).length := by
    simpa using (List.getElem?_eq_some_iff.mp hp).1
  refine (List.getElem?_inj hi hnames).mp ?_
  simp [hp, hq, hname]

theorem findIdx?_of_nodup (hnames : (params.map (·.1)).Nodup) {i : Nat}
    {p : String × Option Value} (hp : params[i]? = some p) :
    params.findIdx? (·.1 == p.1) = some i := by
  obtain ⟨hi, rfl⟩ := List.getElem?_eq_some_iff.mp hp
  refine List.findIdx?_eq_some_iff_getElem.mpr ⟨hi, beq_self_eq_true _, fun j hj heq => ?_⟩
  exact Nat.ne_of_lt hj (index_unique hnames (List.getElem?_eq_getElem _) hp (beq_iff_eq.mp heq))

/-- A keyword is put to the parameter of its name, where that has no value yet. -/
theorem bindKeywords_cons_eq_ok_iff (hnames : (params.map (·.1)).Nodup) {name : String} {v : Value}
    {bound bound' : List (Option Value)} (hlength : bound.length = params.length) :
    bindKeywords params ((name, v) :: keywords) bound = .ok bound' ↔
      ∃ (i : Nat) (d : Option Value), params[i]? = some (name, d) ∧ bound[i]? = some none ∧
        bindKeywords params keywords (bound.set i (some v)) = .ok bound' := by
  rw [bindKeywords]
  cases hfind : params.findIdx? (·.1 == name) with
  | none =>
      refine ⟨fun h => (by cases h), ?_⟩
      rintro ⟨i, d, hp, -⟩
      rw [findIdx?_of_nodup hnames hp] at hfind
      cases hfind
  | some i =>
      obtain ⟨hi, hname, -⟩ := List.findIdx?_eq_some_iff_getElem.mp hfind
      have hp : params[i]? = some (name, params[i].2) := by
        rw [List.getElem?_eq_getElem hi, ← beq_iff_eq.mp hname]
      dsimp only
      split
      next u hu =>
        refine ⟨fun h => (by cases h), ?_⟩
        rintro ⟨j, d, hj, hfree, -⟩
        rw [index_unique hnames hj hp rfl, hu] at hfree
        cases hfree
      next hfree =>
        constructor
        · intro h
          have hi' : i < bound.length := by omega
          refine ⟨i, _, hp, ?_, h⟩
          cases hbound : bound[i] with
          | none => rw [List.getElem?_eq_getElem hi', hbound]
          | some u => exact absurd (by rw [List.getElem?_eq_getElem hi', hbound]) (hfree u)
        · rintro ⟨j, d, hj, -, h⟩
          exact index_unique hnames hj hp rfl ▸ h

/-- A parameter that has been given a value is the one parameter that is not free any more. -/
theorem getElem?_set_eq_none_iff (hnames : (params.map (·.1)).Nodup) {bound : List (Option Value)}
    {i j : Nat} {p q : String × Option Value} (hp : params[i]? = some p) (hq : params[j]? = some q)
    (hfree : bound[i]? = some none) (v : Value) :
    (bound.set i (some v))[j]? = some none ↔ p.1 ≠ q.1 ∧ bound[j]? = some none := by
  have hi : i < bound.length := (List.getElem?_eq_some_iff.mp hfree).1
  rw [List.getElem?_set]
  by_cases hij : i = j
  · subst hij
    obtain rfl := Option.some.inj (hp.symm.trans hq)
    simp [hi]
  · have hne : p.1 ≠ q.1 := fun hname => hij (index_unique hnames hp hq hname)
    simp [hij, hne]

theorem fill_cons (hnames : (params.map (·.1)).Nodup) {bound : List (Option Value)}
    {i : Nat} {name : String} {d : Option Value} (hp : params[i]? = some (name, d))
    (hfree : bound[i]? = some none) (v : Value) :
    fill params keywords (bound.set i (some v)) = fill params ((name, v) :: keywords) bound := by
  refine List.ext_getElem (by simp [fill]) fun j hj hj' => ?_
  have hjp : j < params.length := by
    simp only [fill, List.length_map, List.length_zip] at hj'
    omega
  simp only [fill, List.getElem_map, List.getElem_zip, List.getElem_set, List.lookup_cons]
  split
  next hij =>
    subst hij
    obtain ⟨hi, hnone⟩ := List.getElem?_eq_some_iff.mp hfree
    obtain ⟨hip, hparam⟩ := List.getElem?_eq_some_iff.mp hp
    simp [hnone, hparam]
  next hij =>
    have hne : (params[j].1 == name) = false := beq_eq_false_iff_ne.mpr fun hname =>
      hij (index_unique hnames hp (List.getElem?_eq_getElem hjp) hname.symm)
    rw [hne]

/-- Keywords are put to distinct parameters that have no value before. -/
theorem bindKeywords_eq_ok_iff (hnames : (params.map (·.1)).Nodup)
    {bound bound' : List (Option Value)} (hlength : bound.length = params.length) :
    bindKeywords params keywords bound = .ok bound' ↔
      (keywords.map (·.1)).Nodup ∧
      (∀ name ∈ keywords.map (·.1), ∃ (i : Nat) (d : Option Value),
        params[i]? = some (name, d) ∧ bound[i]? = some none) ∧
      bound' = fill params keywords bound := by
  induction keywords generalizing bound with
  | nil =>
      have hfill : fill params [] bound = bound := by
        simp [fill, List.map_fst_zip (Nat.le_of_eq hlength)]
      simp [bindKeywords, hfill, eq_comm]
  | cons q rest ih =>
      obtain ⟨name, v⟩ := q
      rw [bindKeywords_cons_eq_ok_iff hnames hlength, List.map_cons, List.nodup_cons,
        List.forall_mem_cons]
      -- The first keyword takes one parameter away from those that the others may name.
      constructor
      · rintro ⟨i, d, hp, hfree, hrest⟩
        obtain ⟨hdistinct, hknown, rfl⟩ := (ih (by simpa using hlength)).mp hrest
        refine ⟨⟨fun hin => ?_, hdistinct⟩, ⟨⟨i, d, hp, hfree⟩, fun other hother => ?_⟩,
          fill_cons hnames hp hfree v⟩
        · obtain ⟨j, e, hq, hnone⟩ := hknown name hin
          exact ((getElem?_set_eq_none_iff hnames hp hq hfree v).mp hnone).1 rfl
        · obtain ⟨j, e, hq, hnone⟩ := hknown other hother
          exact ⟨j, e, hq, ((getElem?_set_eq_none_iff hnames hp hq hfree v).mp hnone).2⟩
      · rintro ⟨⟨hnew, hdistinct⟩, ⟨⟨i, d, hp, hfree⟩, hknown⟩, rfl⟩
        refine ⟨i, d, hp, hfree, (ih (by simpa using hlength)).mpr
          ⟨hdistinct, fun other hother => ?_, (fill_cons hnames hp hfree v).symm⟩⟩
        obtain ⟨j, e, hq, hnone⟩ := hknown other hother
        refine ⟨j, e, hq, (getElem?_set_eq_none_iff hnames hp hq hfree v).mpr ⟨?_, hnone⟩⟩
        rintro rfl
        exact hnew hother

/-! ## Defaults -/

theorem bindDefaults_eq_ok_iff {slots : List (Option Value × String × Option Value)} :
    bindDefaults slots = .ok values ↔ slots.map (fun q => q.1.or q.2.2) = values.map some := by
  induction slots generalizing values with
  | nil => cases values <;> simp [bindDefaults]
  | cons q rest ih =>
      obtain ⟨given, name, default⟩ := q
      rw [bindDefaults, List.map_cons]
      cases hvalue : given.or default with
      | none => cases values <;> simp
      | some v =>
          cases values with
          | nil =>
              cases hrest : bindDefaults rest <;> simp [bind, Except.bind, pure, Except.pure]
          | cons u us =>
              rw [List.map_cons, List.cons.injEq, ← ih]
              cases hrest : bindDefaults rest <;>
                simp [bind, Except.bind, pure, Except.pure]

/-! ## Calls -/

/-- What the parameters have before the keywords come. -/
def placed (params : List (String × Option Value)) (args : List Value) : List (Option Value) :=
  args.map some ++ List.replicate (params.length - args.length) none

theorem getElem_placed {i : Nat} (hi : i < (placed params args).length) :
    (placed params args)[i] = args[i]? := by
  simp only [placed, List.getElem_append, List.length_map]
  split
  next h => simp [List.getElem?_eq_getElem h]
  next h => simp [List.getElem?_eq_none (Nat.not_lt.mp h)]

theorem length_placed (hroom : args.length ≤ params.length) :
    (placed params args).length = params.length := by
  simp only [placed, List.length_append, List.length_map, List.length_replicate]
  omega

/-- The value of the parameter `p` at the index `i`, from the first of its sources that there is. -/
def valueAt (args : List Value) (keywords : List (String × Value)) (i : Nat)
    (p : String × Option Value) : Option Value :=
  (args[i]?.or (keywords.lookup p.1)).or p.2

theorem map_fill_placed (hroom : args.length ≤ params.length) :
    ((fill params keywords (placed params args)).zip params).map (fun q => q.1.or q.2.2) =
      params.mapIdx (valueAt args keywords) := by
  refine List.ext_getElem ?_ fun i hi hi' => ?_
  · simp [fill, length_placed hroom]
  · simp [fill, valueAt, getElem_placed]

theorem mapIdx_eq_map_some_iff {f : Nat → String × Option Value → Option Value} :
    params.mapIdx f = values.map some ↔ values.length = params.length ∧
      ∀ (i : Nat) p, params[i]? = some p → values[i]? = f i p := by
  rw [List.ext_getElem?_iff]
  simp only [List.getElem?_mapIdx, List.getElem?_map]
  constructor
  · intro h
    refine ⟨Nat.le_antisymm ?_ ?_, fun i p hp => ?_⟩
    · refine Nat.not_lt.mp fun hlt => ?_
      have hlast := h params.length
      rw [List.getElem?_eq_getElem hlt, List.getElem?_eq_none (Nat.le_refl _)] at hlast
      cases hlast
    · refine Nat.not_lt.mp fun hlt => ?_
      have hlast := h values.length
      rw [List.getElem?_eq_getElem hlt, List.getElem?_eq_none (Nat.le_refl _)] at hlast
      cases hlast
    · have hvalue := h i
      rw [hp] at hvalue
      cases hv : values[i]? with
      | none => simp [hv] at hvalue
      | some v => simpa [hv, eq_comm] using hvalue
  · rintro ⟨hlength, h⟩ i
    cases hp : params[i]? with
    | none =>
        have hi := List.getElem?_eq_none_iff.mp hp
        rw [List.getElem?_eq_none (hlength ▸ hi)]
        rfl
    | some p =>
        have hi : i < values.length := hlength ▸ (List.getElem?_eq_some_iff.mp hp).1
        have hvalue := h i p hp
        rw [List.getElem?_eq_getElem hi] at hvalue ⊢
        simp [← hvalue]

theorem bindArguments_eq_ok_iff (hnames : (params.map (·.1)).Nodup) :
    bindArguments params args keywords = .ok values ↔
      args.length ≤ params.length ∧ (keywords.map (·.1)).Nodup ∧
      (∀ name ∈ keywords.map (·.1), ∃ (i : Nat) (d : Option Value),
        params[i]? = some (name, d) ∧ args.length ≤ i) ∧
      values.length = params.length ∧
      ∀ (i : Nat) p, params[i]? = some p → values[i]? = valueAt args keywords i p := by
  have hsteps : bindArguments params args keywords = .ok values ↔
      args.length ≤ params.length ∧ ∃ bound, bindKeywords params keywords (placed params args) =
        .ok bound ∧ bindDefaults (bound.zip params) = .ok values := by
    simp only [bindArguments]
    split
    next hsurplus => exact ⟨fun h => (by cases h), fun h => absurd hsurplus (Nat.not_lt.mpr h.1)⟩
    next hroom =>
      change ((bindKeywords params keywords (placed params args)).bind _) = _ ↔ _
      cases bindKeywords params keywords (placed params args) <;>
        simp [Except.bind, Nat.not_lt.mp hroom]
  rw [hsteps]
  refine and_congr_right fun hroom => ?_
  have hlength := length_placed hroom
  have hfree {i : Nat} {p : String × Option Value} (hp : params[i]? = some p) :
      (placed params args)[i]? = some none ↔ args.length ≤ i := by
    have hi : i < (placed params args).length := hlength ▸ (List.getElem?_eq_some_iff.mp hp).1
    rw [List.getElem?_eq_getElem hi, getElem_placed, Option.some.injEq, List.getElem?_eq_none_iff]
  simp only [bindKeywords_eq_ok_iff hnames hlength, bindDefaults_eq_ok_iff]
  constructor
  · rintro ⟨_, ⟨hdistinct, hknown, rfl⟩, hvalues⟩
    refine ⟨hdistinct, fun name hname => ?_, ?_⟩
    · obtain ⟨i, d, hp, hnone⟩ := hknown name hname
      exact ⟨i, d, hp, (hfree hp).mp hnone⟩
    · rwa [map_fill_placed hroom, mapIdx_eq_map_some_iff] at hvalues
  · rintro ⟨hdistinct, hknown, hvalues⟩
    refine ⟨_, ⟨hdistinct, fun name hname => ?_, rfl⟩, ?_⟩
    · obtain ⟨i, d, hp, hi⟩ := hknown name hname
      exact ⟨i, d, hp, (hfree hp).mpr hi⟩
    · rwa [map_fill_placed hroom, mapIdx_eq_map_some_iff]

/-! ## Fitting arguments -/

theorem lookup_eq_some_iff_mem (hdistinct : (keywords.map (·.1)).Nodup) {name : String}
    {v : Value} : keywords.lookup name = some v ↔ (name, v) ∈ keywords := by
  induction keywords with
  | nil => simp
  | cons q rest ih =>
      obtain ⟨other, u⟩ := q
      rw [List.map_cons, List.nodup_cons] at hdistinct
      rw [List.lookup_cons, List.mem_cons, Prod.mk.injEq]
      by_cases hname : name = other
      · subst hname
        have hnew : (name, v) ∉ rest := fun hin =>
          hdistinct.1 (List.mem_map_of_mem (f := (·.1)) hin)
        simp [hnew, eq_comm]
      · simp [hname, beq_eq_false_iff_ne.mpr hname, ih hdistinct.2]

theorem lookup_eq_none_iff_notMem {name : String} :
    keywords.lookup name = none ↔ name ∉ keywords.map (·.1) := by
  rw [List.lookup_eq_none_iff]
  simp only [List.mem_map, not_exists, not_and, bne_iff_ne, ne_eq]
  exact ⟨fun h q hq hname => h q hq hname.symm, fun h q hq hname => h q hq hname.symm⟩

/-- What is behind the positional arguments, by its indices. -/
theorem mem_drop_iff {p : String × Option Value} :
    p ∈ params.drop args.length ↔ ∃ i, params[i]? = some p ∧ args.length ≤ i := by
  simp only [List.mem_iff_getElem?, List.getElem?_drop]
  constructor
  · rintro ⟨j, hp⟩
    exact ⟨args.length + j, hp, Nat.le_add_right _ _⟩
  · rintro ⟨i, hp, hi⟩
    exact ⟨i - args.length, by rwa [Nat.add_sub_cancel' hi]⟩

theorem supplies_iff (hdistinct : (keywords.map (·.1)).Nodup)
    (hroom : args.length ≤ params.length) :
    Supplies params args keywords values ↔ values.length = params.length ∧
      ∀ (i : Nat) p, params[i]? = some p → values[i]? = valueAt args keywords i p := by
  constructor
  · refine fun h => ⟨h.length, fun i p hp => ?_⟩
    by_cases hi : i < args.length
    · rw [h.positional i _ (List.getElem?_eq_getElem hi), valueAt, List.getElem?_eq_getElem hi]
      rfl
    · rw [valueAt, List.getElem?_eq_none (Nat.not_lt.mp hi), Option.none_or]
      cases hlookup : keywords.lookup p.1 with
      | none => exact h.default i p hp (Nat.not_lt.mp hi) (lookup_eq_none_iff_notMem.mp hlookup)
      | some v =>
          exact h.keyword i p v hp (Nat.not_lt.mp hi)
            ((lookup_eq_some_iff_mem hdistinct).mp hlookup)
  · rintro ⟨hlength, hvalue⟩
    refine ⟨hlength, fun i v hv => ?_, fun i p v hp hi hv => ?_, fun i p hp hi hname => ?_⟩
    · have hi : i < params.length := Nat.lt_of_lt_of_le (List.getElem?_eq_some_iff.mp hv).1 hroom
      rw [hvalue i _ (List.getElem?_eq_getElem hi), valueAt, hv]
      rfl
    · rw [hvalue i p hp, valueAt, List.getElem?_eq_none hi,
        (lookup_eq_some_iff_mem hdistinct).mpr hv]
      rfl
    · rw [hvalue i p hp, valueAt, List.getElem?_eq_none hi, lookup_eq_none_iff_notMem.mpr hname]
      rfl

/-- The arguments of a call are accepted when they fit, and then each parameter has its value. -/
theorem bindArguments_ok_iff (hnames : (params.map (·.1)).Nodup) :
    bindArguments params args keywords = .ok values ↔
      Suits params args keywords ∧ Supplies params args keywords values := by
  have hbehind (name : String) : name ∈ (params.drop args.length).map (·.1) ↔
      ∃ (i : Nat) (d : Option Value), params[i]? = some (name, d) ∧ args.length ≤ i := by
    simp only [List.mem_map, mem_drop_iff]
    constructor
    · rintro ⟨⟨_, d⟩, ⟨i, hp, hi⟩, rfl⟩
      exact ⟨i, d, hp, hi⟩
    · rintro ⟨i, d, hp, hi⟩
      exact ⟨_, ⟨i, hp, hi⟩, rfl⟩
  simp only [bindArguments_eq_ok_iff hnames, ← hbehind]
  constructor
  · rintro ⟨hroom, hdistinct, hknown, hvalues⟩
    have hsupplies := (supplies_iff hdistinct hroom).mpr hvalues
    refine ⟨⟨hroom, hdistinct, hknown, fun p hp => ?_⟩, hsupplies⟩
    obtain ⟨i, hp, hi⟩ := mem_drop_iff.mp hp
    refine or_iff_not_imp_left.mpr fun hname => ?_
    have hlast : i < values.length := hsupplies.length ▸ (List.getElem?_eq_some_iff.mp hp).1
    rw [← hsupplies.default i p hp hi hname, List.getElem?_eq_getElem hlast]
    rfl
  · rintro ⟨⟨hroom, hdistinct, hknown, -⟩, hsupplies⟩
    exact ⟨hroom, hdistinct, hknown, (supplies_iff hdistinct hroom).mp hsupplies⟩

/-- Arguments that fit give each parameter a value. -/
theorem Suits.exists_supplies (h : Suits params args keywords) :
    ∃ values, Supplies params args keywords values := by
  have hsome : ∀ q ∈ params.mapIdx (valueAt args keywords), q.isSome := by
    intro q hq
    obtain ⟨i, hi, rfl⟩ := List.mem_mapIdx.mp hq
    by_cases hplaced : i < args.length
    · simp [valueAt, List.getElem?_eq_getElem hplaced]
    · rw [valueAt, List.getElem?_eq_none (Nat.not_lt.mp hplaced), Option.none_or]
      have hp := mem_drop_iff.mpr ⟨i, List.getElem?_eq_getElem hi, Nat.not_lt.mp hplaced⟩
      rcases h.filled _ hp with hname | hdefault
      · have hlookup : keywords.lookup params[i].1 ≠ none := fun hnone =>
          lookup_eq_none_iff_notMem.mp hnone hname
        simp [Option.isSome_or, Option.isSome_iff_ne_none.mpr hlookup]
      · simp [Option.isSome_or, hdefault]
  refine ⟨(params.mapIdx (valueAt args keywords)).pmap Option.get hsome,
    (supplies_iff h.distinct h.room).mpr (mapIdx_eq_map_some_iff.mp ?_)⟩
  simp [List.map_pmap]

end Arguments

/-! ## Declarations -/

section Declarations

variable {announce announcing : Announce} {globals : Globals} {d : Define}

/-- The index of the first parameter that has a default. -/
def firstDefault (p : Parameters) : Nat :=
  p.names.length - p.defaults.length

/-- The values of the defaults, evaluated one after another for the last of the names. -/
def evalDefaults (announce : Announce) (globals : Globals) (d : Define) : Compiling (List Value) :=
  ((d.parameters.names.drop (firstDefault d.parameters)).zip d.parameters.defaults).mapM
    fun (name, e) => evalDefault announce globals d.name name e

theorem firstDefault_le (p : Parameters) : firstDefault p ≤ p.names.length :=
  Nat.sub_le _ _

theorem default?_of_lt {p : Parameters} {i : Nat} (hi : i < firstDefault p) :
    p.default? i = none :=
  if_neg fun h => Nat.not_le.mpr hi h.2

theorem default?_firstDefault_add {p : Parameters} (hdefaults : p.defaults.length ≤ p.names.length)
    (j : Nat) : p.default? (firstDefault p + j) = p.defaults[j]? := by
  rw [Parameters.default?, if_pos ⟨hdefaults, Nat.le_add_right _ _⟩, ← firstDefault,
    Nat.add_sub_cancel_left]

/-- Parameters without a default are taken as they are. -/
theorem mapM_evalParameter_of_none {names : List String} {start : Nat}
    (hnone : ∀ j < names.length, d.parameters.default? (start + j) = none) :
    (names.zip (List.range' start names.length)).mapM (evalParameter announce globals d) =
      pure (names.map (·, none)) := by
  induction names generalizing start with
  | nil => rfl
  | cons name names ih =>
      have hfirst : d.parameters.default? start = none := hnone 0 (Nat.zero_lt_succ _)
      have hrest : ∀ j < names.length, d.parameters.default? (start + 1 + j) = none := by
        intro j hj
        rw [Nat.add_assoc, Nat.add_comm 1]
        exact hnone (j + 1) (Nat.succ_lt_succ hj)
      simp [List.range'_succ, evalParameter, hfirst, ih hrest]

/-- Parameters with defaults take their values in order. -/
theorem mapM_evalParameter_of_defaults {names : List String} {defaults : List Expression}
    {start : Nat} (hlength : names.length = defaults.length)
    (hdefault : ∀ j, d.parameters.default? (start + j) = defaults[j]?) :
    (names.zip (List.range' start names.length)).mapM (evalParameter announce globals d) = do
      let values ← (names.zip defaults).mapM fun (name, e) =>
        evalDefault announce globals d.name name e
      return names.zip (values.map some) := by
  induction names generalizing defaults start with
  | nil => rfl
  | cons name names ih =>
      obtain ⟨e, rest, rfl⟩ := List.exists_cons_of_length_eq_add_one hlength.symm
      have hfirst : d.parameters.default? start = some e := hdefault 0
      have hrest : ∀ j, d.parameters.default? (start + 1 + j) = rest[j]? := fun j => by
        rw [Nat.add_assoc, Nat.add_comm 1]
        exact hdefault (j + 1)
      simp [List.range'_succ, evalParameter, hfirst, ih (Nat.succ.inj hlength) hrest]

/-- The last parameters have the defaults, the others have none. -/
theorem evalParameters_defaults
    (hdefaults : d.parameters.defaults.length ≤ d.parameters.names.length) :
    evalParameters announce globals d = do
      let values ← evalDefaults announce globals d
      return (d.parameters.names.take (firstDefault d.parameters)).map (·, none) ++
        (d.parameters.names.drop (firstDefault d.parameters)).zip (values.map some) := by
  have hfirst := firstDefault_le d.parameters
  -- The names before the first default and the others are gone through one after the other.
  have hsplit : d.parameters.names.zip (List.range d.parameters.names.length) =
      (d.parameters.names.take (firstDefault d.parameters)).zip
          (List.range' 0 (d.parameters.names.take (firstDefault d.parameters)).length) ++
        (d.parameters.names.drop (firstDefault d.parameters)).zip
          (List.range' (firstDefault d.parameters)
            (d.parameters.names.drop (firstDefault d.parameters)).length) := by
    rw [← List.zip_append (by simp), List.take_append_drop, List.length_take_of_le hfirst,
      List.length_drop]
    congr 1
    rw [List.range_eq_range', ← Nat.add_sub_cancel' hfirst, ← List.range'_append_1]
    simp
  have hnone : ∀ j < (d.parameters.names.take (firstDefault d.parameters)).length,
      d.parameters.default? (0 + j) = none := fun j hj => by
    rw [Nat.zero_add]
    exact default?_of_lt (Nat.lt_of_lt_of_le hj (List.length_take_le _ _))
  have hlength : (d.parameters.names.drop (firstDefault d.parameters)).length =
      d.parameters.defaults.length := by
    rw [List.length_drop, firstDefault]
    omega
  rw [evalParameters_eq, hsplit, List.mapM_append, mapM_evalParameter_of_none hnone,
    mapM_evalParameter_of_defaults hlength (default?_firstDefault_add hdefaults)]
  simp [evalDefaults]

theorem compileDefine_params {compiled : CompiledDefine} {w₀ w₁ : World}
    (hcompile : (compileDefine announcing globals d).run w₀ = some (.ok compiled, w₁)) :
    ∃ w', (evalParameters announcing globals d).run w₀ = some (.ok compiled.params, w') := by
  obtain ⟨params, w', hparams, _, _, -, rfl⟩ := compileDefine_ok hcompile
  exact ⟨w', hparams⟩

theorem evalDefaults_length {values : List Value} {w w' : World}
    (hdefaults : d.parameters.defaults.length ≤ d.parameters.names.length)
    (h : (evalDefaults announce globals d).run w = some (.ok values, w')) :
    values.length = d.parameters.defaults.length := by
  have hlength := congrArg List.length (compiling_mapM (p := fun _ => ()) (q := fun _ => ())
    (fun _ => rfl) h)
  simp only [List.length_map, List.length_zip, List.length_drop, firstDefault] at hlength
  omega

/-- The parameters that come from a declaration: a parameter before the first default has none, the
others have the values of the defaults in order. -/
theorem getElem?_evaluated {names : List String} {values : List Value} {first i : Nat}
    {p : String × Option Value}
    (hp : ((names.take first).map (·, none) ++
      (names.drop first).zip (values.map some))[i]? = some p)
    (hfirst : first ≤ names.length) :
    p.2 = if first ≤ i then values[i - first]? else none := by
  rw [List.getElem?_append, List.length_map, List.length_take_of_le hfirst] at hp
  split at hp
  next hi =>
    rw [if_neg (Nat.not_le.mpr hi)]
    obtain ⟨name, -, rfl⟩ := Option.map_eq_some_iff.mp (List.getElem?_map .. ▸ hp)
    rfl
  next hi =>
    rw [if_pos (Nat.not_lt.mp hi)]
    have hvalue := (List.getElem?_zip_eq_some.mp hp).2
    rw [List.getElem?_map, Option.map_eq_some_iff] at hvalue
    obtain ⟨v, hv, hp⟩ := hvalue
    rw [hv, hp]

theorem toOption_eq_some_iff {ε α : Type} {r : Except ε α} {a : α} :
    r.toOption = some a ↔ r = .ok a := by
  cases r <;> simp [Except.toOption]

/-- A call of a compiled define is accepted when its arguments fit, the parameters get their values
each from the first of its sources, the order of keywords does not count, and the defaults are those
of the declaration. -/
theorem arguments_bound {compiled : CompiledDefine} {w₀ w₁ : World}
    (hcompile : (compileDefine announcing globals d).run w₀ = some (.ok compiled, w₁))
    (hnames : d.parameters.names.Nodup)
    (hdefaults : d.parameters.defaults.length ≤ d.parameters.names.length) :
    (∀ args keywords,
      ((∃ values, bindArguments compiled.params args keywords = .ok values) ↔
        Suits compiled.params args keywords) ∧
      (∀ values, bindArguments compiled.params args keywords = .ok values →
        Supplies compiled.params args keywords values) ∧
      ∀ keywords' : List (String × Value), keywords'.Perm keywords →
        (bindArguments compiled.params args keywords').toOption =
          (bindArguments compiled.params args keywords).toOption) ∧
    compiled.params.map (·.1) = d.parameters.names ∧
    ∃ values w', (evalDefaults announcing globals d).run w₀ = some (.ok values, w') ∧
      values.length = d.parameters.defaults.length ∧
      ∀ (i : Nat) p, compiled.params[i]? = some p →
        (p.2.isSome ↔ firstDefault d.parameters ≤ i) ∧
        (firstDefault d.parameters ≤ i → p.2 = values[i - firstDefault d.parameters]?) := by
  obtain ⟨w', hparams⟩ := compileDefine_params hcompile
  have hdeclared := evalParameters_names hparams
  have hdistinct : (compiled.params.map (·.1)).Nodup := hdeclared ▸ hnames
  refine ⟨fun args keywords => ⟨?_, fun values h => ?_, fun keywords' hperm => ?_⟩, hdeclared, ?_⟩
  · constructor
    · rintro ⟨values, h⟩
      exact ((bindArguments_ok_iff hdistinct).mp h).1
    · intro hsuits
      obtain ⟨values, hsupplies⟩ := hsuits.exists_supplies
      exact ⟨values, (bindArguments_ok_iff hdistinct).mpr ⟨hsuits, hsupplies⟩⟩
  · exact ((bindArguments_ok_iff hdistinct).mp h).2
  · have hok (values : List Value) : bindArguments compiled.params args keywords' = .ok values ↔
        bindArguments compiled.params args keywords = .ok values := by
      rw [bindArguments_ok_iff hdistinct, bindArguments_ok_iff hdistinct]
      exact ⟨fun h => ⟨h.1.perm hperm.symm, h.2.perm hperm.symm⟩,
        fun h => ⟨h.1.perm hperm, h.2.perm hperm⟩⟩
    refine Option.ext fun values => ?_
    simpa only [toOption_eq_some_iff] using hok values
  · rw [evalParameters_defaults hdefaults] at hparams
    obtain ⟨values, v, hvalues, hparams⟩ := compiling_bind hparams
    have hlength := evalDefaults_length hdefaults hvalues
    refine ⟨values, v, hvalues, hlength, fun i p hp => ?_⟩
    have hlast : i < d.parameters.names.length := by
      rw [← hdeclared, List.length_map]
      exact (List.getElem?_eq_some_iff.mp hp).1
    have hevaluated := Except.ok.inj (congrArg Prod.fst (Option.some.inj hparams))
    have hp' := getElem?_evaluated (hevaluated ▸ hp) (firstDefault_le _)
    by_cases hi : firstDefault d.parameters ≤ i
    · rw [if_pos hi] at hp'
      refine ⟨⟨fun _ => hi, fun _ => ?_⟩, fun _ => hp'⟩
      have hvalue : i - firstDefault d.parameters < values.length := by
        rw [hlength, firstDefault]
        rw [firstDefault] at hi
        omega
      rw [hp', List.getElem?_eq_getElem hvalue]
      rfl
    · rw [if_neg hi] at hp'
      simp [hp', hi]

end Declarations

/-- A label with a frame that is three wide. -/
def framed : Define where
  name := "Framed"
  parameters := { names := ["text", "width"], defaults := [⟨"3", .int 3, {}⟩] }
  body := [{ typeName := "Label", arguments := [.positional ⟨"text", .name "text", {}⟩] }]

theorem arguments_bound_framed :
    ∃ compiled w₁, (compileDefine (announce 8) [] framed).run {} = some (.ok compiled, w₁) ∧
      framed.parameters.names.Nodup ∧
      framed.parameters.defaults.length ≤ framed.parameters.names.length ∧
      Suits compiled.params [] [("text", .str "on")] ∧
      (∃ values, bindArguments compiled.params [] [("text", .str "on")] = .ok values ∧
        Supplies compiled.params [] [("text", .str "on")] values) ∧
      (¬ ∃ values, bindArguments compiled.params [] [("width", .int 1)] = .ok values) ∧
      compiled.params.map (·.1) = ["text", "width"] ∧
      ∃ values w', (evalDefaults (announce 8) [] framed).run {} = some (.ok values, w') ∧
        ∀ (i : Nat) p, compiled.params[i]? = some p → (p.2.isSome ↔ 1 ≤ i) ∧
          (1 ≤ i → p.2 = values[i - 1]?) := by
  have hcompiled : ∃ w₁ program, (compileDefine (announce 8) [] framed).run {} =
      some (.ok ⟨"Framed", [("text", none), ("width", some (.int 3))], program⟩, w₁) :=
    ⟨_, _, rfl⟩
  obtain ⟨w₁, program, hcompile⟩ := hcompiled
  have hnames : framed.parameters.names.Nodup := by decide
  have hdefaults : framed.parameters.defaults.length ≤ framed.parameters.names.length := by decide
  obtain ⟨hcalls, hdeclared, values, w', hvalues, -, halign⟩ :=
    arguments_bound hcompile hnames hdefaults
  have hsuits : Suits [("text", none), ("width", some (.int 3))] [] [("text", .str "on")] :=
    ⟨by simp, by simp, by simp, by simp⟩
  obtain ⟨hiff, hsupplies, -⟩ := hcalls [] [("text", .str "on")]
  obtain ⟨bound, hbound⟩ := hiff.mpr hsuits
  refine ⟨_, w₁, hcompile, hnames, hdefaults, hsuits, ⟨bound, hbound, hsupplies bound hbound⟩,
    fun hwidth => ?_, hdeclared, values, w', hvalues, halign⟩
  have hfilled := ((hcalls [] [("width", .int 1)]).1.mp hwidth).filled ("text", none)
  simp at hfilled

end LiveUI.Template
