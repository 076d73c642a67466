import Mathlib
import LiveUI.Value.Call

/-! # The order of exact values

Integers, strings and lists of them, nested to any depth, are compared exactly. Two of them compare
as equal when they are the same, the other way round they compare the other way, and what is below
something that is below a third value can be compared with that one, and is below it. The least and
the greatest of such values are therefore settled by the values and their order alone. -/

namespace LiveUI.Value

/-- Integers, strings, and lists of exact values. -/
inductive Exact : Value → Prop
  | int (n : Int64) : Exact (int n)
  | str (s : String) : Exact (str s)
  | list {items : List Value} : (∀ v ∈ items, Exact v) → Exact (list items)

attribute [simp] Exact.int Exact.str

@[simp] theorem exact_list {items : List Value} : Exact (list items) ↔ ∀ v ∈ items, Exact v :=
  ⟨fun h => by cases h; assumption, .list⟩

/-- What a comparison comes to where its operands change places. -/
def mirrored : Except EvalError Ordering → Except EvalError Ordering
  | .ok o => .ok o.swap
  | .error (.type (.unordered left right)) => .error (.type (.unordered right left))
  | .error e => .error e

theorem mirrored_eq_ok_iff {r : Except EvalError Ordering} {o : Ordering} :
    mirrored r = .ok o ↔ r = .ok o.swap := by
  cases r with
  | ok p => cases p <;> cases o <;> simp [mirrored]
  | error e =>
      cases e with
      | type fault => cases fault <;> simp [mirrored]
      | _ => simp [mirrored]

theorem compareStr_eq_compare (s t : String) : compareStr s t = Ord.compare s t :=
  rfl

/-! ## Lists of values -/

section Lists

variable {a b : Value} {as bs cs : List Value}

/-- A list is decided at the first elements, or behind them where they are equal. -/
theorem compareList_cons_eq_ok_iff {o : Ordering} :
    compareList (a :: as) (b :: bs) = .ok o ↔
      compare a b = .ok o ∧ o ≠ .eq ∨ compare a b = .ok .eq ∧ compareList as bs = .ok o := by
  rw [compareList]
  cases compare a b with
  | error e => simp
  | ok p => cases p <;> cases o <;> simp

theorem compareList_mirrored (h : ∀ a ∈ as, ∀ b ∈ bs, compare b a = mirrored (compare a b)) :
    compareList bs as = mirrored (compareList as bs) := by
  induction as generalizing bs with
  | nil => cases bs <;> rfl
  | cons a as ih =>
      cases bs with
      | nil => rfl
      | cons b bs =>
          have hhead := h a List.mem_cons_self b List.mem_cons_self
          have htail := ih fun u hu v hv =>
            h u (List.mem_cons_of_mem a hu) v (List.mem_cons_of_mem b hv)
          rw [compareList, compareList, hhead]
          cases compare a b with
          | error e =>
              cases e with
              | type fault => cases fault <;> rfl
              | _ => rfl
          | ok o =>
              cases o with
              | eq => exact htail
              | lt | gt => rfl

theorem compareList_eq_iff (h : ∀ a ∈ as, ∀ b ∈ bs, (compare a b = .ok .eq ↔ a = b)) :
    compareList as bs = .ok .eq ↔ as = bs := by
  induction as generalizing bs with
  | nil => cases bs <;> simp [compareList]
  | cons a as ih =>
      cases bs with
      | nil => simp [compareList]
      | cons b bs =>
          have hhead := h a List.mem_cons_self b List.mem_cons_self
          have htail := ih fun u hu v hv =>
            h u (List.mem_cons_of_mem a hu) v (List.mem_cons_of_mem b hv)
          simp [compareList_cons_eq_ok_iff, hhead, htail]

theorem beqList_iff (h : ∀ a ∈ as, ∀ b ∈ bs, (a.beq b = true ↔ a = b)) :
    beqList as bs = true ↔ as = bs := by
  induction as generalizing bs with
  | nil => cases bs <;> simp [beqList]
  | cons a as ih =>
      cases bs with
      | nil => simp [beqList]
      | cons b bs =>
          have hhead := h a List.mem_cons_self b List.mem_cons_self
          have htail := ih fun u hu v hv =>
            h u (List.mem_cons_of_mem a hu) v (List.mem_cons_of_mem b hv)
          simp [beqList, hhead, htail]

end Lists

/-! ## The laws of the order -/

section Laws

variable {a b c : Value} {o : Ordering}

theorem compare_eq_iff (ha : Exact a) (hb : Exact b) : compare a b = .ok .eq ↔ a = b := by
  induction ha generalizing b with
  | int m => cases hb <;> simp [compare, asFloat?, Int64.toInt_inj]
  | str s => cases hb <;> simp [compare, asFloat?, compareStr_eq_compare]
  | list _ ih =>
      cases hb with
      | list hitems =>
          rw [compare, compareList_eq_iff fun u hu v hv => ih u hu (hitems v hv), list.injEq]
      | _ => simp [compare, asFloat?]

theorem beq_iff (ha : Exact a) (hb : Exact b) : (a == b) = true ↔ a = b := by
  change a.beq b = true ↔ a = b
  induction ha generalizing b with
  | int m => cases hb <;> simp [beq, asFloat?]
  | str s => cases hb <;> simp [beq, asFloat?]
  | list _ ih =>
      cases hb with
      | list hitems => rw [beq, beqList_iff fun u hu v hv => ih u hu (hitems v hv), list.injEq]
      | _ => simp [beq, asFloat?]

theorem compare_mirrored (ha : Exact a) (hb : Exact b) : compare b a = mirrored (compare a b) := by
  induction ha generalizing b with
  | int m =>
      cases hb with
      | int n => exact congrArg Except.ok Std.OrientedOrd.eq_swap
      | _ => rfl
  | str s =>
      cases hb with
      | str t => exact congrArg Except.ok (Std.OrientedOrd.eq_swap (a := t) (b := s))
      | _ => rfl
  | list _ ih =>
      cases hb with
      | list hitems =>
          rw [compare, compare]
          exact compareList_mirrored fun u hu v hv => ih u hu (hitems v hv)
      | _ => rfl

/-- Lists whose elements are so are below each other transitively: the first difference of the outer
two is that of two neighbours, and a neighbour that is equal may be put in for the other. -/
theorem compareList_lt_trans {as bs cs : List Value} (has : ∀ a ∈ as, Exact a)
    (hbs : ∀ b ∈ bs, Exact b) (hcs : ∀ c ∈ cs, Exact c)
    (h : ∀ a ∈ as, ∀ b ∈ bs, ∀ c ∈ cs, compare a b = .ok .lt → compare b c = .ok .lt →
      compare a c = .ok .lt)
    (hab : compareList as bs = .ok .lt) (hbc : compareList bs cs = .ok .lt) :
    compareList as cs = .ok .lt := by
  induction as generalizing bs cs with
  | nil =>
      cases cs with
      | nil => cases bs <;> cases hbc
      | cons c cs => rfl
  | cons a as ih =>
      cases bs with
      | nil => cases hab
      | cons b bs =>
          cases cs with
          | nil => cases hbc
          | cons c cs =>
              rw [List.forall_mem_cons] at has hbs hcs
              rw [compareList_cons_eq_ok_iff] at hab hbc ⊢
              rcases hab with ⟨hab, -⟩ | ⟨hab, hrest⟩
              · refine .inl ⟨?_, nofun⟩
                rcases hbc with ⟨hbc, -⟩ | ⟨hbc, -⟩
                · exact h a List.mem_cons_self b List.mem_cons_self c List.mem_cons_self hab hbc
                · exact (compare_eq_iff hbs.1 hcs.1).1 hbc ▸ hab
              · obtain rfl := (compare_eq_iff has.1 hbs.1).1 hab
                refine hbc.imp id fun hbc => ⟨hbc.1, ?_⟩
                exact ih has.2 hbs.2 hcs.2 (fun u hu v hv w hw => h u (List.mem_cons_of_mem _ hu) v
                  (List.mem_cons_of_mem _ hv) w (List.mem_cons_of_mem _ hw)) hrest hbc.2

theorem compare_lt_trans (ha : Exact a) (hb : Exact b) (hc : Exact c)
    (hab : compare a b = .ok .lt) (hbc : compare b c = .ok .lt) : compare a c = .ok .lt := by
  induction ha generalizing b c with
  | int m =>
      cases hb with
      | int n =>
          cases hc with
          | int k =>
              exact congrArg Except.ok
                (Std.TransCmp.lt_trans (Except.ok.inj hab) (Except.ok.inj hbc))
          | _ => cases hbc
      | _ => cases hab
  | str s =>
      cases hb with
      | str t =>
          cases hc with
          | str u =>
              rw [compare, compareStr_eq_compare] at hab hbc ⊢
              exact congrArg Except.ok
                (Std.TransCmp.lt_trans (Except.ok.inj hab) (Except.ok.inj hbc))
          | _ => cases hbc
      | _ => cases hab
  | list has ih =>
      cases hb with
      | list hbs =>
          cases hc with
          | list hcs =>
              rw [compare] at hab hbc ⊢
              exact compareList_lt_trans has hbs hcs
                (fun u hu v hv w hw => ih u hu (hbs v hv) (hcs w hw)) hab hbc
          | _ => cases hbc
      | _ => cases hab

theorem compare_trans (ha : Exact a) (hb : Exact b) (hc : Exact c) (hab : compare a b = .ok o)
    (hbc : compare b c = .ok o) : compare a c = .ok o := by
  cases o with
  | lt => exact compare_lt_trans ha hb hc hab hbc
  | eq => exact (compare_eq_iff ha hb).1 hab ▸ hbc
  | gt =>
      rw [compare_mirrored hb ha, mirrored_eq_ok_iff] at hab
      rw [compare_mirrored hc hb, mirrored_eq_ok_iff] at hbc
      rw [compare_mirrored hc ha, mirrored_eq_ok_iff]
      exact compare_lt_trans hc hb ha hbc hab

end Laws

/-! ## The least and the greatest -/

/-- Exact values any two of which can be compared. -/
structure Chain (items : List Value) : Prop where
  exact : ∀ v ∈ items, Exact v
  comparable : items.Pairwise fun u v => ∃ o, compare u v = .ok o

/-- The value is the first of the items that no item is on the side `side` of. It is itself on that
side of all items before it. -/
def Foremost (side : Ordering) (items : List Value) (v : Value) : Prop :=
  (∀ u ∈ items, compare u v ≠ .ok side) ∧
    ∃ before after, items = before ++ v :: after ∧ ∀ u ∈ before, compare v u = .ok side

section Extremes

variable {items seen rest : List Value} {u v best : Value} {side : Ordering}

theorem compare_self (hv : Exact v) : compare v v = .ok .eq :=
  (compare_eq_iff hv hv).2 rfl

theorem Chain.compare_of_mem (h : Chain items) (hu : u ∈ items) (hv : v ∈ items) :
    ∃ o, compare u v = .ok o := by
  refine h.comparable.forall_of_forall_of_flip
    (fun v hv => ⟨_, compare_self (h.exact v hv)⟩) ?_ hu hv
  refine h.comparable.imp_of_mem fun hu hv ⟨o, ho⟩ => ⟨o.swap, ?_⟩
  rw [compare_mirrored (h.exact _ hu) (h.exact _ hv), ho]
  rfl

theorem Chain.left (h : Chain (seen ++ rest)) : Chain seen :=
  ⟨fun v hv => h.exact v (List.mem_append_left rest hv), (List.pairwise_append.1 h.comparable).1⟩

theorem foremost_singleton (hside : side ≠ .eq) (hv : Exact v) : Foremost side [v] v := by
  refine ⟨List.forall_mem_singleton.2 ?_, [], [], rfl, nofun⟩
  rw [compare_self hv]
  exact fun h => hside (Except.ok.inj h).symm

/-- An item is on the side of another one that is not on that side of it, unless they are equal. -/
theorem compare_of_ne {o : Ordering} (hside : side ≠ .eq) (hu : Exact u) (hv : Exact v)
    (hne : compare u v ≠ .ok side) (ho : compare v u = .ok o) :
    compare v u = .ok side ∨ v = u := by
  rw [compare_mirrored hv hu, ne_eq, mirrored_eq_ok_iff, ho, Except.ok.injEq] at hne
  rw [← compare_eq_iff hv hu, ho, Except.ok.injEq, Except.ok.injEq]
  cases o <;> cases side <;> simp_all

theorem Foremost.mem (h : Foremost side items v) : v ∈ items := by
  obtain ⟨-, before, after, rfl, -⟩ := h
  exact List.mem_append_right _ List.mem_cons_self

/-- A further item is passed over where it is not on the side of the foremost one so far. -/
theorem Foremost.pass (h : Foremost side seen best) (hv : compare v best ≠ .ok side) :
    Foremost side (seen ++ [v]) best := by
  obtain ⟨hnone, before, after, rfl, hbefore⟩ := h
  refine ⟨List.forall_mem_append.2 ⟨hnone, List.forall_mem_singleton.2 hv⟩,
    before, after ++ [v], ?_, hbefore⟩
  rw [List.append_assoc, List.cons_append]

/-- A further item that is on the side of the foremost one so far is on that side of all items. -/
theorem Foremost.replace (hside : side ≠ .eq) (h : Foremost side seen best)
    (hchain : Chain (seen ++ [v])) (hv : compare v best = .ok side) :
    Foremost side (seen ++ [v]) v := by
  obtain ⟨hexact, hexactv⟩ := List.forall_mem_append.1 hchain.exact
  have hvexact : Exact v := hexactv v List.mem_cons_self
  have hbest : Exact best := hexact best h.mem
  -- What is not on the side of `best` is equal to it, or `best` is on the side of it.
  have hall : ∀ u ∈ seen, compare v u = .ok side := by
    intro u hu
    obtain ⟨o, ho⟩ :=
      hchain.compare_of_mem (List.mem_append_left _ h.mem) (List.mem_append_left _ hu)
    obtain hlt | rfl := compare_of_ne hside (hexact u hu) hbest (h.1 u hu) ho
    · exact compare_trans hvexact hbest (hexact u hu) hv hlt
    · exact hv
  refine ⟨List.forall_mem_append.2 ⟨fun u hu => ?_, ?_⟩, seen, [], rfl, hall⟩
  · rw [compare_mirrored hvexact (hexact u hu), hall u hu]
    cases side <;> simp_all [mirrored]
  · exact (foremost_singleton hside hvexact).1

theorem keepBest_foremost (hside : side ≠ .eq) (hchain : Chain (seen ++ items))
    (hbest : Foremost side seen best) :
    ∃ v, Builtin.keepBest side best items = .ok v ∧ Foremost side (seen ++ items) v := by
  induction items generalizing seen best with
  | nil => exact ⟨best, rfl, (List.append_nil seen).symm ▸ hbest⟩
  | cons v items ih =>
      rw [List.append_cons] at hchain ⊢
      obtain ⟨o, ho⟩ := hchain.compare_of_mem (u := v) (v := best) (by simp) (by simp [hbest.mem])
      -- The best item is at every step the foremost one of those seen.
      have hnext : Foremost side (seen ++ [v]) (if o = side then v else best) := by
        split_ifs with h
        · exact hbest.replace hside hchain.left (h ▸ ho)
        · exact hbest.pass (by simp [ho, h])
      rw [Builtin.keepBest, ho]
      exact ih hchain hnext

/-- The items are given as the elements of one list or, where there are two or more of them, as
arguments. -/
theorem extreme_foremost (b : Builtin) (hside : side ≠ .eq) (hne : items ≠ [])
    (hchain : Chain items) :
    ∃ v, Foremost side items v ∧ b.extreme side [.list items] = .ok v ∧
      (2 ≤ items.length → b.extreme side items = .ok v) := by
  cases items with
  | nil => exact absurd rfl hne
  | cons first rest =>
      have hfirst := foremost_singleton hside (hchain.exact first List.mem_cons_self)
      obtain ⟨v, hv, hforemost⟩ := keepBest_foremost hside hchain hfirst
      refine ⟨v, hforemost, hv, fun hlength => ?_⟩
      cases rest with
      | nil => exact absurd hlength (Nat.not_le.2 Nat.one_lt_two)
      | cons second rest =>
          rw [Builtin.extreme]
          exacts [hv, nofun, nofun]

end Extremes

theorem lt_eq_true_iff {a b : Value} :
    binary .lt a b = .ok (bool true) ↔ compare a b = .ok .lt := by
  rw [binary, ordered]
  cases compare a b with
  | error e => exact iff_of_false nofun nofun
  | ok o => cases o <;> simp [bind, Except.bind, pure, Except.pure]

/-- **The order of exact values.** Exact values compare as equal just where they are equal; a
comparison the other way round comes to the mirrored result, or fails, too; and where `a < b` and
`b < c` are true, `a` can be compared with `c` and is below it. The least and the greatest of exact
values any two of which can be compared is the first one that no other is below or above. -/
theorem exact_order :
    (∀ a b, Exact a → Exact b →
      (compare a b = .ok .eq ↔ (a == b) = true) ∧
      compare b a = mirrored (compare a b) ∧
      ∀ c, Exact c → binary .lt a b = .ok (bool true) → binary .lt b c = .ok (bool true) →
        compare a c = .ok .lt) ∧
    ∀ items, items ≠ [] → Chain items →
      (∃ v, Foremost .lt items v ∧ Builtin.min.apply [list items] = .ok v ∧
        (2 ≤ items.length → Builtin.min.apply items = .ok v)) ∧
      ∃ v, Foremost .gt items v ∧ Builtin.max.apply [list items] = .ok v ∧
        (2 ≤ items.length → Builtin.max.apply items = .ok v) := by
  refine ⟨fun a b ha hb => ⟨?_, compare_mirrored ha hb, fun c hc hab hbc => ?_⟩,
    fun items hne hchain =>
      ⟨extreme_foremost _ nofun hne hchain, extreme_foremost _ nofun hne hchain⟩⟩
  · rw [compare_eq_iff ha hb, beq_iff ha hb]
  · exact compare_lt_trans ha hb hc (lt_eq_true_iff.1 hab) (lt_eq_true_iff.1 hbc)

theorem exact_order_rows :
    compare (list [int 1]) (list [int 2, str "a"]) = .ok .lt ∧
      ∃ v, Foremost .lt [list [int 2], list [int 1, str "b"], list [int 1, str "b"]] v ∧
        Builtin.min.apply [list [int 2], list [int 1, str "b"], list [int 1, str "b"]] = .ok v := by
  have hchain : Chain [list [int 2], list [int 1, str "b"], list [int 1, str "b"]] := by
    refine ⟨by simp, ?_⟩
    simp only [List.pairwise_cons, List.forall_mem_cons]
    exact ⟨⟨⟨.gt, rfl⟩, ⟨.gt, rfl⟩, nofun⟩, ⟨⟨.eq, rfl⟩, nofun⟩, nofun, .nil⟩
  obtain ⟨hlaws, hextremes⟩ := exact_order
  obtain ⟨v, hv, -, hmin⟩ := (hextremes _ (List.cons_ne_nil _ _) hchain).1
  exact ⟨(hlaws (list [int 1]) (list [int 1, str "b"]) (by simp) (by simp)).2.2
    (list [int 2, str "a"]) (by simp) rfl rfl, v, hv, hmin (by decide)⟩

end LiveUI.Value
