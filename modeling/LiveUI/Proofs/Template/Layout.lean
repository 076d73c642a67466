import LiveUI.Proofs.Template.Emission

/-! # The layout of programs

Every construct that a program opens it closes again. The slots are taken in a row, those of the
parameters first and then, construct by construct, the slot of the construct itself and the slots of
its names, and nothing reads a slot before the operation that takes it. The record of a change is
read in the value of a `>>` only, and the value of a `:=` is an attribute path. -/

namespace LiveUI

/-- Whenever lowering has a result, the result is as `post` says. -/
def Lowering.Makes {α : Type} (post : α → Prop) (lowering : Lowering α) : Prop :=
  ∀ n a n', lowering.run n = .ok (a, n') → post a

namespace Lowering.Makes

variable {α β : Type} {P : α → Prop} {Q : β → Prop} {lowering : Lowering α}

theorem pure {a : α} (h : P a) : Makes P (Pure.pure a) := by
  intro n b n' hrun
  cases hrun
  exact h

theorem throw (name : String) : Makes P (MonadExcept.throw name) :=
  fun _ _ _ hrun => nomatch hrun

theorem bind {f : α → Lowering β} (h : Makes P lowering) (hf : ∀ a, P a → Makes Q (f a)) :
    Makes Q (lowering >>= f) := by
  intro n b n' hrun
  rw [StateT.run_bind] at hrun
  cases hfirst : lowering.run n with
  | error name =>
      rw [hfirst] at hrun
      cases hrun
  | ok r =>
      rw [hfirst] at hrun
      exact hf r.1 (h n r.1 r.2 hfirst) r.2 b n' hrun

theorem map {f : α → β} (h : Makes P lowering) (hf : ∀ a, P a → Q (f a)) :
    Makes Q (do return f (← lowering)) :=
  h.bind fun a ha => pure (hf a ha)

end Lowering.Makes

namespace Code

open Lowering (Makes)

mutual

/-- What an expression is put together from: constants, slots and the record of the change. -/
def leaves : Code → List Code
  | const v => [const v]
  | slot i => [slot i]
  | change => [change]
  | list items => leavesAll items
  | attr value _ => leaves value
  | index value i => leaves value ++ leaves i
  | call func args => leaves func ++ leavesAll args
  | unary _ operand => leaves operand
  | binary _ left right | boolOp _ left right => leaves left ++ leaves right
  | ifElse body condition otherwise => leaves body ++ leaves condition ++ leaves otherwise

def leavesAll : List Code → List Code
  | [] => []
  | c :: cs => leaves c ++ leavesAll cs

end

variable {P : Code → Prop} {resolve : String → Lowering Code}

mutual

/-- Lowering puts literals and the meanings of names together, and nothing else. -/
theorem lower_leaves (hconst : ∀ v, P (const v))
    (hname : ∀ name, Makes (fun c => ∀ leaf ∈ c.leaves, P leaf) (resolve name)) : ∀ e : Expr,
    Makes (fun c => ∀ leaf ∈ c.leaves, P leaf) (lower resolve e)
  | .int _ | .float _ | .str _ | .bool _ | .nil => .pure fun _ hleaf => by
      rw [List.mem_singleton.mp hleaf]
      exact hconst _
  | .name name => hname name
  | .list items => (lowerAll_leaves hconst hname items).map fun _ h => h
  | .attr value _ => (lower_leaves hconst hname value).map fun _ h => h
  | .unary _ operand => (lower_leaves hconst hname operand).map fun _ h => h
  | .call func args => (lower_leaves hconst hname func).bind fun _ hfunc =>
      (lowerAll_leaves hconst hname args).map fun _ hargs =>
        List.forall_mem_append.mpr ⟨hfunc, hargs⟩
  | .index left right | .binary _ left right | .boolOp _ left right =>
      (lower_leaves hconst hname left).bind fun _ hleft =>
        (lower_leaves hconst hname right).map fun _ hright =>
          List.forall_mem_append.mpr ⟨hleft, hright⟩
  | .ifElse body condition otherwise => (lower_leaves hconst hname body).bind fun _ hbody =>
      (lower_leaves hconst hname condition).bind fun _ hcondition =>
        (lower_leaves hconst hname otherwise).map fun _ hotherwise =>
          List.forall_mem_append.mpr ⟨List.forall_mem_append.mpr ⟨hbody, hcondition⟩, hotherwise⟩

theorem lowerAll_leaves (hconst : ∀ v, P (const v))
    (hname : ∀ name, Makes (fun c => ∀ leaf ∈ c.leaves, P leaf) (resolve name)) :
    ∀ es : List Expr, Makes (fun cs => ∀ leaf ∈ leavesAll cs, P leaf) (lowerAll resolve es)
  | [] => .pure nofun
  | e :: es => (lower_leaves hconst hname e).bind fun _ hfirst =>
      (lowerAll_leaves hconst hname es).map fun _ hrest => List.forall_mem_append.mpr ⟨hfirst, hrest⟩

end

/-- What can be read where `slots` slots have been taken. `notify` says that a change is being
handled. -/
inductive Available (slots : Nat) (notify : Bool) : Code → Prop where
  | const (v : Value) : Available slots notify (.const v)
  | slot {i : Nat} (h : i < slots) : Available slots notify (.slot i)
  | change (h : notify = true) : Available slots notify .change

/-- Nothing is read but what can be. -/
def Reads (slots : Nat) (notify : Bool) (c : Code) : Prop :=
  ∀ leaf ∈ c.leaves, leaf.Available slots notify

theorem Available.reads {slots : Nat} {notify : Bool} {c : Code} (hleaf : c.leaves = [c])
    (h : c.Available slots notify) : c.Reads slots notify := by
  intro leaf hmem
  rw [hleaf, List.mem_singleton] at hmem
  exact hmem ▸ h

theorem Reads.lt {slots i : Nat} {notify : Bool} {c : Code} (h : c.Reads slots notify)
    (hi : .slot i ∈ c.leaves) : i < slots := by
  cases h _ hi with
  | slot h => exact h

theorem Reads.notify_eq {slots : Nat} {notify : Bool} {c : Code} (h : c.Reads slots notify)
    (hc : .change ∈ c.leaves) : notify = true := by
  cases h _ hc with
  | change h => exact h

end Code

namespace Template

open Markup
open Lowering (Makes)

/-! ## Programs -/

/-- The slots that an operation takes: that of the construct, then those of its names. -/
def Op.introduced : Op → List Nat
  | .build b => b.selfSlot :: (b.unpack ++ b.captures.map (·.1))
  | .assign .. | .close => []

/-- The code that an operation reads values from. -/
def Op.codes : Op → List Code
  | .build b => b.args ++ b.keywords.map (·.2)
  | .assign target _ value _ => [target.base, value]
  | .close => []

/-- The number of constructs that are open behind operations, if there are no more that close than
have been opened. -/
def nesting? : Nat → List Op → Option Nat
  | depth, [] => some depth
  | depth, .build _ :: ops => nesting? (depth + 1) ops
  | depth, .assign .. :: ops => nesting? depth ops
  | 0, .close :: _ => none
  | depth + 1, .close :: ops => nesting? depth ops

theorem nesting?_append (ops ops' : List Op) (depth : Nat) :
    nesting? depth (ops ++ ops') = (nesting? depth ops).bind fun depth => nesting? depth ops' := by
  fun_induction nesting? depth ops with
  | case1 => rfl
  | case2 _ _ _ ih | case3 _ _ _ _ _ _ ih | case5 _ _ ih =>
      rw [List.cons_append, nesting?, ih]
  | case4 => rfl

/-- An operation reads what has been taken before it. Only the value of a `>>` reads the change, and
the value of a `:=` reads one attribute. -/
structure Op.Fits (slots : Nat) (op : Op) : Prop where
  reads : ∀ code ∈ op.codes, ∀ i, .slot i ∈ code.leaves → i < slots
  change : ∀ code ∈ op.codes, .change ∈ code.leaves →
    ∃ target place, op = .assign target .notify code place
  path : ∀ target value place, op = .assign target .delegate value place →
    ∃ base attr, value = .attr base attr

/-- Every operation reads what the ones before it have taken. -/
def FitBehind : Nat → List Op → Prop
  | _, [] => True
  | slots, op :: ops => op.Fits slots ∧ FitBehind (slots + op.introduced.length) ops

theorem FitBehind.append {slots : Nat} {ops ops' : List Op} (h : FitBehind slots ops)
    (h' : FitBehind (slots + (ops.flatMap Op.introduced).length) ops') :
    FitBehind slots (ops ++ ops') := by
  induction ops generalizing slots with
  | nil => exact h'
  | cons op ops ih =>
      refine ⟨h.1, ih h.2 ?_⟩
      rw [List.flatMap_cons, List.length_append, ← Nat.add_assoc] at h'
      exact h'

theorem FitBehind.at {slots : Nat} {before after : List Op} {op : Op}
    (h : FitBehind slots (before ++ op :: after)) :
    op.Fits (slots + (before.flatMap Op.introduced).length) := by
  induction before generalizing slots with
  | nil => exact h.1
  | cons o before ih =>
      rw [List.flatMap_cons, List.length_append, ← Nat.add_assoc]
      exact ih h.2

mutual

/-- The names in the headers of a construct and of those in it, in the order of the text. -/
def headerNames : Construct → List String
  | ⟨_, _, unpack, captures, body, _⟩ => unpack ++ captures.map (·.name) ++ bodyNames body

def bodyNames : List (BodyItem Construct) → List String
  | [] => []
  | .assignment _ :: items => bodyNames items
  | .child c :: items => headerNames c ++ bodyNames items

end

/-- The walk through the parameters and the constructs of a template. -/
def walkTemplate (params : List String) (body : List Construct) : List Mark :=
  params.map .name ++ body.flatMap walkConstruct

/-- A program is laid out well for the template of `params` and `body`. -/
structure Program.LaidOut (globals : Globals) (params : List String) (body : List Construct)
    (p : Program) : Prop where
  balanced : nesting? 0 p.ops = some 0
  /-- Every slot is taken once. -/
  slots : List.range params.length ++ p.ops.flatMap Op.introduced = List.range p.slots
  /-- A slot is read only behind the parameter or the operation that takes it. -/
  reads : ∀ before op after, p.ops = before ++ op :: after → ∀ code ∈ op.codes,
    ∀ i, .slot i ∈ code.leaves → i ∈ List.range params.length ++ before.flatMap Op.introduced
  change : ∀ op ∈ p.ops, ∀ code ∈ op.codes, .change ∈ code.leaves →
    ∃ target place, op = .assign target .notify code place
  path : ∀ target value place, .assign target .delegate value place ∈ p.ops →
    ∃ base attr, value = .attr base attr
  exports_nodup : (p.exports.map (·.1)).Nodup
  mem_exports : ∀ name, name ∈ p.exports.map (·.1) ↔ name ∈ body.flatMap headerNames
  /-- An exported name has the slot that it means at the end of the template. -/
  exports_resolve : ∀ name slot, (name, slot) ∈ p.exports →
    meaning? globals (walkTemplate params body).reverse false name = some (.slot slot)

/-! ## Scopes -/

/-- Names have slots that have been taken, and an exported name has its latest slot. -/
structure Scope.Sound (s : Scope) : Prop where
  locals_lt : ∀ p ∈ s.locals, p.2 < s.slots
  exports_nodup : (s.exports.map (·.1)).Nodup
  latest : ∀ p ∈ s.exports, s.locals.find? (·.1 == p.1) = some p

/-- From one scope to the other the slots `slots` are taken and the names `names` exported. -/
structure Scope.Takes (s s' : Scope) (slots : List Nat) (names : List String) : Prop where
  sound : s'.Sound
  row : slots = List.range' s.slots slots.length
  count : s'.slots = s.slots + slots.length
  mem_exports : ∀ n, n ∈ s'.exports.map (·.1) ↔ n ∈ s.exports.map (·.1) ∨ n ∈ names

section Scopes

variable {s s' s'' : Scope} {slots slots' : List Nat} {names names' : List String}

theorem Scope.Sound.takes (h : s.Sound) : s.Takes s [] [] :=
  ⟨h, rfl, rfl, fun _ => by simp⟩

theorem Scope.Takes.trans (h : s.Takes s' slots names) (h' : s'.Takes s'' slots' names') :
    s.Takes s'' (slots ++ slots') (names ++ names') := by
  constructor
  · exact h'.sound
  · rw [List.length_append, ← List.range'_append_1, ← h.count, ← h.row, ← h'.row]
  · rw [h'.count, h.count, List.length_append, Nat.add_assoc]
  · intro n
    rw [h'.mem_exports, h.mem_exports, List.mem_append, or_assoc]

theorem Scope.Takes.le (h : s.Takes s' slots names) : s.slots ≤ s'.slots :=
  h.count ▸ Nat.le_add_right _ _

/-- Making functions takes no slots. -/
theorem Scope.Sound.withFunctions (h : s.Sound) (n : Nat) : Scope.Sound { s with functions := n } :=
  ⟨h.locals_lt, h.exports_nodup, h.latest⟩

theorem Scope.Sound.alloc (h : s.Sound) : s.Takes s.alloc.2 [s.slots] [] :=
  ⟨⟨fun p hp => Nat.lt_succ_of_lt (h.locals_lt p hp), h.exports_nodup, h.latest⟩, rfl, rfl,
    fun _ => by simp [Scope.alloc]⟩

theorem map_fst_putExport (name : String) (slot : Nat) : ∀ exports : List (String × Nat),
    (Scope.putExport exports name slot).map (·.1) =
      if name ∈ exports.map (·.1) then exports.map (·.1) else exports.map (·.1) ++ [name]
  | [] => rfl
  | (n, old) :: rest => by
      simp only [Scope.putExport, List.map_cons]
      by_cases hn : n = name
      · simp [hn]
      · rw [if_neg hn, List.map_cons, map_fst_putExport name slot rest]
        by_cases hrest : name ∈ rest.map (·.1)
        · rw [if_pos hrest, if_pos (List.mem_cons_of_mem _ hrest)]
        · rw [if_neg hrest, if_neg (by simp [hrest, Ne.symm hn]), List.cons_append]

/-- Where names are distinct, an export takes the place of the earlier one of its name. -/
theorem mem_putExport_nodup {p : String × Nat} {name : String} {slot : Nat} :
    ∀ {exports : List (String × Nat)}, (exports.map (·.1)).Nodup →
      p ∈ Scope.putExport exports name slot → p = (name, slot) ∨ p ∈ exports ∧ p.1 ≠ name
  | [], _, h => .inl (List.mem_singleton.mp h)
  | (n, old) :: rest, hnodup, h => by
      rw [List.map_cons, List.nodup_cons] at hnodup
      simp only [Scope.putExport] at h
      split at h
      next hn =>
        subst hn
        rcases List.mem_cons.mp h with rfl | h
        · exact .inl rfl
        · refine .inr ⟨List.mem_cons_of_mem _ h, fun heq => hnodup.1 ?_⟩
          exact List.mem_map.mpr ⟨p, h, heq⟩
      next hn =>
        rcases List.mem_cons.mp h with rfl | h
        · exact .inr ⟨List.mem_cons_self, hn⟩
        · exact (mem_putExport_nodup hnodup.2 h).imp_right
            fun h => ⟨List.mem_cons_of_mem _ h.1, h.2⟩

theorem Scope.Sound.bindExport (h : s.Sound) (name : String) :
    s.Takes (s.bindExport name).2 [s.slots] [name] := by
  have hnames : (s.bindExport name).2.exports.map (·.1) =
      if name ∈ s.exports.map (·.1) then s.exports.map (·.1) else s.exports.map (·.1) ++ [name] :=
    map_fst_putExport name s.slots s.exports
  refine ⟨⟨?_, ?_, ?_⟩, rfl, rfl, ?_⟩
  · intro p hp
    rcases List.mem_cons.mp hp with rfl | hp
    · exact Nat.lt_succ_self _
    · exact Nat.lt_succ_of_lt (h.locals_lt p hp)
  · rw [hnames]
    split
    · exact h.exports_nodup
    next hmem =>
      refine List.nodup_append.mpr ⟨h.exports_nodup, List.pairwise_singleton _ _, fun n hn m hm => ?_⟩
      rintro rfl
      exact hmem (List.mem_singleton.mp hm ▸ hn)
  · intro p hp
    rcases mem_putExport_nodup h.exports_nodup hp with rfl | ⟨hp, hne⟩
    · simp [Scope.bindExport, Scope.bindLocal]
    · have hfind := h.latest p hp
      simpa [Scope.bindExport, Scope.bindLocal, List.find?_cons, Ne.symm hne] using hfind
  · intro n
    rw [hnames]
    split
    next hmem =>
      rw [List.mem_singleton]
      exact ⟨.inl, fun hn => hn.elim id fun hn => hn ▸ hmem⟩
    next => rw [List.mem_append]

/-- Parameters come before anything is exported. -/
theorem Scope.Sound.bindLocal (h : s.Sound) (hexports : s.exports = []) (name : String) :
    s.Takes (s.bindLocal name).2 [s.slots] [] := by
  refine ⟨⟨?_, h.exports_nodup, ?_⟩, rfl, rfl, fun n => by simp [Scope.bindLocal]⟩
  · intro p hp
    rcases List.mem_cons.mp hp with rfl | hp
    · exact Nat.lt_succ_self _
    · exact Nat.lt_succ_of_lt (h.locals_lt p hp)
  · simp [Scope.bindLocal, hexports]

end Scopes

/-! ## Lowering -/

section Lowering

variable {globals : Globals} {s s' : Scope} {self : Option Nat} {place : Location}

theorem constantNamed_reads (globals : Globals) (slots : Nat) (notify : Bool) (name : String) :
    Makes (Code.Reads slots notify) (constantNamed globals name) := by
  simp only [constantNamed]
  split
  · exact .pure ((Code.Available.const _).reads rfl)
  · simp only [Code.builtinNamed]
    split
    · intro n code n' hrun
      cases hrun
      exact (Code.Available.const _).reads rfl
    · exact .throw _

/-- A name means something that can be read. -/
theorem resolve_reads (hs : s.Sound) (hself : ∀ i ∈ self, i < s.slots) (notify : Bool)
    (name : String) :
    Makes (Code.Reads s.slots notify) (resolve globals s.locals self notify name) := by
  simp only [resolve]
  split
  next slot hfind =>
    exact .pure ((Code.Available.slot (hs.locals_lt _ (List.mem_of_find?_eq_some hfind))).reads rfl)
  next =>
    split
    next slot _ => exact .pure ((Code.Available.slot (hself slot rfl)).reads rfl)
    next =>
      split
      next hnotify => exact .pure ((Code.Available.change hnotify).reads rfl)
      next => exact constantNamed_reads globals s.slots notify _
    next => exact constantNamed_reads globals s.slots notify _

/-- What is lowered in a scope is as lowering says, and all that the scope notes is functions. -/
theorem resolved_gives {P : Code → Prop} {lowering : Lowering Code} {code : Code}
    (h : Makes P lowering) (hrun : Emit.resolved place lowering s = .ok (code, s')) :
    P code ∧ ∃ n, s' = { s with functions := n } := by
  rw [resolved_run] at hrun
  cases hlowering : lowering.run s.functions with
  | error name =>
      rw [hlowering] at hrun
      cases hrun
  | ok r =>
      rw [hlowering] at hrun
      cases hrun
      exact ⟨h _ _ _ hlowering, _, rfl⟩

theorem lowerValue_reads (hs : s.Sound) (hself : ∀ i ∈ self, i < s.slots) {notify : Bool}
    {e : Expression} {code : Code}
    (hrun : lowerValue globals self notify place e s = .ok (code, s')) :
    code.Reads s.slots notify ∧ ∃ n, s' = { s with functions := n } :=
  resolved_gives (Code.lower_leaves .const (fun name => resolve_reads hs hself notify name) e.expr)
    hrun

theorem lowerTarget_reads (hs : s.Sound) (hself : ∀ i ∈ self, i < s.slots) {t : Target}
    {target : TargetCode} (hrun : lowerTarget globals self place t s = .ok (target, s')) :
    target.base.Reads s.slots false ∧ ∃ n, s' = { s with functions := n } := by
  have hbase : ∀ {name : String} {f : Code → TargetCode}, (∀ code, (f code).base = code) →
      (Emit.resolved place (resolve globals s.locals self false name) >>= fun base =>
        pure (f base)) s = .ok (target, s') →
      target.base.Reads s.slots false ∧ ∃ n, s' = { s with functions := n } := by
    intro name f hf hrun
    obtain ⟨code, s₁, hname, hrest⟩ := emit_bind hrun
    cases hrest
    rw [hf]
    exact resolved_gives (resolve_reads hs hself false name) hname
  cases t with
  | own attr =>
      cases self with
      | none => cases hrun
      | some slot =>
          cases hrun
          exact ⟨(Code.Available.slot (hself slot rfl)).reads rfl, s.functions, rfl⟩
  | member name attr => exact hbase (f := fun base => { base, attr }) (fun _ => rfl) hrun
  | element name index attr =>
      exact hbase (f := fun base => { base, index := some index, attr }) (fun _ => rfl) hrun

/-- An expression that reads one attribute becomes code that does. -/
theorem lowerValue_path {notify : Bool} {e : Expression} {code : Code} (hpath : isAttrPath e.expr)
    (hrun : lowerValue globals self notify place e s = .ok (code, s')) :
    ∃ base attr, code = .attr base attr := by
  have hgives : Makes (fun c => ∃ base attr, c = .attr base attr)
      (Code.lower (resolve globals s.locals self notify) e.expr) := by
    cases hexpr : e.expr with
    | attr value a =>
        have htrue : Makes (fun _ => True) (Code.lower (resolve globals s.locals self notify) value) :=
          fun _ _ _ _ => trivial
        exact htrue.map fun base _ => ⟨base, a, rfl⟩
    | _ => simp [hexpr, isAttrPath] at hpath
  exact (resolved_gives hgives hrun).1

end Lowering

/-! ## Emission -/

/-- From one scope to the other the operations take slots in a row, each reads what has been taken
before it, and they close what they open. -/
structure Lays (s s' : Scope) (ops : List Op) (names : List String) : Prop where
  takes : s.Takes s' (ops.flatMap Op.introduced) names
  fit : FitBehind s.slots ops
  balanced : ∀ depth, nesting? depth ops = some depth

section Emission

variable {globals : Globals} {s s' s'' : Scope} {self : Option Nat}

theorem Lays.trans {ops ops' : List Op} {names names' : List String} (h : Lays s s' ops names)
    (h' : Lays s' s'' ops' names') : Lays s s'' (ops ++ ops') (names ++ names') := by
  constructor
  · rw [List.flatMap_append]
    exact h.takes.trans h'.takes
  · exact h.fit.append (h.takes.count ▸ h'.fit)
  · intro depth
    rw [nesting?_append, h.balanced, Option.bind_some, h'.balanced]

theorem Scope.Sound.lays (h : s.Sound) : Lays s s [] [] :=
  ⟨h.takes, trivial, fun _ => rfl⟩

theorem emitAssignment_lays {slot : Nat} {a : Assignment} {op : Op} (hs : s.Sound)
    (hslot : slot < s.slots) (hrun : emitAssignment globals (some slot) a s = .ok (op, s')) :
    Lays s s' [op] [] := by
  have hself : ∀ i ∈ some slot, i < s.slots := fun i hi => by rwa [← Option.some.inj hi]
  obtain ⟨target, s₁, htarget, hrun⟩ := emit_bind hrun
  obtain ⟨hbase, n, rfl⟩ := lowerTarget_reads hs hself htarget
  dsimp only at hrun
  split at hrun
  · cases hrun
  next hpath =>
    obtain ⟨code, s₂, hvalue, hrun⟩ := emit_bind hrun
    cases hrun
    obtain ⟨hcode, n', rfl⟩ := lowerValue_reads (hs.withFunctions n) hself hvalue
    refine ⟨?_, ⟨⟨?_, ?_, ?_⟩, trivial⟩, fun _ => rfl⟩
    · exact ⟨(hs.withFunctions n).withFunctions n', rfl, rfl, fun _ => by simp⟩
    · intro c hc i hi
      rcases List.mem_pair.mp hc with rfl | rfl
      · exact hbase.lt hi
      · exact hcode.lt hi
    · intro c hc hchange
      rcases List.mem_pair.mp hc with rfl | rfl
      · cases hbase.notify_eq hchange
      · exact ⟨target, _, by rw [of_decide_eq_true (hcode.notify_eq hchange)]⟩
    · intro t value place heq
      obtain ⟨-, hop, rfl, -⟩ := Op.assign.inj heq
      exact lowerValue_path (by simpa [hop] using hpath) hvalue

/-- Item by item each result has a property, and only functions are noted. -/
theorem emit_mapM_forall {α β : Type} {f : α → Emit β} {P : β → Prop}
    (hf : ∀ {a b n s'}, f a { s with functions := n } = .ok (b, s') →
      P b ∧ ∃ n', s' = { s with functions := n' })
    {as : List α} {bs : List β} {n : Nat}
    (hrun : as.mapM f { s with functions := n } = .ok (bs, s')) :
    (∀ b ∈ bs, P b) ∧ ∃ n', s' = { s with functions := n' } := by
  induction as generalizing n bs with
  | nil =>
      cases hrun
      exact ⟨nofun, n, rfl⟩
  | cons a as ih =>
      rw [List.mapM_cons] at hrun
      obtain ⟨b, s₁, hfirst, hrun⟩ := emit_bind hrun
      obtain ⟨bs', s₂, hrest, hrun⟩ := emit_bind hrun
      cases hrun
      obtain ⟨hb, n₁, rfl⟩ := hf hfirst
      obtain ⟨hbs, hn⟩ := ih hrest
      exact ⟨List.forall_mem_cons.mpr ⟨hb, hbs⟩, hn⟩

/-- Names are exported one after another, each with a slot of its own. -/
theorem emit_mapM_takes {α β : Type} {f : α → Emit β} (name : α → String) (slot : β → Nat)
    (hf : ∀ {a b s s'}, f a s = .ok (b, s') → slot b = s.slots ∧ s' = (s.bindExport (name a)).2)
    (hs : s.Sound) {as : List α} {bs : List β} (hrun : as.mapM f s = .ok (bs, s')) :
    s.Takes s' (bs.map slot) (as.map name) := by
  induction as generalizing s bs with
  | nil =>
      cases hrun
      exact hs.takes
  | cons a as ih =>
      rw [List.mapM_cons] at hrun
      obtain ⟨b, s₁, hfirst, hrun⟩ := emit_bind hrun
      obtain ⟨bs', s₂, hrest, hrun⟩ := emit_bind hrun
      cases hrun
      obtain ⟨hslot, rfl⟩ := hf hfirst
      have htakes := hs.bindExport (name a)
      rw [← hslot] at htakes
      exact htakes.trans (ih htakes.sound hrest)

/-- A construct takes its own slot and those of its names, behind its arguments. -/
theorem emitBuild_takes {c : Construct} {b : Build} (hs : s.Sound) (hself : ∀ i ∈ self, i < s.slots)
    (hrun : emitBuild globals self c s = .ok (b, s')) :
    s.Takes s' (Op.build b).introduced (c.unpack ++ c.captures.map (·.name)) ∧
      (Op.build b).Fits s.slots := by
  obtain ⟨args, s₁, hargs, hrun⟩ := emit_bind hrun
  obtain ⟨keywords, s₂, hkeywords, hrun⟩ := emit_bind hrun
  obtain ⟨selfSlot, s₃, hslot, hrun⟩ := emit_bind hrun
  obtain ⟨unpack, s₄, hunpack, hrun⟩ := emit_bind hrun
  obtain ⟨captures, s₅, hcaptures, hrun⟩ := emit_bind hrun
  cases hrun
  cases hslot
  obtain ⟨hargsRead, n, rfl⟩ := emit_mapM_forall (P := Code.Reads s.slots false) (n := s.functions)
    (fun {_ _ n _} h => lowerValue_reads (hs.withFunctions n) hself h) hargs
  obtain ⟨hkeywordsRead, n', rfl⟩ := emit_mapM_forall (P := fun p : String × Code =>
    p.2.Reads s.slots false) (s := s) (fun {_ _ n _} h => by
      obtain ⟨code, _, hvalue, hrest⟩ := emit_bind h
      cases hrest
      exact lowerValue_reads (hs.withFunctions n) hself hvalue) hkeywords
  have hfunctions := hs.withFunctions n'
  have hunpack := emit_mapM_takes id id (fun h => by cases h; exact ⟨rfl, rfl⟩)
    hfunctions.alloc.sound hunpack
  have hcaptures := emit_mapM_takes Capture.name Prod.fst (fun h => by
    obtain ⟨slot, _, hslot, hrest⟩ := emit_bind h
    cases hrest
    cases hslot
    exact ⟨rfl, rfl⟩) hunpack.sound hcaptures
  have hcodes : ∀ code ∈ args ++ keywords.map (·.2), code.Reads s.slots false :=
    List.forall_mem_append.mpr ⟨hargsRead, List.forall_mem_map.mpr hkeywordsRead⟩
  refine ⟨?_, ?_, ?_, ?_⟩
  · have htakes := (hfunctions.alloc.trans hunpack).trans hcaptures
    simp only [List.map_id] at htakes
    exact ⟨htakes.sound, htakes.row, htakes.count, htakes.mem_exports⟩
  · exact fun code hcode i hi => (hcodes code hcode).lt hi
  · exact fun code hcode hchange => nomatch (hcodes code hcode).notify_eq hchange
  · exact fun _ _ _ heq => nomatch heq

mutual

/-- The operations of a construct are laid out behind those before them. -/
theorem emitConstruct_lays : ∀ {c : Construct} {s s' : Scope} {self : Option Nat} {ops : List Op},
    s.Sound → (∀ i ∈ self, i < s.slots) → emitConstruct globals self c s = .ok (ops, s') →
    Lays s s' ops (headerNames c)
  | ⟨typeName, arguments, unpack, captures, body, pos⟩, s, s', self, ops, hs, hself, hrun => by
      simp only [emitConstruct] at hrun
      obtain ⟨b, s₁, hbuild, hrun⟩ := emit_bind hrun
      obtain ⟨inner, s₂, hbody, hrun⟩ := emit_bind hrun
      cases hrun
      obtain ⟨htakes, hfits⟩ := emitBuild_takes hs hself hbuild
      have hslot : b.selfSlot < s₁.slots := by
        have hrow := htakes.row
        rw [Op.introduced, List.length_cons, List.range'_succ] at hrow
        rw [(List.cons.inj hrow).1, htakes.count, Op.introduced, List.length_cons]
        omega
      have hinner := emitBody_lays htakes.sound hslot hbody
      refine ⟨?_, ⟨hfits, ?_⟩, fun depth => ?_⟩
      · rw [List.flatMap_append, List.flatMap_cons, headerNames]
        have hall := htakes.trans hinner.takes
        simpa [Op.introduced] using hall
      · refine FitBehind.append (htakes.count ▸ hinner.fit) ⟨⟨nofun, nofun, nofun⟩, trivial⟩
      · rw [List.cons_append, nesting?, nesting?_append, hinner.balanced]
        rfl

theorem emitBody_lays : ∀ {items : List (BodyItem Construct)} {s s' : Scope} {slot : Nat}
    {ops : List Op}, s.Sound → slot < s.slots → emitBody globals slot items s = .ok (ops, s') →
    Lays s s' ops (bodyNames items)
  | [], s, s', slot, ops, hs, hslot, hrun => by
      simp only [emitBody] at hrun
      cases hrun
      exact hs.lays
  | .assignment a :: items, s, s', slot, ops, hs, hslot, hrun => by
      simp only [emitBody, emitItem] at hrun
      obtain ⟨first, s₁, hitem, hrun⟩ := emit_bind hrun
      obtain ⟨op, s₂, hassignment, hitem⟩ := emit_bind hitem
      cases hitem
      obtain ⟨others, s₃, hbody, hrun⟩ := emit_bind hrun
      cases hrun
      have hfirst := emitAssignment_lays hs hslot hassignment
      exact hfirst.trans (emitBody_lays hfirst.takes.sound
        (Nat.lt_of_lt_of_le hslot hfirst.takes.le) hbody)
  | .child c :: items, s, s', slot, ops, hs, hslot, hrun => by
      simp only [emitBody, emitItem] at hrun
      obtain ⟨first, s₁, hitem, hrun⟩ := emit_bind hrun
      obtain ⟨others, s₂, hbody, hrun⟩ := emit_bind hrun
      cases hrun
      have hfirst := emitConstruct_lays hs (fun i hi => by rwa [← Option.some.inj hi]) hitem
      exact hfirst.trans (emitBody_lays hfirst.takes.sound
        (Nat.lt_of_lt_of_le hslot hfirst.takes.le) hbody)

end

theorem emitConstructs_lays {body : List Construct} {parts : List (List Op)} (hs : s.Sound)
    (hrun : body.mapM (emitConstruct globals none) s = .ok (parts, s')) :
    Lays s s' parts.flatten (body.flatMap headerNames) := by
  induction body generalizing s parts with
  | nil =>
      cases hrun
      exact hs.lays
  | cons c body ih =>
      rw [List.mapM_cons] at hrun
      obtain ⟨ops, s₁, hfirst, hrun⟩ := emit_bind hrun
      obtain ⟨parts, s₂, hrest, hrun⟩ := emit_bind hrun
      cases hrun
      have hlays := emitConstruct_lays hs (fun _ hi => absurd hi (Option.not_mem_none _)) hfirst
      exact hlays.trans (ih hlays.takes.sound hrest)

/-- The parameters take the first slots. -/
theorem params_take (hs : s.Sound) (hexports : s.exports = []) (params : List String) :
    ∃ slots, slots.length = params.length ∧
      s.Takes (params.foldl (fun s name => (s.bindLocal name).2) s) slots [] := by
  induction params generalizing s with
  | nil => exact ⟨[], rfl, hs.takes⟩
  | cons name params ih =>
      have htakes := hs.bindLocal hexports name
      obtain ⟨slots, hlength, hrest⟩ := ih htakes.sound hexports
      exact ⟨s.slots :: slots, congrArg _ hlength, htakes.trans hrest⟩

/-! ## Whole programs -/

/-- What an emission leaves knows what has been introduced on the way. -/
theorem Emits.knows {announce : Announce} {past marks : List Mark} {α : Type}
    {post : α → List Part → Prop} {m : Emit α} {a : α} (h : Emits announce globals past marks post m)
    (hs : s.Knows past) (hrun : m s = .ok (a, s')) : s'.Knows (marks.reverse ++ past) := by
  have hm := h s hs
  rw [hrun] at hm
  cases hfault : firstFault? globals past marks with
  | some e =>
      rw [hfault] at hm
      cases hm
  | none =>
      rw [hfault] at hm
      obtain ⟨_, _, _, heq, -, -, hknows⟩ := hm
      cases heq
      exact hknows

/-- At the end of a template the scope knows the names of all of it. -/
theorem knows_template {params : List String} {body : List Construct} {parts : List (List Op)}
    {functions : Nat} (hrun : body.mapM (emitConstruct globals none)
      (params.foldl (fun s name => (s.bindLocal name).2) { functions }) = .ok (parts, s')) :
    s'.Knows (walkTemplate params body).reverse := by
  have hstart : ({ functions } : Scope).Knows [] := ⟨rfl, rfl⟩
  have hnames : Emits (announce 0) globals [] (params.map .name) _ _ := emits_params params
  have hparams := hnames.knows hstart (emit_params params _)
  have howner : Mark.owner ((params.map Mark.name).reverse ++ []) = none :=
    (Mark.Inner.map .name).owner []
  have hemits : Emits (announce 0) globals _ _ _ _ :=
    Emits.mapM Mark.walkConstruct_inner (fun c _ howner => emits_construct c howner) body howner
  have hbody := hemits.knows hparams hrun
  rwa [walkTemplate, List.reverse_append, ← List.append_nil (params.map Mark.name).reverse]

theorem row_of_append (front : List Nat) {slots rest : List Nat} {n : Nat}
    (h : front ++ (slots ++ rest) = List.range n) :
    slots = List.range' front.length slots.length := by
  refine List.ext_getElem (by simp) fun i hi hi' => ?_
  have hget := congrArg (·[front.length + i]?) h
  have hlength := congrArg List.length h
  simp only [List.length_append, List.length_range] at hlength
  simp only [List.getElem?_append_right (Nat.le_add_right _ i), Nat.add_sub_cancel_left,
    List.getElem?_append_left hi, List.getElem?_eq_getElem hi,
    List.getElem?_range (show front.length + i < n by omega)] at hget
  rw [Option.some.inj hget, List.getElem_range', Nat.one_mul]

/-- What the compiler emits is laid out well. -/
theorem emitProgram_laidOut {params : List String} {body : List Construct} {functions n : Nat}
    {p : Program} (hemit : emitProgram globals params body functions = .ok (p, n)) :
    p.LaidOut globals params body := by
  obtain ⟨parts, s', hparts, rfl⟩ := emitProgram_ok hemit
  have hstart : ({ functions } : Scope).Sound := ⟨nofun, List.nodup_nil, nofun⟩
  obtain ⟨slots, hlength, hparams⟩ := params_take hstart rfl params
  have hlays := emitConstructs_lays hparams.sound hparts
  have htakes := hparams.trans hlays.takes
  have hknows := knows_template hparts
  have hslots : slots = List.range params.length := by
    rw [hparams.row, hlength, List.range_eq_range']
  have hcount : (params.foldl (fun s name => (s.bindLocal name).2) { functions } : Scope).slots =
      params.length := by
    rw [hparams.count, hlength]
    exact Nat.zero_add _
  -- Slots are taken in order, first by the parameters and then by the operations.
  have hrow : List.range params.length ++ parts.flatten.flatMap Op.introduced =
      List.range s'.slots := by
    rw [← hslots, htakes.row, htakes.count, List.range_eq_range']
    exact congrArg (List.range' 0) (Nat.zero_add _).symm
  have hfits : ∀ {before op after}, parts.flatten = before ++ op :: after →
      op.Fits (params.length + (before.flatMap Op.introduced).length) := by
    intro before op after heq
    have hfit := hlays.fit
    rw [heq, hcount] at hfit
    exact hfit.at
  refine ⟨hlays.balanced 0, hrow, ?_, ?_, ?_, htakes.sound.exports_nodup, ?_, ?_⟩
  · intro before op after heq code hcode i hi
    have hlt := (hfits heq).reads code hcode i hi
    change parts.flatten = before ++ op :: after at heq
    rw [heq, List.flatMap_append, ← List.append_assoc] at hrow
    have htaken := row_of_append [] hrow
    rw [htaken, List.mem_range'_1]
    simpa using hlt
  · intro op hop
    obtain ⟨before, after, heq⟩ := List.append_of_mem hop
    exact (hfits heq).change
  · intro target value place hop
    obtain ⟨before, after, heq⟩ := List.append_of_mem hop
    exact (hfits heq).path target value place rfl
  · intro name
    have hmem := htakes.mem_exports name
    simpa using hmem
  · intro name slot hp
    have hlatest := htakes.sound.latest _ hp
    rw [hknows.locals] at hlatest
    simp only [meaning?, hlatest]
    rfl

end Emission

end Template

end LiveUI
