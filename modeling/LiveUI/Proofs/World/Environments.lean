import LiveUI.Proofs.Template.Resolution
import LiveUI.World.Evaluation

/-! # Names and their values

The names of an expression decide by themselves whether it can be lowered. Its code then does what
the expression does where each name has the value that is meant: it reads the same attributes in the
same order, calls the same functions and fails with the same error. -/

namespace LiveUI

open Evaluation

namespace Expr

/-! ## The names of an expression -/

theorem find?_foldl_firstSeen (p : String → Bool) (names seen : List String) :
    (names.foldl (fun seen n => if seen.contains n then seen else seen ++ [n]) seen).find? p =
      (seen ++ names).find? p := by
  induction names generalizing seen with
  | nil => rw [List.foldl_nil, List.append_nil]
  | cons n names ih =>
      rw [List.foldl_cons, ih, List.find?_append, List.find?_append, List.find?_cons]
      by_cases hn : n ∈ seen
      · rw [if_pos (by simpa using hn)]
        cases hp : p n with
        | false => rfl
        | true =>
            -- The name has been found in front of this occurrence.
            obtain ⟨m, hm⟩ := Option.isSome_iff_exists.1 (List.find?_isSome.2 ⟨n, hn, hp⟩)
            rw [hm, Option.some_or, Option.some_or]
      · rw [if_neg (by simpa using hn), List.find?_append, Option.or_assoc]
        cases hp : p n <;> simp [hp]

/-- The first name with a property is the first occurrence with it. -/
theorem find?_names (p : String → Bool) (e : Expr) : e.names.find? p = e.occurrences.find? p := by
  rw [names, firstSeen, find?_foldl_firstSeen, List.nil_append]

theorem mem_names {e : Expr} {name : String} : name ∈ e.names ↔ name ∈ e.occurrences := by
  have hfind := find?_names (· == name) e
  have hmem : ∀ {names : List String}, name ∈ names ↔ (names.find? (· == name)).isSome = true := by
    simp
  rw [hmem, hmem, hfind]

/-! ## The value of an expression -/

mutual

/-- The value of an expression where each name has the value that `env` gives it. Operands go from
left to right, and only the branch that is taken is evaluated. -/
def evaluate (apply : Apply) (env : String → Value) : Expr → Evaluation Value
  | int n => return .int n
  | float x => return .float x
  | str s => return .str s
  | bool b => return .bool b
  | nil => return .nil
  | name n => return env n
  | list items => return .list (← evaluateAll apply env items)
  | attr value a => do readAttr (← evaluate apply env value) a
  | index value i => do
      let base ← evaluate apply env value
      ofExcept (Value.subscript base (← evaluate apply env i))
  | call func args => do
      let callee ← evaluate apply env func
      Evaluation.call apply callee (← evaluateAll apply env args)
  | unary op operand => do ofExcept (Value.unary op (← evaluate apply env operand))
  | binary op left right => do
      let l ← evaluate apply env left
      ofExcept (Value.binary op l (← evaluate apply env right))
  | boolOp .and left right => do
      let l ← evaluate apply env left
      if l.isTruthy then evaluate apply env right else return l
  | boolOp .or left right => do
      let l ← evaluate apply env left
      if l.isTruthy then return l else evaluate apply env right
  | ifElse body condition otherwise => do
      if (← evaluate apply env condition).isTruthy then evaluate apply env body
      else evaluate apply env otherwise

def evaluateAll (apply : Apply) (env : String → Value) : List Expr → Evaluation (List Value)
  | [] => return []
  | e :: es => do
      let v ← evaluate apply env e
      return v :: (← evaluateAll apply env es)

end

end Expr

namespace Code

/-- A name is looked up without leaving a trace. -/
def known (resolve : String → Option Code) (name : String) : Lowering Code :=
  match resolve name with
  | some code => return code
  | none => throw name

/-- The code stands for a value: it is a constant, a slot or the change record. -/
inductive StandsFor (scope : Scope) : Code → Value → Prop where
  | const (v : Value) : StandsFor scope (.const v) v
  | slot (n : Nat) : StandsFor scope (.slot n) (scope.frame.get n)
  | change : StandsFor scope .change scope.change

variable {apply : Apply} {scope : Scope} {env : String → Value} {Means : String → Code → Prop}
  {resolve : String → Option Code}

theorem StandsFor.eval {code : Code} {v : Value} (h : StandsFor scope code v) :
    code.eval apply scope = pure v := by
  cases h <;> rw [Code.eval]

mutual

/-- Code for an expression is evaluated as the expression is. -/
theorem eval_of_lowers : ∀ (e : Expr) {code : Code}, Lowers Means e code →
    (∀ name ∈ e.occurrences, ∀ c, Means name c → c.StandsFor scope (env name)) →
    code.eval apply scope = e.evaluate apply env
  | .int _, _, .int _, _ => by rw [eval, Expr.evaluate]
  | .float _, _, .float _, _ => by rw [eval, Expr.evaluate]
  | .str _, _, .str _, _ => by rw [eval, Expr.evaluate]
  | .bool _, _, .bool _, _ => by rw [eval, Expr.evaluate]
  | .nil, _, .nil, _ => by rw [eval, Expr.evaluate]
  | .name _, _, .name h, hnames => by
      rw [Expr.evaluate, (hnames _ (List.mem_singleton.2 rfl) _ h).eval]
  | .list es, _, .list h, hnames => by rw [eval, Expr.evaluate, evalAll_of_lowers es h hnames]
  | .attr e _, _, .attr h, hnames => by rw [eval, Expr.evaluate, eval_of_lowers e h hnames]
  | .index e i, _, .index h hi, hnames => by
      -- The names of the parts are those of the whole, in the order of the parts.
      rw [Expr.occurrences, List.forall_mem_append] at hnames
      rw [eval, Expr.evaluate, eval_of_lowers e h hnames.1, eval_of_lowers i hi hnames.2]
  | .call f es, _, .call h hes, hnames => by
      rw [Expr.occurrences, List.forall_mem_append] at hnames
      rw [eval, Expr.evaluate, eval_of_lowers f h hnames.1, evalAll_of_lowers es hes hnames.2]
  | .unary _ e, _, .unary h, hnames => by rw [eval, Expr.evaluate, eval_of_lowers e h hnames]
  | .binary _ l r, _, .binary hl hr, hnames => by
      rw [Expr.occurrences, List.forall_mem_append] at hnames
      rw [eval, Expr.evaluate, eval_of_lowers l hl hnames.1, eval_of_lowers r hr hnames.2]
  | .boolOp op l r, _, .boolOp hl hr, hnames => by
      rw [Expr.occurrences, List.forall_mem_append] at hnames
      cases op <;>
        rw [eval, Expr.evaluate, eval_of_lowers l hl hnames.1, eval_of_lowers r hr hnames.2]
  | .ifElse b c o, _, .ifElse hb hc ho, hnames => by
      rw [Expr.occurrences, List.forall_mem_append, List.forall_mem_append] at hnames
      rw [eval, Expr.evaluate, eval_of_lowers b hb hnames.1.1, eval_of_lowers c hc hnames.1.2,
        eval_of_lowers o ho hnames.2]

theorem evalAll_of_lowers : ∀ (es : List Expr) {codes : List Code},
    List.Forall₂ (Lowers Means) es codes →
    (∀ name ∈ Expr.occurrencesList es, ∀ c, Means name c → c.StandsFor scope (env name)) →
    evalAll apply scope codes = Expr.evaluateAll apply env es
  | [], _, .nil, _ => by rw [evalAll, Expr.evaluateAll]
  | e :: es, _, .cons h hes, hnames => by
      rw [Expr.occurrencesList, List.forall_mem_append] at hnames
      rw [evalAll, Expr.evaluateAll, eval_of_lowers e h hnames.1, evalAll_of_lowers es hes hnames.2]

end

open Lowering (Looks)

theorem known_looks (resolve : String → Option Code) (name : String) :
    Looks (fun name => (resolve name).isNone) [name] (resolve name = some ·)
      (known resolve name) := by
  intro n
  cases hname : resolve name with
  | none =>
      simp only [List.find?_singleton, hname, Option.isNone_none, if_true, known]
      rfl
  | some code => simpa [known, hname] using ⟨n, rfl⟩

/-- Lowering that looks its names up fails with the first of the names that is unknown, and without
one it has a result. -/
theorem lower_known (resolve : String → Option Code) (e : Expr) (n : Nat) :
    match e.names.find? (fun name => (resolve name).isNone) with
    | some name => (lower (known resolve) e).run n = .error name
    | none => ∃ code n', (lower (known resolve) e).run n = .ok (code, n') ∧
        Lowers (fun name code => resolve name = some code) e code := by
  rw [Expr.find?_names]
  exact lower_looks (known_looks resolve) e n

theorem lower_known_error_iff {e : Expr} {n : Nat} {name : String} :
    (lower (known resolve) e).run n = .error name ↔
      e.names.find? (fun name => (resolve name).isNone) = some name := by
  have hrun := lower_known resolve e n
  cases hfirst : e.names.find? (fun name => (resolve name).isNone) with
  | some first =>
      rw [hfirst] at hrun
      rw [hrun, Except.error.injEq, Option.some.injEq]
  | none =>
      rw [hfirst] at hrun
      obtain ⟨code, n', hrun, -⟩ := hrun
      simp [hrun]

theorem lower_known_ok_iff {e : Expr} {n : Nat} :
    (∃ code n', (lower (known resolve) e).run n = .ok (code, n')) ↔
      e.names.find? (fun name => (resolve name).isNone) = none := by
  have hrun := lower_known resolve e n
  cases hfirst : e.names.find? (fun name => (resolve name).isNone) with
  | some first =>
      rw [hfirst] at hrun
      simp [hrun]
  | none =>
      rw [hfirst] at hrun
      obtain ⟨code, n', hrun, -⟩ := hrun
      simp [hrun]

theorem lowers_of_lower_known {e : Expr} {n n' : Nat} {code : Code}
    (h : (lower (known resolve) e).run n = .ok (code, n')) :
    Lowers (fun name code => resolve name = some code) e code := by
  have hrun := lower_known resolve e n
  rw [lower_known_ok_iff.1 ⟨code, n', h⟩] at hrun
  obtain ⟨lowered, m, hrun, hlowers⟩ := hrun
  rw [h] at hrun
  cases hrun
  exact hlowers

/-- An expression can be lowered where each of its names is known, and fails with the first of them
that is not. Its code does what the expression does where each name has the value that its code
stands for: the result, the reads and the failure are the same. -/
theorem lower_names (resolve : String → Option Code) (e : Expr) (n : Nat) :
    ((∃ code n', (lower (known resolve) e).run n = .ok (code, n')) ↔
      ∀ name ∈ e.names, (resolve name).isSome) ∧
    (∀ name, (lower (known resolve) e).run n = .error name ↔
      ∃ before after, e.names = before ++ name :: after ∧ (∀ m ∈ before, (resolve m).isSome) ∧
        resolve name = none) ∧
    ∀ code n', (lower (known resolve) e).run n = .ok (code, n') →
      ∀ (apply : Apply) (scope : Scope) (env : String → Value),
        (∀ name ∈ e.names, ∀ c, resolve name = some c → c.StandsFor scope (env name)) →
        code.eval apply scope = e.evaluate apply env := by
  refine ⟨?success, fun name => ?failure, fun code n' hrun apply scope env hnames => ?value⟩
  case success =>
    rw [lower_known_ok_iff, List.find?_eq_none]
    simp [Option.isSome_iff_ne_none]
  case failure =>
    rw [lower_known_error_iff, List.find?_eq_some_iff_append]
    constructor
    · rintro ⟨hname, before, after, hsplit, hbefore⟩
      exact ⟨before, after, hsplit, fun m hm => by simpa using hbefore m hm, by simpa using hname⟩
    · rintro ⟨before, after, hsplit, hbefore, hname⟩
      exact ⟨by simpa using hname, before, after, hsplit, fun m hm => by simpa using hbefore m hm⟩
  case value =>
    refine eval_of_lowers e (lowers_of_lower_known hrun) fun name hname c hc => ?_
    exact hnames name (Expr.mem_names.2 hname) c hc

/-- The names in a frame of one slot. -/
def oneSlot (name : String) : Option Code :=
  if name = "m" then some (.slot 0) else none

/-- With a slot for `m`, the code of `m.x * 2` fails where the expression does, and `m + b + c`
cannot be lowered for `b`. -/
theorem lower_names_one_slot :
    (∃ code n', (lower (known oneSlot) (.binary .mul (.attr (.name "m") "x") (.int 2))).run 0 =
      .ok (code, n')) ∧
    (lower (known oneSlot)
        (.binary .add (.binary .add (.name "m") (.name "b")) (.name "c"))).run 0 = .error "b" ∧
    (binary .mul (attr (slot 0) "x") (const (.int 2))).eval (fun _ _ _ => none)
        ⟨⟨[.str "x"]⟩, .nil⟩ =
      (Expr.binary .mul (.attr (.name "m") "x") (.int 2)).evaluate (fun _ _ _ => none)
        fun _ => .str "x" := by
  refine ⟨?_, ?_, ?_⟩
  · exact (lower_names oneSlot _ 0).1.2 (by decide)
  · exact ((lower_names oneSlot _ 0).2.1 "b").2 ⟨["m"], ["c"], by decide, by decide, by decide⟩
  · refine (lower_names oneSlot _ 0).2.2 _ 0 rfl _ _ _ fun name hname c hc => ?_
    obtain rfl := List.mem_singleton.1 (Expr.mem_names.1 hname)
    cases hc
    exact StandsFor.slot 0

end Code

end LiveUI
