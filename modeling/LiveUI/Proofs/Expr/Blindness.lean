import LiveUI.Expr.Grammar
import LiveUI.Proofs.Source.Alike

/-! # The readers of expressions see nothing but tokens

Neither the places of the tokens nor the blanks and comments between them are looked at. -/

namespace LiveUI.Expr

open LiveUI.Source LiveUI.Source.Reader

variable {inner : Reader Expr}

theorem blind_joinedStrings (n : Nat) : Blind (joinedStrings n) := by
  induction n with
  | zero => exact .pure _
  | succ n ih =>
      refine .bind .peek fun k => ?_
      split
      · exact .bind .next fun _ => .bind ih fun _ => .pure _
      · exact .pure _

theorem blind_signs (n : Nat) : Blind (signs n) := by
  induction n with
  | zero => exact .pure _
  | succ n ih =>
      refine .bind .peek fun k => ?_
      split
      · exact .bind .next fun _ => .bind ih fun _ => .pure _
      · exact .bind .next fun _ => .bind ih fun _ => .pure _
      · exact .pure _

theorem blind_negations (n : Nat) : Blind (negations n) := by
  induction n with
  | zero => exact .pure _
  | succ n ih =>
      refine .bind .peek fun k => ?_
      split
      · exact .bind .next fun _ => .bind ih fun _ => .pure _
      · exact .pure _

theorem blind_chained {operand : Reader Expr} (h : Blind operand)
    (op? : Token → Option (Expr → Expr → Expr)) : Blind (chained operand op?) := by
  have hchain : ∀ n left, Blind (chain operand op? n left) := by
    intro n
    induction n with
    | zero => exact fun left => .pure left
    | succ n ih =>
        intro left
        refine .bind .peek fun k => ?_
        split
        · exact .pure left
        · exact .bind .next fun _ => .bind h fun _ => ih _
  exact .bind h fun _ => .bind .remaining fun _ => hchain _ _

theorem comparison?_alike {s t : Stream} (h : s.Alike t) : comparison? t = comparison? s := by
  rw [comparison?, comparison?, h.peek, h.peekSecond]

section

variable (hinner : Blind inner)
include hinner

theorem blind_listUntil (close : Token) (n : Nat) : Blind (listUntil inner close n) := by
  induction n with
  | zero => exact .failHere _
  | succ n ih =>
      refine .bind .peek fun k => .ite (.bind .next fun _ => .pure _) ?_
      refine .bind hinner fun item => .bind .next fun k' => ?_
      split
      · exact .bind ih fun _ => .pure _
      · exact .ite (.pure _) (.failBehind _)

theorem blind_atom : Blind (atom inner) := by
  refine .bind .next fun k => ?_
  split
  case h_3 => exact .bind .remaining fun _ => .bind (blind_joinedStrings _) fun _ => .pure _
  case h_8 => exact .bind hinner fun _ => .bind (.exactly _) fun _ => .pure _
  case h_9 => exact .bind .remaining fun _ => .bind (blind_listUntil hinner _ _) fun _ => .pure _
  case h_10 => exact .failBehind _
  all_goals exact .pure _

theorem blind_trailers (n : Nat) (e : Expr) : Blind (trailers inner n e) := by
  induction n generalizing e with
  | zero => exact .pure e
  | succ n ih =>
      refine .bind .peek fun k => ?_
      split
      · exact .bind .next fun _ => .bind .identifier fun _ => ih _
      · exact .bind .next fun _ => .bind hinner fun _ => .bind (.exactly _) fun _ => ih _
      · exact .bind .next fun _ => .bind .remaining fun _ =>
          .bind (blind_listUntil hinner _ _) fun _ => ih _
      · exact .pure e

theorem blind_factor : Blind (factor inner) :=
  .bind .remaining fun _ => .bind (blind_signs _) fun _ =>
    .bind (.bind (blind_atom hinner) fun _ => .bind .remaining fun _ => blind_trailers hinner _ _)
      fun _ => .pure _

theorem blind_sum : Blind (sum inner) :=
  blind_chained (blind_chained (blind_factor hinner) termOp?) sumOp?

theorem blind_comparison : Blind (comparison inner) := by
  refine .bind (blind_sum hinner) fun left s t h => .get ?_
  rw [comparison?_alike h]
  cases comparison? s with
  | none => exact .pure h rfl
  | some found =>
      obtain ⟨op, width⟩ := found
      have hright : Blind (sum inner >>= fun right => MonadState.get >>= fun s =>
          if (comparison? s).isSome then failHere .chainedComparison
          else pure (Expr.binary op left right) : Reader Expr) := by
        refine .bind (blind_sum hinner) fun right s t h => .get ?_
        rw [comparison?_alike h]
        split
        · exact .failHere _
        · exact .pure h rfl
      have hoperator : Blind (do
          let _ ← next
          if width = 2 then
            let _ ← next
          let right ← sum inner
          if (comparison? (← get)).isSome then failHere .chainedComparison
          else return .binary op left right : Reader Expr) := by
        refine .bind .next fun _ => ?_
        split
        · exact .bind .next fun _ => hright
        · exact hright
      exact hoperator s t h

theorem blind_disjunction : Blind (disjunction inner) :=
  blind_chained (blind_chained (.bind .remaining fun _ => .bind (blind_negations _) fun _ =>
    .bind (blind_comparison hinner) fun _ => .pure _) andOp?) orOp?

end

theorem blind_conditional (depth : Nat) : Blind (conditional depth) := by
  induction depth with
  | zero => exact .bind .peek fun _ => .failHere _
  | succ depth ih =>
      refine .bind (blind_disjunction ih) fun body => .bind .peek fun k => ?_
      split
      · exact .bind .next fun _ => .bind (blind_disjunction ih) fun _ =>
          .bind (.exactly _) fun _ => .bind ih fun _ => .pure _
      · exact .pure body

end LiveUI.Expr
