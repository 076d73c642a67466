import LiveUI.Markup.Printer

/-! # Templates without their places

Two templates that differ only in the places of their nodes have the same texts, and equality does
not tell them apart. The exact texts of the expressions stay. -/

namespace LiveUI

def Expression.unplaced (e : Expression) : Expression :=
  { e with pos := {} }

namespace Markup

def Assignment.unplaced (a : Assignment) : Assignment :=
  { a with value := a.value.unplaced, pos := {} }

def Argument.unplaced : Argument → Argument
  | positional value => positional value.unplaced
  | keyword name value => keyword name value.unplaced

namespace Construct

mutual

def unplaced : Construct → Construct
  | ⟨typeName, arguments, unpack, captures, body, _⟩ =>
      ⟨typeName, arguments.map (·.unplaced), unpack, captures, unplacedBody body, {}⟩

def unplacedBody : List (BodyItem Construct) → List (BodyItem Construct)
  | [] => []
  | item :: items => unplacedItem item :: unplacedBody items

def unplacedItem : BodyItem Construct → BodyItem Construct
  | .assignment a => .assignment a.unplaced
  | .child c => .child (unplaced c)

end

end Construct

def Parameters.unplaced (p : Parameters) : Parameters :=
  ⟨p.names, p.defaults.map (·.unplaced)⟩

def Define.unplaced (d : Define) : Define :=
  ⟨d.name, d.parameters.unplaced, d.body.map (·.unplaced), {}⟩

def Item.unplaced : Item → Item
  | define d => define d.unplaced
  | construct c => construct c.unplaced

def Module.unplaced (m : Module) : Module :=
  ⟨m.items.map (·.unplaced)⟩

/-! ## Texts -/

theorem Assignment.text_unplaced (a : Assignment) : a.unplaced.text = a.text :=
  rfl

@[simp]
theorem Argument.text_unplaced (a : Argument) : a.unplaced.text = a.text := by
  cases a <;> rfl

namespace Construct

theorem header_unplaced (typeName : String) (arguments : List Argument) (unpack : List String)
    (captures : List Capture) (pos : Source.Position) :
    header ⟨typeName, arguments.map (·.unplaced), unpack, captures, [], {}⟩ =
      header ⟨typeName, arguments, unpack, captures, [], pos⟩ := by
  simp [header, Function.comp_def]

mutual

theorem lines_unplaced (k : Nat) : ∀ c : Construct, c.unplaced.lines k = c.lines k
  | ⟨typeName, arguments, unpack, captures, [], pos⟩ => by
      rw [unplaced, unplacedBody, lines, lines, header_unplaced]
  | ⟨typeName, arguments, unpack, captures, item :: items, pos⟩ => by
      have hbody := bodyLines_unplaced (k + 1) (item :: items)
      rw [unplacedBody] at hbody
      rw [unplaced, unplacedBody, lines, lines, header_unplaced, hbody] <;> simp

theorem bodyLines_unplaced (k : Nat) :
    ∀ items : List (BodyItem Construct), bodyLines k (unplacedBody items) = bodyLines k items
  | [] => rfl
  | item :: items => by
      rw [unplacedBody, bodyLines, bodyLines, itemLines_unplaced k item,
        bodyLines_unplaced k items]

theorem itemLines_unplaced (k : Nat) :
    ∀ item : BodyItem Construct, itemLines k (unplacedItem item) = itemLines k item
  | .assignment a => rfl
  | .child c => by rw [unplacedItem, itemLines, itemLines, lines_unplaced k c]

end

end Construct

theorem Parameters.default?_unplaced (p : Parameters) (i : Nat) :
    p.unplaced.default? i = (p.default? i).map (·.unplaced) := by
  simp only [default?, unplaced, List.length_map]
  split <;> simp

theorem Parameters.text_unplaced (p : Parameters) : p.unplaced.text = p.text := by
  rw [text, text]
  congr 1
  refine List.mapIdx_eq_mapIdx_iff.2 fun i hi => ?_
  rw [default?_unplaced]
  cases p.default? i <;> rfl

theorem Define.text_unplaced (d : Define) : d.unplaced.text = d.text := by
  simp [text, unplaced, Parameters.text_unplaced, Construct.lines_unplaced, Function.comp_def]

theorem Item.text_unplaced (item : Item) : item.unplaced.text = item.text := by
  cases item with
  | define d => exact d.text_unplaced
  | construct c => exact Construct.lines_unplaced 0 c

theorem Module.text_unplaced (m : Module) : m.unplaced.text = m.text := by
  simp [text, unplaced, Item.text_unplaced, Function.comp_def]

/-! ## Equality -/

theorem beq_map {α : Type} [BEq α] {f : α → α} (h : ∀ a b, (f a == f b) = (a == b)) :
    ∀ as bs : List α, (as.map f == bs.map f) = (as == bs)
  | [], [] | [], _ :: _ | _ :: _, [] => rfl
  | a :: as, b :: bs => by
      rw [List.map_cons, List.map_cons, List.cons_beq_cons, List.cons_beq_cons, h, beq_map h as bs]

theorem Argument.beq_unplaced (a b : Argument) : (a.unplaced == b.unplaced) = (a == b) := by
  cases a <;> cases b <;> rfl

namespace Construct

mutual

theorem beq_unplaced : ∀ a b : Construct, beq a.unplaced b.unplaced = beq a b
  | ⟨_, as, _, _, body, _⟩, ⟨_, bs, _, _, body', _⟩ => by
      rw [unplaced, unplaced, beq, beq, beq_map Argument.beq_unplaced as bs,
        beqBody_unplaced body body']

theorem beqBody_unplaced : ∀ xs ys : List (BodyItem Construct),
    beqBody (unplacedBody xs) (unplacedBody ys) = beqBody xs ys
  | [], [] | [], _ :: _ | _ :: _, [] => rfl
  | x :: xs, y :: ys => by
      rw [unplacedBody, unplacedBody, beqBody, beqBody, beqItem_unplaced x y,
        beqBody_unplaced xs ys]

theorem beqItem_unplaced : ∀ x y : BodyItem Construct,
    beqItem (unplacedItem x) (unplacedItem y) = beqItem x y
  | .assignment _, .assignment _ | .assignment _, .child _ | .child _, .assignment _ => rfl
  | .child c, .child d => by
      rw [unplacedItem, unplacedItem, beqItem, beqItem, beq_unplaced c d]

end

end Construct

theorem Parameters.beq_unplaced (p q : Parameters) : (p.unplaced == q.unplaced) = (p == q) := by
  have hdefaults : (p.defaults.map (·.unplaced) == q.defaults.map (·.unplaced)) =
      (p.defaults == q.defaults) :=
    beq_map (f := Expression.unplaced) (fun _ _ => rfl) _ _
  have h : (p.names == q.names && p.defaults.map (·.unplaced) == q.defaults.map (·.unplaced)) =
      (p.names == q.names && p.defaults == q.defaults) := by
    rw [hdefaults]
  exact h

theorem Define.beq_unplaced (d e : Define) : (d.unplaced == e.unplaced) = (d == e) := by
  have h : (d.name == e.name && d.parameters.unplaced == e.parameters.unplaced &&
      d.body.map (·.unplaced) == e.body.map (·.unplaced)) =
        (d.name == e.name && d.parameters == e.parameters && d.body == e.body) := by
    rw [Parameters.beq_unplaced, beq_map Construct.beq_unplaced]
  exact h

theorem Item.beq_unplaced (a b : Item) : (a.unplaced == b.unplaced) = (a == b) := by
  cases a with
  | define d =>
      cases b with
      | define e => exact d.beq_unplaced e
      | construct => rfl
  | construct c =>
      cases b with
      | define => rfl
      | construct c' => exact c.beq_unplaced c'

/-- Places take no part in the equality of modules. -/
theorem Module.beq_unplaced (m n : Module) : (m.unplaced == n.unplaced) = (m == n) := by
  have h : (m.items.map (·.unplaced) == n.items.map (·.unplaced)) = (m.items == n.items) :=
    beq_map Item.beq_unplaced _ _
  exact h

end Markup

end LiveUI
