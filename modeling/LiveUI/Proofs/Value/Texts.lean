import LiveUI.Proofs.Number.Integers
import LiveUI.Value.Text

/-! # Texts that tell values apart

The text of a value made of nothing, truth values, integers, strings and lists shows what the value
is, whatever is in its strings. The first character tells the kind of the value, and each kind shows
where its text ends: a word has a fixed length, a string ends at the first mark that is not escaped,
an integer at the first character that is no digit, and a list behind the last of its elements. -/

namespace LiveUI.Value

/-- Nothing, truth values, integers, strings, and lists of data. -/
inductive Datum : Value → Prop
  | nil : Datum nil
  | bool (b : Bool) : Datum (bool b)
  | int (n : Int64) : Datum (int n)
  | str (s : String) : Datum (str s)
  | list {items : List Value} : (∀ v ∈ items, Datum v) → Datum (list items)

attribute [simp] Datum.nil Datum.bool Datum.int Datum.str

@[simp] theorem datum_list {items : List Value} : Datum (list items) ↔ ∀ v ∈ items, Datum v :=
  ⟨fun h => by cases h; assumption, .list⟩

/-! ## Strings -/

/-- A character between quotation marks. -/
def escapedChar (c : Char) : List Char :=
  if c = '\\' ∨ c = '\x27' then ['\\', c] else [c]

/-- The marks are escaped in what the escaping of backslashes has left, and no backslash that it has
put in is a mark. -/
theorem escaped_escaped (cs : List Char) :
    escaped '\x27' (escaped '\\' cs) = cs.flatMap escapedChar := by
  rw [escaped, escaped, List.flatMap_assoc]
  refine List.flatMap_congr fun c _ => ?_
  by_cases hslash : c = '\\'
  · subst hslash
    rfl
  · by_cases hmark : c = '\x27' <;> simp [escapedChar, hslash, hmark]

theorem toList_repr_str (s : String) :
    (repr (str s)).toList = '\x27' :: (s.toList.flatMap escapedChar ++ ['\x27']) := by
  rw [repr, quoteStr, String.toList_ofList, escaped_escaped]
  rfl

theorem escapedChar_ne_mark (c : Char) (xs ys : List Char) :
    escapedChar c ++ xs ≠ '\x27' :: ys := by
  rw [escapedChar]
  split_ifs with hc
  · simp
  · intro h
    exact hc (.inr (List.cons.inj h).1)

theorem escapedChar_inj {c d : Char} {xs ys : List Char}
    (h : escapedChar c ++ xs = escapedChar d ++ ys) : c = d ∧ xs = ys := by
  rw [escapedChar, escapedChar] at h
  split_ifs at h with hc hd hd
  · simpa using h
  · exact absurd (.inl (List.cons.inj h).1.symm) hd
  · exact absurd (.inl (List.cons.inj h).1) hc
  · simpa using h

/-- A string ends at the first mark without a backslash before it. -/
theorem flatMap_escapedChar_inj {cs ds xs ys : List Char}
    (h : cs.flatMap escapedChar ++ '\x27' :: xs = ds.flatMap escapedChar ++ '\x27' :: ys) :
    cs = ds ∧ xs = ys := by
  induction cs generalizing ds with
  | nil =>
      cases ds with
      | nil => exact ⟨rfl, (List.cons.inj h).2⟩
      | cons d ds =>
          rw [List.flatMap_cons, List.append_assoc] at h
          exact absurd h.symm (escapedChar_ne_mark d _ _)
  | cons c cs ih =>
      cases ds with
      | nil =>
          rw [List.flatMap_cons, List.append_assoc] at h
          exact absurd h (escapedChar_ne_mark c _ _)
      | cons d ds =>
          rw [List.flatMap_cons, List.flatMap_cons, List.append_assoc, List.append_assoc] at h
          obtain ⟨rfl, hrest⟩ := escapedChar_inj h
          obtain ⟨rfl, rfl⟩ := ih hrest
          exact ⟨rfl, rfl⟩

/-! ## Integers -/

/-- A character of the text of an integer. -/
def isNumeral (c : Char) : Bool :=
  c == '-' || c.isDigit

theorem isNumeral_of_mem_toString {n : Int} {c : Char} (hc : c ∈ (toString n).toList) :
    isNumeral c = true := by
  rw [Number.toList_toString, List.mem_append] at hc
  rcases hc with hc | hc
  · split_ifs at hc
    · rw [List.mem_singleton.1 hc]
      rfl
    · exact absurd hc List.not_mem_nil
  · rw [isNumeral, Number.isDigit_of_mem_toDigits hc, Bool.or_true]

/-! ## Where a text begins and ends -/

/-- What may stand behind the text of a value: the end of the text, a comma or a closing bracket. -/
def Ends (cs : List Char) : Prop :=
  ∀ c ∈ cs.head?, c = ',' ∨ c = ']'

theorem takeWhile_isNumeral {n : Int} {xs : List Char} (hxs : Ends xs) :
    ((toString n).toList ++ xs).takeWhile isNumeral = (toString n).toList := by
  rw [List.takeWhile_append_of_pos fun c hc => isNumeral_of_mem_toString hc]
  cases xs with
  | nil => simp
  | cons c xs => rcases hxs c rfl with rfl | rfl <;> simp [isNumeral]

theorem toString_inj_of_ends {m n : Int} {xs ys : List Char} (hxs : Ends xs) (hys : Ends ys)
    (h : (toString m).toList ++ xs = (toString n).toList ++ ys) : m = n ∧ xs = ys := by
  have htext : (toString m).toList = (toString n).toList := by
    rw [← takeWhile_isNumeral hxs, h, takeWhile_isNumeral hys]
  exact ⟨Int.repr_injective (String.toList_inj.1 htext), List.append_cancel_left (htext ▸ h)⟩

/-- The type of the values whose text starts with the character. -/
def leads : Char → Option String
  | 'N' => some "NoneType"
  | 'T' | 'F' => some "bool"
  | '\x27' => some "str"
  | '[' => some "list"
  | c => if isNumeral c then some "int" else none

theorem leads_of_isNumeral {c : Char} (hc : isNumeral c = true) : leads c = some "int" := by
  unfold leads
  split <;> first | (exact absurd hc (by decide)) | exact if_pos hc

theorem toList_repr_list (items : List Value) :
    (repr (list items)).toList = '[' :: ((reprList items).toList ++ [']']) := by
  simp [repr]

theorem exists_leads {v : Value} (hv : Datum v) :
    ∃ c cs, (repr v).toList = c :: cs ∧ leads c = some v.typeName := by
  cases hv with
  | nil => exact ⟨_, _, rfl, rfl⟩
  | bool b => cases b <;> exact ⟨_, _, rfl, rfl⟩
  | int n =>
      have hne : (toString n.toInt).toList ≠ [] := by
        rw [Number.toList_toString]
        exact List.append_ne_nil_of_right_ne_nil _ Nat.toDigits_ne_nil
      obtain ⟨c, cs, hcs⟩ := List.exists_cons_of_ne_nil hne
      have hc : isNumeral c = true := isNumeral_of_mem_toString (hcs ▸ List.mem_cons_self)
      exact ⟨c, cs, hcs, leads_of_isNumeral hc⟩
  | str s => exact ⟨_, _, toList_repr_str s, rfl⟩
  | list _ => exact ⟨_, _, toList_repr_list _, rfl⟩

theorem typeName_eq {v w : Value} {xs ys : List Char} (hv : Datum v) (hw : Datum w)
    (h : (repr v).toList ++ xs = (repr w).toList ++ ys) : v.typeName = w.typeName := by
  obtain ⟨c, cs, hcs, hc⟩ := exists_leads hv
  obtain ⟨d, ds, hds, hd⟩ := exists_leads hw
  rw [hcs, hds] at h
  obtain rfl := (List.cons.inj h).1
  exact Option.some.inj (hc.symm.trans hd)

/-! ## Lists -/

/-- The text of a list behind one of its elements. -/
def closing : List Value → List Char
  | [] => [']']
  | v :: vs => ',' :: ' ' :: ((repr v).toList ++ closing vs)

theorem toList_reprList_cons (v : Value) (vs : List Value) (xs : List Char) :
    (reprList (v :: vs)).toList ++ ']' :: xs = (repr v).toList ++ (closing vs ++ xs) := by
  induction vs generalizing v with
  | nil => rfl
  | cons w ws ih =>
      simp only [closing, List.cons_append, List.append_assoc, ← ih w]
      rw [reprList]
      · simp
      · exact nofun

theorem repr_ne_bracket {v : Value} (hv : Datum v) (xs ys : List Char) :
    (repr v).toList ++ xs ≠ ']' :: ys := by
  obtain ⟨c, cs, hcs, hc⟩ := exists_leads hv
  rw [hcs]
  intro h
  rw [(List.cons.inj h).1] at hc
  cases hc

theorem ends_closing (vs : List Value) (xs : List Char) : Ends (closing vs ++ xs) := by
  cases vs with
  | nil => simp [Ends, closing]
  | cons v vs => simp [Ends, closing]

/-- The text of the value is that of no other one, wherever it ends. -/
def Legible (v : Value) : Prop :=
  ∀ ⦃w xs ys⦄, Datum w → Ends xs → Ends ys → (repr v).toList ++ xs = (repr w).toList ++ ys →
    v = w ∧ xs = ys

theorem closing_inj {vs ws : List Value} {xs ys : List Char} (hvs : ∀ v ∈ vs, Legible v)
    (hws : ∀ w ∈ ws, Datum w) (h : closing vs ++ xs = closing ws ++ ys) : vs = ws ∧ xs = ys := by
  induction vs generalizing ws with
  | nil =>
      cases ws with
      | nil => exact ⟨rfl, (List.cons.inj h).2⟩
      | cons w ws => simp [closing] at h
  | cons v vs ih =>
      cases ws with
      | nil => simp [closing] at h
      | cons w ws =>
          rw [List.forall_mem_cons] at hvs hws
          simp only [closing, List.cons_append, List.append_assoc, List.cons.injEq, true_and] at h
          obtain ⟨rfl, hrest⟩ := hvs.1 hws.1 (ends_closing vs xs) (ends_closing ws ys) h
          obtain ⟨rfl, rfl⟩ := ih hvs.2 hws.2 hrest
          exact ⟨rfl, rfl⟩

theorem reprList_inj {vs ws : List Value} {xs ys : List Char} (hvs : ∀ v ∈ vs, Datum v)
    (hlegible : ∀ v ∈ vs, Legible v) (hws : ∀ w ∈ ws, Datum w)
    (h : (reprList vs).toList ++ ']' :: xs = (reprList ws).toList ++ ']' :: ys) :
    vs = ws ∧ xs = ys := by
  cases vs with
  | nil =>
      cases ws with
      | nil => exact ⟨rfl, (List.cons.inj h).2⟩
      | cons w ws =>
          rw [toList_reprList_cons] at h
          exact absurd h.symm (repr_ne_bracket (hws w List.mem_cons_self) _ _)
  | cons v vs =>
      cases ws with
      | nil =>
          rw [toList_reprList_cons] at h
          exact absurd h (repr_ne_bracket (hvs v List.mem_cons_self) _ _)
      | cons w ws =>
          rw [toList_reprList_cons, toList_reprList_cons] at h
          rw [List.forall_mem_cons] at hlegible hws
          obtain ⟨rfl, hrest⟩ := hlegible.1 hws.1 (ends_closing vs xs) (ends_closing ws ys) h
          obtain ⟨rfl, rfl⟩ := closing_inj hlegible.2 hws.2 hrest
          exact ⟨rfl, rfl⟩

/-! ## All texts -/

theorem Datum.legible {v : Value} (hv : Datum v) : Legible v := by
  -- The kinds of the two values agree, so each case has one kind of the other value to look at.
  induction hv with
  | nil =>
      intro w xs ys hw _ _ h
      have hkind := typeName_eq .nil hw h
      cases hw with
      | nil => exact ⟨rfl, List.append_cancel_left h⟩
      | _ => exact absurd hkind (by simp [typeName])
  | bool b =>
      intro w xs ys hw _ _ h
      have hkind := typeName_eq (.bool b) hw h
      cases hw with
      | bool c => cases b <;> cases c <;> simp_all [repr]
      | _ => exact absurd hkind (by simp [typeName])
  | int n =>
      intro w xs ys hw hxs hys h
      have hkind := typeName_eq (.int n) hw h
      cases hw with
      | int m =>
          obtain ⟨hn, rfl⟩ := toString_inj_of_ends hxs hys h
          rw [Int64.toInt_inj.1 hn]
          exact ⟨rfl, rfl⟩
      | _ => exact absurd hkind (by simp [typeName])
  | str s =>
      intro w xs ys hw _ _ h
      have hkind := typeName_eq (.str s) hw h
      cases hw with
      | str t =>
          simp only [toList_repr_str, List.cons_append, List.append_assoc, List.cons.injEq,
            true_and, List.nil_append] at h
          obtain ⟨hst, rfl⟩ := flatMap_escapedChar_inj h
          rw [String.toList_inj.1 hst]
          exact ⟨rfl, rfl⟩
      | _ => exact absurd hkind (by simp [typeName])
  | list hitems ih =>
      intro w xs ys hw _ _ h
      have hkind := typeName_eq (.list hitems) hw h
      cases hw with
      | list hitems' =>
          simp only [toList_repr_list, List.cons_append, List.append_assoc, List.cons.injEq,
            true_and, List.nil_append] at h
          obtain ⟨rfl, rfl⟩ := reprList_inj hitems ih hitems' h
          exact ⟨rfl, rfl⟩
      | _ => exact absurd hkind (by simp [typeName])

/-- **Texts tell values apart.** Two data have the same text just where they are the same value. -/
theorem repr_eq_iff {v w : Value} (hv : Datum v) (hw : Datum w) : v.repr = w.repr ↔ v = w := by
  refine ⟨fun h => ?_, fun h => h ▸ rfl⟩
  have hempty : Ends [] := nofun
  exact (hv.legible hw hempty hempty (congrArg (fun s => s.toList ++ []) h)).1

theorem repr_eq_iff_quotes :
    (list [str "a', 'b"]).repr = (list [str "a", str "b"]).repr ↔
      list [str "a', 'b"] = list [str "a", str "b"] :=
  repr_eq_iff (by simp) (by simp)

end LiveUI.Value
