import LiveUI.Proofs.Value.Integers

/-! # Lists and strings as sequences

A string is the sequence of its characters, and lists and strings are measured, subscripted, added
and repeated alike. That a string is repeated byte by byte cannot be seen: copies of a text one
after another are the bytes of a text. -/

namespace LiveUI.Value

open Number

/-- The elements of a list, or the characters of a string. -/
def elements : Value → List Value
  | list items => items
  | str s => s.toList.map fun c => str (String.ofList [c])
  | _ => []

/-- The count of the elements. -/
abbrev size (v : Value) : Nat :=
  v.elements.length

/-- Two lists, or two strings. -/
inductive Alike : Value → Value → Prop
  | lists (as bs : List Value) : Alike (list as) (list bs)
  | strings (s t : String) : Alike (str s) (str t)

/-! ## Copies -/

section Copies

variable {α β : Type} {xs copies : List α} {times : Int64} {i : Nat}

theorem getElem?_copies (n : Nat) (h : i < n * xs.length) :
    (List.replicate n xs).flatten[i]? = xs[i % xs.length]? := by
  induction n generalizing i with
  | zero => simp at h
  | succ n ih =>
      rw [List.replicate_succ, List.flatten_cons]
      by_cases hi : i < xs.length
      · rw [List.getElem?_append_left hi, Nat.mod_eq_of_lt hi]
      · rw [List.getElem?_append_right (Nat.le_of_not_lt hi), ih (by rw [Nat.succ_mul] at h; omega),
          ← Nat.mod_eq_sub_mod (Nat.le_of_not_lt hi)]

theorem flatMap_copies (f : α → List β) (n : Nat) :
    (List.replicate n (xs.flatMap f)).flatten = (List.replicate n xs).flatten.flatMap f := by
  induction n with
  | zero => rfl
  | succ n ih => simp only [List.replicate_succ, List.flatten_cons, List.flatMap_append, ih]

theorem repeated_eq_ok (h : repeated xs times = .ok copies) :
    copies = (List.replicate times.toInt.toNat xs).flatten := by
  simp only [repeated] at h
  split_ifs at h with hempty
  · cases h
    rw [List.isEmpty_iff.1 hempty, List.flatten_replicate_nil]
  · cases h
    rfl

theorem repeated_eq_error {e : EvalError} (h : repeated xs times = .error e) : e = .tooLarge := by
  simp only [repeated] at h
  split_ifs at h
  cases h
  rfl

end Copies

/-! ## Strings as bytes -/

theorem bytes_eq_flatMap (s : String) :
    s.toUTF8.data.toList = s.toList.flatMap String.utf8EncodeChar := by
  rw [String.toUTF8_eq_toByteArray, ← String.utf8Encode_toList, List.utf8Encode,
    List.toList_data_toByteArray]

theorem fromUTF8?_utf8Encode (cs : List Char) :
    String.fromUTF8? cs.utf8Encode = some (String.ofList cs) := by
  rw [String.fromUTF8?, dif_pos ByteArray.isValidUTF8_utf8Encode]
  rfl

/-- The copies of the bytes of a text are the bytes of a text. -/
theorem fromUTF8?_copies (s : String) (n : Nat) :
    String.fromUTF8? (List.replicate n s.toUTF8.data.toList).flatten.toByteArray =
      some (String.ofList (List.replicate n s.toList).flatten) := by
  rw [bytes_eq_flatMap, flatMap_copies]
  exact fromUTF8?_utf8Encode _

/-- Copies of a string that are not too large are never refused as text. -/
theorem repeatedText_eq (s : String) (times : Int64) :
    repeatedText s times =
      (fun _ => String.ofList (List.replicate times.toInt.toNat s.toList).flatten) <$>
        repeated s.toUTF8.data.toList times := by
  rw [repeatedText]
  cases hbytes : repeated s.toUTF8.data.toList times with
  | error e => rfl
  | ok bytes =>
      obtain rfl := repeated_eq_ok hbytes
      simp only [bind, Except.bind, fromUTF8?_copies]
      rfl

/-! ## The operators -/

section Operators

variable {s t v : Value} {i : Int64}

theorem Alike.left (h : Alike s t) : Alike s s := by
  cases h with
  | lists as bs => exact .lists as as
  | strings a b => exact .strings a a

theorem Alike.symm (h : Alike s t) : Alike t s := by
  cases h with
  | lists as bs => exact .lists bs as
  | strings a b => exact .strings b a

theorem len_eq (h : Alike s t) : Builtin.len.apply [s] = .ok (int (Int64.ofNat s.size)) := by
  cases h with
  | lists as bs => rfl
  | strings a b =>
      rw [size, elements, List.length_map]
      rfl

theorem place_eq_ok_iff {length n : Nat} :
    place i length = .ok n ↔
      (n : Int) = (if i.toInt < 0 then i.toInt + length else i.toInt) ∧ n < length := by
  simp only [place]
  generalize (if i.toInt < 0 then i.toInt + (length : Int) else i.toInt) = j
  split_ifs with h
  · rw [Except.ok.injEq]
    omega
  · exact iff_of_false nofun fun hn => h (by omega)

/-- The character at a place of a string, cut out as a string. -/
theorem take_drop_of_lt {cs : List Char} {n : Nat} (h : n < cs.length) :
    (cs.drop n).take 1 = [cs[n]] := by
  rw [List.drop_eq_getElem_cons h, List.take_succ_cons, List.take_zero]

theorem subscript_eq_ok_iff (h : Alike s t) :
    subscript s (int i) = .ok v ↔ ∃ n, place i s.size = .ok n ∧ s.elements[n]? = some v := by
  cases h with
  | lists as bs =>
      change (place i as.length >>= fun n => .ok (as.getD n nil)) = .ok v ↔
        ∃ n, place i as.length = .ok n ∧ as[n]? = some v
      cases hplace : place i as.length with
      | error e => exact iff_of_false nofun (by simp)
      | ok n =>
          have hn := (place_eq_ok_iff.1 hplace).2
          simp [bind, Except.bind, hn]
  | strings a b =>
      have hsize : (str a).size = a.toList.length := List.length_map _
      change (place i a.toList.length >>= fun n =>
        .ok (str (String.ofList ((a.toList.drop n).take 1)))) = .ok v ↔ _
      rw [hsize]
      cases hplace : place i a.toList.length with
      | error e => exact iff_of_false nofun (by simp)
      | ok n =>
          have hn := (place_eq_ok_iff.1 hplace).2
          simp [bind, Except.bind, elements, take_drop_of_lt hn, List.getElem?_eq_getElem hn]

theorem exists_subscript_iff (h : Alike s t) :
    (∃ v, subscript s (int i) = .ok v) ↔ -(s.size : Int) ≤ i.toInt ∧ i.toInt < s.size := by
  simp only [subscript_eq_ok_iff h, place_eq_ok_iff]
  constructor
  · rintro ⟨v, n, ⟨hn, hlt⟩, -⟩
    split at hn <;> omega
  · intro hrange
    let n := (if i.toInt < 0 then i.toInt + s.size else i.toInt).toNat
    have hn : (n : Int) = (if i.toInt < 0 then i.toInt + s.size else i.toInt) :=
      Int.toNat_of_nonneg (by split <;> omega)
    have hlt : n < s.size := by
      split at hn <;> omega
    exact ⟨s.elements[n], n, ⟨hn, hlt⟩, List.getElem?_eq_getElem hlt⟩

/-- An index that is not negative is the place itself. -/
theorem subscript_of_nonneg (h : Alike s t) (hi : 0 ≤ i.toInt) :
    subscript s (int i) = .ok v ↔ s.elements[i.toInt.toNat]? = some v := by
  simp only [subscript_eq_ok_iff h, place_eq_ok_iff, if_neg (Int.not_lt.2 hi)]
  constructor
  · rintro ⟨n, ⟨hn, -⟩, hv⟩
    rwa [← hn, Int.toNat_natCast]
  · intro hv
    have hlt := (List.getElem?_eq_some_iff.1 hv).1
    exact ⟨i.toInt.toNat, ⟨Int.toNat_of_nonneg hi, hlt⟩, hv⟩

/-- Two subscripts that find the same element. -/
theorem subscript_congr {r r' : Value} {j : Int64} (hr : Alike r r') (hs : Alike s t)
    (hi : 0 ≤ i.toInt) (hj : 0 ≤ j.toInt) (hlt : i.toInt < r.size)
    (h : r.elements[i.toInt.toNat]? = s.elements[j.toInt.toNat]?) :
    subscript r (int i) = subscript s (int j) := by
  obtain ⟨v, hv⟩ := (exists_subscript_iff hr).2 ⟨by omega, hlt⟩
  have hs := (subscript_of_nonneg hs hj).2 (h ▸ (subscript_of_nonneg hr hi).1 hv)
  rw [hv, hs]

theorem add_eq (h : Alike s t) :
    ∃ r, binary .add s t = .ok r ∧ Alike s r ∧ r.elements = s.elements ++ t.elements := by
  cases h with
  | lists as bs => exact ⟨_, rfl, .lists _ _, rfl⟩
  | strings a b =>
      refine ⟨_, rfl, .strings _ _, ?_⟩
      simp only [elements, String.toList_append, List.map_append]

theorem mul_swap (h : Alike s t) (n : Int64) : binary .mul (int n) s = binary .mul s (int n) := by
  cases h <;> rfl

theorem mul_eq_ok {r : Value} {n : Int64} (h : Alike s t) (hr : binary .mul s (int n) = .ok r) :
    Alike r s ∧ r.elements = (List.replicate n.toInt.toNat s.elements).flatten := by
  cases h with
  | lists as bs =>
      obtain ⟨copies, hcopies, rfl⟩ := map_eq_ok_iff.1 hr
      exact ⟨.lists _ _, repeated_eq_ok hcopies⟩
  | strings a b =>
      obtain ⟨copies, hcopies, rfl⟩ := map_eq_ok_iff.1 hr
      rw [repeatedText_eq] at hcopies
      obtain ⟨-, -, rfl⟩ := map_eq_ok_iff.1 hcopies
      refine ⟨.strings _ _, ?_⟩
      rw [elements, elements, String.toList_ofList, List.map_flatten, List.map_replicate]

theorem mul_eq_error {n : Int64} {e : EvalError} (h : Alike s t)
    (he : binary .mul s (int n) = .error e) : e = .tooLarge := by
  cases h with
  | lists as bs => exact repeated_eq_error (map_eq_error_iff.1 he)
  | strings a b =>
      have hcopies := map_eq_error_iff.1 he
      rw [repeatedText_eq] at hcopies
      exact repeated_eq_error (map_eq_error_iff.1 hcopies)

theorem len_add {r : Value} (hr : Alike r r) (hsize : r.size = s.size + t.size)
    (hfits : Fits (s.size + t.size)) :
    binary .add (int (Int64.ofNat s.size)) (int (Int64.ofNat t.size)) = Builtin.len.apply [r] := by
  have hlt := hfits.2
  have htoInt : ∀ n < 2 ^ 63, (Int64.ofNat n).toInt = n := fun n => Int64.toInt_ofNat_of_lt
  have hsum : (Int64.ofNat r.size).toInt = s.size + t.size := by
    rw [htoInt r.size (by omega), hsize, Int.natCast_add]
  rw [add_of_ints rfl rfl, htoInt s.size (by omega), htoInt t.size (by omega),
    exactly_of_toInt hsum, len_eq hr]
  rfl

theorem subscript_add_left {r : Value} (hr : Alike s r) (h : r.elements = s.elements ++ t.elements)
    (hi : 0 ≤ i.toInt) (hlt : i.toInt < s.size) : subscript r (int i) = subscript s (int i) := by
  refine subscript_congr hr.symm hr hi hi ?_ ?_
  · simp only [size, h, List.length_append] at hlt ⊢
    omega
  · rw [h, List.getElem?_append_left (show i.toInt.toNat < s.size by omega)]

theorem subscript_add_right {r : Value} (hr : Alike r r) (ht : Alike t t)
    (h : r.elements = s.elements ++ t.elements) (hi : (s.size : Int) ≤ i.toInt) :
    subscript r (int i) = .ok v ↔ subscript t (int (i - Int64.ofNat s.size)) = .ok v := by
  have hlt := i.toInt_lt
  have hsize : (Int64.ofNat s.size).toInt = s.size := Int64.toInt_ofNat_of_lt (by omega)
  -- The index is not below the length, so the difference does not wrap round.
  have hsub : (i - Int64.ofNat s.size).toInt = i.toInt - s.size := by
    rw [← hsize]
    exact toInt_sub_of_fits ⟨by omega, by omega⟩
  have hplace : s.size ≤ i.toInt.toNat := by omega
  rw [subscript_of_nonneg hr (by omega), subscript_of_nonneg ht (by omega), hsub, h,
    List.getElem?_append_right hplace, Int.toNat_sub']

theorem subscript_mul {r : Value} {n : Nat} (hr : Alike s r)
    (h : r.elements = (List.replicate n s.elements).flatten) (hi : 0 ≤ i.toInt)
    (hlt : i.toInt < r.size) :
    subscript r (int i) = subscript s (int (Int64.ofInt (i.toInt % s.size))) := by
  obtain ⟨k, hk⟩ := Int.eq_ofNat_of_zero_le hi
  have hmod : (Int64.ofInt (i.toInt % s.size)).toInt = (k % s.size : Nat) := by
    have hbound := i.toInt_lt
    have hle := Nat.mod_le k s.size
    rw [hk, ← Int.natCast_mod]
    exact Int64.toInt_ofInt_of_le (by omega) (by omega)
  have hplace : k < n * s.size := by
    have hsize : r.size = n * s.size := by simp [size, h]
    omega
  refine subscript_congr hr.symm hr hi (by omega) hlt ?_
  rw [hmod, hk, Int.toNat_natCast, Int.toNat_natCast, h]
  exact getElem?_copies n hplace

/-- **Sequences.** The length of a list or string is the count of its elements, and an index finds
an element just where it is one of these places, counted from the front or, if negative, from the
end. A sum has the elements of the one and then of the other. A repetition, from either side, has
the elements of the sequence over and over, or fails because it is too large; it never fails because
its bytes were not a text. -/
theorem sequences_agree (h : Alike s t) :
    Builtin.len.apply [s] = .ok (int (Int64.ofNat s.size)) ∧
    (∀ i : Int64,
      ((∃ v, subscript s (int i) = .ok v) ↔ -(s.size : Int) ≤ i.toInt ∧ i.toInt < s.size) ∧
      ∀ v, subscript s (int i) = .ok v →
        s.elements[(if i.toInt < 0 then i.toInt + s.size else i.toInt).toNat]? = some v) ∧
    (∃ r, binary .add s t = .ok r ∧ Alike s r ∧ r.size = s.size + t.size ∧
      (Fits (s.size + t.size) →
        binary .add (int (Int64.ofNat s.size)) (int (Int64.ofNat t.size)) = Builtin.len.apply [r]) ∧
      ∀ i : Int64, 0 ≤ i.toInt →
        (i.toInt < s.size → subscript r (int i) = subscript s (int i)) ∧
        (s.size ≤ i.toInt → ∀ v, subscript r (int i) = .ok v ↔
          subscript t (int (i - Int64.ofNat s.size)) = .ok v)) ∧
    (∀ n : Int64, binary .mul (int n) s = binary .mul s (int n) ∧
      (∀ e, binary .mul s (int n) = .error e → e = .tooLarge) ∧
      ∀ r, binary .mul s (int n) = .ok r → Alike s r ∧
        (r.size : Int) = s.size * max n.toInt 0 ∧
        ∀ i : Int64, 0 ≤ i.toInt → i.toInt < r.size →
          subscript r (int i) = subscript s (int (Int64.ofInt (i.toInt % s.size)))) ∧
    ∀ (text : String) (n : Int64) (bytes : List UInt8),
      repeated text.toUTF8.data.toList n = .ok bytes →
        ∃ copies, String.fromUTF8? bytes.toByteArray = some copies := by
  refine ⟨len_eq h, fun i => ⟨exists_subscript_iff h, fun v hv => ?_⟩, ?_, fun n => ⟨mul_swap h n,
    fun e => mul_eq_error h, fun r hr => ?_⟩, fun text n bytes hbytes => ?_⟩
  · obtain ⟨p, hplace, hp⟩ := (subscript_eq_ok_iff h).1 hv
    rwa [← (place_eq_ok_iff.1 hplace).1, Int.toNat_natCast]
  · obtain ⟨r, hadd, hr, helements⟩ := add_eq h
    have hsize : r.size = s.size + t.size := by rw [size, helements, List.length_append]
    exact ⟨r, hadd, hr, hsize, len_add hr.symm.left hsize, fun i hi =>
      ⟨subscript_add_left hr helements hi, fun hle v =>
        subscript_add_right hr.symm.left h.symm.left helements hle⟩⟩
  · obtain ⟨hr, helements⟩ := mul_eq_ok h hr
    refine ⟨hr.symm, ?_, fun i hi hlt => subscript_mul hr.symm helements hi hlt⟩
    have hsize : r.size = n.toInt.toNat * s.size := by simp [size, helements]
    rw [hsize, Int.natCast_mul, Int.toNat_eq_max, mul_comm]
  · exact ⟨_, by rw [repeated_eq_ok hbytes]; exact fromUTF8?_copies text _⟩

theorem sequences_agree_accent :
    (∃ v, subscript (str "né") (int (-1)) = .ok v) ∧
      binary .mul (str "né") (int 2) = .ok (str "néné") ∧
      subscript (str "néné") (int 3) = subscript (str "né") (int (Int64.ofInt (3 % (str "né").size))) := by
  obtain ⟨-, hplaces, -, hmul, -⟩ := sequences_agree (.strings "né" "a")
  have hcopies : binary .mul (str "né") (int 2) = .ok (str "néné") := rfl
  exact ⟨(hplaces (-1)).1.2 (by decide), hcopies,
    ((hmul 2).2.2 _ hcopies).2.2 3 (by decide) (by decide)⟩

end Operators

end LiveUI.Value
