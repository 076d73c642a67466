import LiveUI.Proofs.Markup.Targets

/-! # The pattern of a left-hand side

The left-hand sides are the texts that one pattern matches as a whole, and a group of the pattern
holds each piece. The pattern matches a text in one way at most. So every search for its groups
finds the same ones, and a target is read back from its text whichever search is taken. -/

namespace LiveUI

/-- Patterns of texts, with named groups. -/
inductive Pattern where
  /-- A character of a class. -/
  | one (p : Char → Bool)
  /-- Any number of characters of a class. -/
  | many (p : Char → Bool)
  | both (p q : Pattern)
  | either (p q : Pattern)
  | optional (p : Pattern)
  | group (name : String) (p : Pattern)

namespace Pattern

/-- A match of a whole text, with the contents of the groups that took part in it. -/
inductive Matches : Pattern → List Char → List (String × List Char) → Prop
  | one {p c} (h : p c = true) : Matches (.one p) [c] []
  | many {p cs} (h : ∀ c ∈ cs, p c = true) : Matches (.many p) cs []
  | both {p q cs ds gs hs} (hp : Matches p cs gs) (hq : Matches q ds hs) :
      Matches (.both p q) (cs ++ ds) (gs ++ hs)
  | left {p q cs gs} (hp : Matches p cs gs) : Matches (.either p q) cs gs
  | right {p q cs gs} (hq : Matches q cs gs) : Matches (.either p q) cs gs
  | absent {p} : Matches (.optional p) [] []
  | present {p cs gs} (hp : Matches p cs gs) : Matches (.optional p) cs gs
  | group {name p cs gs} (hp : Matches p cs gs) : Matches (.group name p) cs ((name, cs) :: gs)

variable {p q : Pattern} {cs : List Char} {gs : List (String × List Char)}

theorem matches_one {p : Char → Bool} :
    (Pattern.one p).Matches cs gs ↔ ∃ c, p c = true ∧ cs = [c] ∧ gs = [] := by
  constructor
  · intro h
    cases h with
    | one hc => exact ⟨_, hc, rfl, rfl⟩
  · rintro ⟨c, h, rfl, rfl⟩
    exact .one h

theorem matches_many {p : Char → Bool} :
    (Pattern.many p).Matches cs gs ↔ (∀ c ∈ cs, p c = true) ∧ gs = [] := by
  constructor
  · intro h
    cases h with
    | many hcs => exact ⟨hcs, rfl⟩
  · rintro ⟨h, rfl⟩
    exact .many h

theorem matches_both :
    (Pattern.both p q).Matches cs gs ↔ ∃ cs₁ gs₁ cs₂ gs₂, p.Matches cs₁ gs₁ ∧ q.Matches cs₂ gs₂ ∧
      cs = cs₁ ++ cs₂ ∧ gs = gs₁ ++ gs₂ := by
  constructor
  · intro h
    cases h with
    | both hp hq => exact ⟨_, _, _, _, hp, hq, rfl, rfl⟩
  · rintro ⟨_, _, _, _, hp, hq, rfl, rfl⟩
    exact .both hp hq

theorem matches_either :
    (Pattern.either p q).Matches cs gs ↔ p.Matches cs gs ∨ q.Matches cs gs := by
  constructor
  · intro h
    cases h with
    | left hp => exact .inl hp
    | right hq => exact .inr hq
  · rintro (hp | hq)
    exacts [.left hp, .right hq]

theorem matches_optional :
    (Pattern.optional p).Matches cs gs ↔ (cs = [] ∧ gs = []) ∨ p.Matches cs gs := by
  constructor
  · intro h
    cases h with
    | absent => exact .inl ⟨rfl, rfl⟩
    | present hp => exact .inr hp
  · rintro (⟨rfl, rfl⟩ | hp)
    exacts [.absent, .present hp]

theorem matches_group {name : String} :
    (Pattern.group name p).Matches cs gs ↔ ∃ hs, p.Matches cs hs ∧ gs = (name, cs) :: hs := by
  constructor
  · intro h
    cases h with
    | group hp => exact ⟨_, hp, rfl⟩
  · rintro ⟨hs, hp, rfl⟩
    exact .group hp

end Pattern

namespace Markup.Target

open Source Pattern

/-! ## The pattern -/

/-- The pattern `[_A-Za-z][_A-Za-z0-9]*`. -/
def identifier : Pattern :=
  .both (.one isWordStart) (.many isWordPart)

/-- The pattern `-?(?:0|[1-9][0-9]*)`. -/
def signedIndex : Pattern :=
  .both (.optional (.one (· == '-')))
    (.either (.one (· == '0')) (.both (.one fun c => c != '0' && c.isDigit) (.many Char.isDigit)))

/-- The pattern `\[(?P<index>…)\]` around a signed index. -/
def bracketed : Pattern :=
  .both (.one (· == '[')) (.both (.group "index" signedIndex) (.one (· == ']')))

/-- The pattern `\.(?P<name2>…)` around an identifier. -/
def dotted : Pattern :=
  .both (.one (· == '.')) (.group "name2" identifier)

/-- The pattern `(?P<name1>…)(?:(?:…)?…)?` of the three forms: a name, and behind it nothing or an
attribute, which an index may precede. -/
def leftHandSide : Pattern :=
  .both (.group "name1" identifier) (.optional (.both (.optional bracketed) dotted))

/-- The groups that pieces are taken from. -/
def Pieces.groups (p : Pieces) : List (String × List Char) :=
  ("name1", p.name.toList) ::
    (p.index.toList.map (("index", ·.toList)) ++ p.attr.toList.map (("name2", ·.toList)))

/-- A search for the groups of a match. It fails only where the pattern does not match. -/
structure Finds (find : String → Option Pieces) : Prop where
  sound {lhs : String} {p : Pieces} (h : find lhs = some p) :
    leftHandSide.Matches lhs.toList p.groups
  complete {lhs : String} {gs : List (String × List Char)}
    (h : leftHandSide.Matches lhs.toList gs) : (find lhs).isSome = true

theorem identifier_matches {cs : List Char} {gs : List (String × List Char)} :
    identifier.Matches cs gs ↔ isWord cs = true ∧ gs = [] := by
  simp only [identifier, matches_both, matches_one, matches_many]
  constructor
  · rintro ⟨_, _, cs, _, ⟨c, hc, rfl, rfl⟩, ⟨hcs, rfl⟩, rfl, rfl⟩
    exact ⟨by simpa [isWord, hc] using hcs, rfl⟩
  · rintro ⟨h, rfl⟩
    cases cs with
    | nil => cases h
    | cons c cs =>
        rw [isWord, Bool.and_eq_true, List.all_eq_true] at h
        exact ⟨[c], [], cs, [], ⟨c, h.1, rfl, rfl⟩, ⟨h.2, rfl⟩, rfl, rfl⟩

/-- The pattern of an unsigned index. -/
theorem canonical_matches {cs : List Char} {gs : List (String × List Char)} :
    (Pattern.either (.one (· == '0'))
      (.both (.one fun c => c != '0' && c.isDigit) (.many Char.isDigit))).Matches cs gs ↔
      isCanonical cs = true ∧ gs = [] := by
  simp only [matches_either, matches_both, matches_one, matches_many]
  constructor
  · rintro (⟨c, hc, rfl, rfl⟩ | ⟨_, _, cs, _, ⟨c, hc, rfl, rfl⟩, ⟨hcs, rfl⟩, rfl, rfl⟩)
    · obtain rfl := eq_of_beq hc
      exact ⟨rfl, rfl⟩
    · rw [Bool.and_eq_true] at hc
      refine ⟨?_, rfl⟩
      rw [List.singleton_append, isCanonical.eq_def]
      split
      next heq => cases heq
      next => rfl
      next heq =>
        cases heq
        rw [Bool.and_eq_true, List.all_eq_true]
        exact ⟨hc.1, List.forall_mem_cons.2 ⟨hc.2, hcs⟩⟩
  · rintro ⟨h, rfl⟩
    rw [isCanonical.eq_def] at h
    split at h
    next => cases h
    next => exact .inl ⟨'0', rfl, rfl, rfl⟩
    next c cs _ =>
      rw [Bool.and_eq_true, List.all_eq_true, List.forall_mem_cons] at h
      exact .inr ⟨[c], [], cs, [], ⟨c, by simp [h.1, h.2.1], rfl, rfl⟩, ⟨h.2.2, rfl⟩, rfl, rfl⟩

theorem signedIndex_matches {cs : List Char} {gs : List (String × List Char)} :
    signedIndex.Matches cs gs ↔ isIndex cs = true ∧ gs = [] := by
  simp only [signedIndex, matches_both, matches_optional, matches_one, canonical_matches,
    isIndex_iff]
  constructor
  · rintro ⟨_, _, ds, _, ⟨rfl, rfl⟩ | ⟨c, hc, rfl, rfl⟩, ⟨hds, rfl⟩, rfl, rfl⟩
    · exact ⟨⟨false, _, rfl, hds⟩, rfl⟩
    · obtain rfl := eq_of_beq hc
      exact ⟨⟨true, _, rfl, hds⟩, rfl⟩
  · rintro ⟨⟨negative, ds, rfl, hds⟩, rfl⟩
    cases negative with
    | false => exact ⟨[], [], ds, [], .inl ⟨rfl, rfl⟩, ⟨hds, rfl⟩, rfl, rfl⟩
    | true => exact ⟨['-'], [], ds, [], .inr ⟨'-', rfl, rfl, rfl⟩, ⟨hds, rfl⟩, rfl, rfl⟩

theorem bracketed_matches {cs : List Char} {gs : List (String × List Char)} :
    bracketed.Matches cs gs ↔
      ∃ index, isIndex index = true ∧ cs = '[' :: (index ++ [']']) ∧ gs = [("index", index)] := by
  simp only [bracketed, matches_both, matches_one, matches_group, signedIndex_matches, beq_iff_eq]
  constructor
  · rintro ⟨_, _, _, _, ⟨_, rfl, rfl, rfl⟩,
      ⟨index, _, _, _, ⟨_, ⟨hindex, rfl⟩, rfl⟩, ⟨_, rfl, rfl, rfl⟩, rfl, rfl⟩, rfl, rfl⟩
    exact ⟨index, hindex, rfl, rfl⟩
  · rintro ⟨index, hindex, rfl, rfl⟩
    exact ⟨['['], [], _, _, ⟨_, rfl, rfl, rfl⟩,
      ⟨index, _, [']'], [], ⟨_, ⟨hindex, rfl⟩, rfl⟩, ⟨_, rfl, rfl, rfl⟩, rfl, rfl⟩, rfl, rfl⟩

theorem dotted_matches {cs : List Char} {gs : List (String × List Char)} :
    dotted.Matches cs gs ↔
      ∃ attr, isWord attr = true ∧ cs = '.' :: attr ∧ gs = [("name2", attr)] := by
  simp only [dotted, matches_both, matches_one, matches_group, identifier_matches, beq_iff_eq]
  constructor
  · rintro ⟨_, _, attr, _, ⟨_, rfl, rfl, rfl⟩, ⟨_, ⟨hattr, rfl⟩, rfl⟩, rfl, rfl⟩
    exact ⟨attr, hattr, rfl, rfl⟩
  · rintro ⟨attr, hattr, rfl, rfl⟩
    exact ⟨['.'], [], attr, _, ⟨_, rfl, rfl, rfl⟩, ⟨_, ⟨hattr, rfl⟩, rfl⟩, rfl, rfl⟩

/-- The matches of the pattern are those of the three forms. -/
theorem leftHandSide_matches {cs : List Char} {gs : List (String × List Char)} :
    leftHandSide.Matches cs gs ↔ ∃ p : Pieces, p.Fits ∧ cs = p.text.toList ∧ gs = p.groups := by
  simp only [leftHandSide, matches_both, matches_optional, matches_group, identifier_matches,
    bracketed_matches, dotted_matches]
  constructor
  -- Nothing stands behind the name, or an attribute without an index, or one with an index.
  · rintro ⟨name, _, _, _, ⟨_, ⟨hname, rfl⟩, rfl⟩, ⟨rfl, rfl⟩ |
      ⟨_, _, _, _, ⟨rfl, rfl⟩ | ⟨index, hindex, rfl, rfl⟩, ⟨attr, hattr, rfl, rfl⟩, rfl, rfl⟩,
      rfl, rfl⟩
    · exact ⟨{ name := .ofList name }, .own (by simpa using hname), by simp [Pieces.text],
        by simp [Pieces.groups]⟩
    · exact ⟨{ name := .ofList name, attr := some (.ofList attr) },
        .member (by simpa using hname) (by simpa using hattr), by simp [Pieces.text],
        by simp [Pieces.groups]⟩
    · exact ⟨⟨.ofList name, some (.ofList index), some (.ofList attr)⟩,
        .element (by simpa using hname) (by simpa using hindex) (by simpa using hattr),
        by simp [Pieces.text], by simp [Pieces.groups]⟩
  · rintro ⟨p, hfits, rfl, rfl⟩
    cases hfits with
    | @own name hname =>
        exact ⟨name.toList, _, [], [], ⟨_, ⟨hname, rfl⟩, rfl⟩, .inl ⟨rfl, rfl⟩,
          by simp [Pieces.text], by simp [Pieces.groups]⟩
    | @member name attr hname hattr =>
        exact ⟨name.toList, _, _, _, ⟨_, ⟨hname, rfl⟩, rfl⟩,
          .inr ⟨[], [], _, _, .inl ⟨rfl, rfl⟩, ⟨_, hattr, rfl, rfl⟩, rfl, rfl⟩,
          by simp [Pieces.text], by simp [Pieces.groups]⟩
    | @element name index attr hname hindex hattr =>
        exact ⟨name.toList, _, _, _, ⟨_, ⟨hname, rfl⟩, rfl⟩,
          .inr ⟨_, _, _, _, .inr ⟨_, hindex, rfl, rfl⟩, ⟨_, hattr, rfl, rfl⟩, rfl, rfl⟩,
          by simp [Pieces.text], by simp [Pieces.groups]⟩

/-! ## Searches -/

theorem Pieces.groups_inj {p q : Pieces} (h : p.groups = q.groups) : p = q := by
  rcases p with ⟨name, _ | index, _ | attr⟩ <;> rcases q with ⟨name', _ | index', _ | attr'⟩ <;>
    simp_all [Pieces.groups, String.toList_inj]

theorem finds_pieces? : Finds pieces? where
  sound h :=
    have ⟨hfits, htext⟩ := pieces?_eq_some_iff.1 h
    leftHandSide_matches.2 ⟨_, hfits, congrArg String.toList htext, rfl⟩
  complete h := by
    obtain ⟨p, hfits, htext, -⟩ := leftHandSide_matches.1 h
    rw [pieces?_eq_some_iff.2 ⟨hfits, String.toList_inj.1 htext⟩]
    rfl

/-- There is one search: the pattern matches a text in one way at most. -/
theorem Finds.eq_pieces? {find : String → Option Pieces} (h : Finds find) : find = pieces? := by
  funext lhs
  cases hfind : find lhs with
  | some p =>
      obtain ⟨q, hfits, htext, hgroups⟩ := leftHandSide_matches.1 (h.sound hfind)
      obtain rfl := Pieces.groups_inj hgroups
      exact (pieces?_eq_some_iff.2 ⟨hfits, String.toList_inj.1 htext⟩).symm
  | none =>
      cases hpieces : pieces? lhs with
      | none => rfl
      | some p =>
          have hsome := h.complete (finds_pieces?.sound hpieces)
          rw [hfind] at hsome
          cases hsome

/-! ## Reading back -/

/-- The pieces of the text of a target that was read. -/
theorem pieces_of_ofPieces {lhs : String} {p : Pieces} {t : Target} (hfits : p.Fits)
    (h : ofPieces lhs p = .ok t) :
    t.pieces = p ∨
      ∃ name attr, p = ⟨name, some "-0", some attr⟩ ∧ t = element name 0 attr := by
  cases hfits with
  | own _ =>
      cases h
      exact .inl rfl
  | member _ _ =>
      cases h
      exact .inl rfl
  | @element name index attr _ hindex _ =>
      obtain ⟨i, hi, rfl⟩ := ofPieces_element.1 h
      rcases toString_of_readInt? hindex hi with rfl | ⟨rfl, rfl⟩
      · exact .inl rfl
      · exact .inr ⟨name, attr, rfl, rfl⟩

theorem Pieces.Fits.names_ofPieces {lhs : String} {p : Pieces} {t : Target} (hfits : p.Fits)
    (h : ofPieces lhs p = .ok t) : ∀ s ∈ t.names, isWord s.toList = true := by
  cases hfits with
  | own hname =>
      cases h
      exact List.forall_mem_singleton.2 hname
  | member hname hattr =>
      cases h
      exact List.forall_mem_cons.2 ⟨hname, List.forall_mem_singleton.2 hattr⟩
  | element hname _ hattr =>
      obtain ⟨i, -, rfl⟩ := ofPieces_element.1 h
      exact List.forall_mem_cons.2 ⟨hname, List.forall_mem_singleton.2 hattr⟩

/-- **Targets read back.** The text of a target is read as the target, and the text of a target
that was read is the text it was read from, save that the index of minus zero loses its sign. -/
theorem texts_read_back {find : String → Option Pieces} (hfind : Finds find) :
    (∀ t : Target, (∀ s ∈ t.names, identifier.Matches s.toList []) →
      parseBy find t.text = .ok t) ∧
    ∀ (lhs : String) (t : Target), parseBy find lhs = .ok t →
      (∀ s ∈ t.names, identifier.Matches s.toList []) ∧
      (t.text = lhs ∨ ∃ name attr, lhs = name ++ "[-0]." ++ attr ∧ t = element name 0 attr ∧
        t.text = name ++ "[0]." ++ attr) := by
  obtain rfl := hfind.eq_pieces?
  constructor
  · intro t hnames
    exact parse_text_of_names fun s hs => (identifier_matches.1 (hnames s hs)).1
  · intro lhs t h
    obtain ⟨p, hfits, rfl, hp⟩ := parse_eq_ok_iff.1 h
    refine ⟨fun s hs => identifier_matches.2 ⟨hfits.names_ofPieces hp s hs, rfl⟩, ?_⟩
    rcases pieces_of_ofPieces hfits hp with rfl | ⟨name, attr, rfl, rfl⟩
    · exact .inl (text_pieces t).symm
    · exact .inr ⟨name, attr, by simp [Pieces.text, String.append_assoc], rfl,
        String.toList_inj.1 (by simp [text_element, indexText])⟩

/-- The least index, and the index of minus zero. -/
theorem texts_read_back_minValue :
    Finds pieces? ∧
    (∀ s ∈ (element "xs" Int64.minValue "y").names, identifier.Matches s.toList []) ∧
    parseBy pieces? "xs[-9223372036854775808].y" = .ok (element "xs" Int64.minValue "y") ∧
    parseBy pieces? "a[-0].b" = .ok (element "a" 0 "b") ∧
    (element "a" 0 "b").text ≠ "a[-0].b" ∧
    ((element "a" 0 "b").text = "a[-0].b" ∨
      ∃ name attr, "a[-0].b" = name ++ "[-0]." ++ attr ∧ element "a" 0 "b" = element name 0 attr ∧
        (element "a" 0 "b").text = name ++ "[0]." ++ attr) := by
  have hnames : ∀ s ∈ (element "xs" Int64.minValue "y").names, identifier.Matches s.toList [] :=
    List.forall_mem_cons.2 ⟨identifier_matches.2 ⟨by decide, rfl⟩,
      List.forall_mem_singleton.2 (identifier_matches.2 ⟨by decide, rfl⟩)⟩
  have hread : parseBy pieces? "a[-0].b" = .ok (element "a" 0 "b") := by cbv
  obtain ⟨hprinted, hparsed⟩ := texts_read_back finds_pieces?
  exact ⟨finds_pieces?, hnames, hprinted _ hnames, hread, by decide, (hparsed _ _ hread).2⟩

end Markup.Target

end LiveUI
