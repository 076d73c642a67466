import LiveUI.Proofs.Markup.Giving
import LiveUI.Proofs.Markup.Printing

/-! # Templates are read back

From its pieces a template that can be written is read again, up to its places: its parameters, its
blocks by induction on their nesting, and so the whole of its text. -/

namespace LiveUI.Markup

open LiveUI.Source LiveUI.Source.Reader

variable {k : Token} {ps : List Piece}

/-! ## Parameters -/

/-- A parameter without a default comes before all those with one. -/
def Ordered (entries : List (String × Option Expression)) : Prop :=
  entries.Pairwise fun a b => a.2.isSome = true → b.2.isSome = true

theorem gives_default {entry : String × Option Expression} {p : Parameters}
    (hk : k = .comma ∨ k = .rightParen) (h : p.defaults ≠ [] → entry.2.isSome = true) :
    Gives (readDefault p entry.1) ((entryPieces entry).tail ++ .token k :: ps)
      (·.map (·.unplaced) = entry.2.toList.map (·.unplaced)) (.token k :: ps) := by
  obtain ⟨name, default?⟩ := entry
  cases default? with
  | none =>
      have hempty : p.defaults = [] := by simpa using h
      refine Gives.peek ?_
      rw [hempty]
      rcases hk with rfl | rfl <;> exact .pure rfl
  | some value =>
      have hclosing : k.isClosing = true := by rcases hk with rfl | rfl <;> rfl
      refine Gives.peek (Gives.next ((gives_read hclosing).bind fun e he => .pure ?_))
      simp [he]

theorem filterMap_default (entry : String × Option Expression)
    (entries : List (String × Option Expression)) :
    (entry :: entries).filterMap (·.2) = entry.2.toList ++ entries.filterMap (·.2) := by
  obtain ⟨name, _ | value⟩ := entry <;> rfl

theorem gives_parameters {entries : List (String × Option Expression)} {p : Parameters} {n : Nat}
    (hnodup : (p.names ++ entries.map (·.1)).Nodup)
    (hdefaults : p.defaults ≠ [] → ∀ entry ∈ entries, entry.2.isSome = true)
    (hordered : Ordered entries) (hn : entries.length < n) :
    Gives (readParameters n p)
      (commas (entries.map entryPieces) ++ .token .rightParen :: ps)
      (fun q => q.names = p.names ++ entries.map (·.1) ∧
        q.defaults.map (·.unplaced) =
          (p.defaults ++ entries.filterMap (·.2)).map (·.unplaced)) ps := by
  induction entries generalizing p n with
  | nil =>
      obtain ⟨n, rfl⟩ : ∃ m, n = m + 1 := ⟨n - 1, by simp at hn; omega⟩
      exact Gives.peek (Gives.next (.pure (by simp)))
  | cons entry entries ih =>
      obtain ⟨n, rfl⟩ : ∃ m, n = m + 1 := ⟨n - 1, by simp at hn; omega⟩
      obtain ⟨hfirst, hordered⟩ := List.pairwise_cons.1 hordered
      have hnew : p.names.contains entry.1 = false := by
        have hdisjoint := (List.nodup_append.1 hnodup).2.2
        rw [List.contains_eq_mem, decide_eq_false_iff_not]
        exact fun hmem => hdisjoint _ hmem _ List.mem_cons_self rfl
      have hentry : entryPieces entry = .token (.ident entry.1) :: (entryPieces entry).tail := by
        obtain ⟨name, _ | value⟩ := entry <;> rfl
      rw [List.map_cons, commas_cons, List.append_assoc, hentry]
      refine Gives.peek (gives_identifier.bind_eq ?_)
      rw [hnew, if_neg Bool.false_ne_true]
      have hdefault := fun h => hdefaults h entry List.mem_cons_self
      cases entries with
      | nil =>
          refine (gives_default (.inr rfl) hdefault).bind fun value? hvalue => ?_
          refine (gives_close (.inl rfl)).bind_eq (.pure ⟨rfl, ?_⟩)
          rw [List.map_append, hvalue, List.map_append, filterMap_default]
          simp
      | cons entry' entries =>
          refine (gives_default (.inl rfl) hdefault).bind fun value? hvalue =>
            gives_comma.bind_eq ?_
          -- All that follow a parameter with a default have one as well.
          have hlater : p.defaults ++ value? ≠ [] →
              ∀ later ∈ entry' :: entries, later.2.isSome = true := by
            intro hne later hmem
            by_cases hp : p.defaults = []
            · refine hfirst later hmem ?_
              cases hdefault : entry.2 with
              | none => rw [hdefault] at hvalue; simp_all
              | some value => rfl
            · exact hdefaults hp later (List.mem_cons_of_mem _ hmem)
          have hrest := ih (p := ⟨p.names ++ [entry.1], p.defaults ++ value?⟩) (n := n)
            (by simpa using hnodup) hlater hordered (by simpa using hn)
          refine hrest.imp fun q hq => ⟨by simpa using hq.1, ?_⟩
          rw [hq.2, filterMap_default entry]
          simp only [List.map_append, hvalue, List.append_assoc]

namespace Parameters

variable {p : Parameters}

theorem map_fst_entries (p : Parameters) : p.entries.map (·.1) = p.names :=
  List.ext_getElem (by simp [entries]) fun i hi hi' => by simp [entries]

/-- The defaults belong to the last parameters. -/
theorem map_snd_entries (h : p.defaults.length ≤ p.names.length) :
    p.entries.map (·.2) =
      List.replicate (p.names.length - p.defaults.length) none ++ p.defaults.map some := by
  refine List.ext_getElem (by simp [entries]; omega) fun i hi hi' => ?_
  simp only [entries, List.getElem_map, List.getElem_mapIdx, default?]
  by_cases hfirst : i < p.names.length - p.defaults.length
  · rw [List.getElem_append_left (by simpa using hfirst), if_neg (by omega)]
    simp
  · rw [List.getElem_append_right (by simpa using hfirst), if_pos ⟨h, by omega⟩]
    have hindex : i - (p.names.length - p.defaults.length) < p.defaults.length := by
      simp [entries] at hi
      omega
    simp [List.getElem?_eq_getElem hindex]

theorem filterMap_entries (h : p.defaults.length ≤ p.names.length) :
    p.entries.filterMap (·.2) = p.defaults := by
  have hmap : p.entries.filterMap (·.2) = (p.entries.map (·.2)).filterMap id := by
    rw [List.filterMap_map]
    rfl
  rw [hmap, map_snd_entries h, List.filterMap_append, List.filterMap_map,
    List.filterMap_replicate_of_none rfl]
  exact List.filterMap_some

theorem isSome_default? (i : Nat) (hi : i < p.names.length) :
    (p.default? i).isSome = true ↔
      p.defaults.length ≤ p.names.length ∧ p.names.length - p.defaults.length ≤ i := by
  simp only [default?]
  split
  next h => exact iff_of_true (by simp; omega) h
  next h => exact iff_of_false Bool.false_ne_true h

theorem ordered_entries (p : Parameters) : Ordered p.entries := by
  refine List.pairwise_iff_getElem.2 fun i j hi hj hij => ?_
  have hlength : p.entries.length = p.names.length := by simp [entries]
  simp only [entries, List.getElem_mapIdx]
  rw [isSome_default? i (by omega), isSome_default? j (by omega)]
  omega

end Parameters

/-! ## How many pieces there are -/

theorem commas_eq_flatMap (p : List Piece) (pss : List (List Piece)) :
    commas (p :: pss) = p ++ pss.flatMap (.token .comma :: ·) := by
  induction pss generalizing p with
  | nil => rw [commas_cons]; rfl
  | cons q pss ih =>
      rw [commas_cons, ih, List.flatMap_cons]
      rfl

theorem length_le_commas {pss : List (List Piece)} (h : ∀ ps ∈ pss, ps ≠ []) :
    pss.length ≤ (commas pss).length := by
  induction pss with
  | nil => exact Nat.zero_le _
  | cons p pss ih =>
      obtain ⟨hp, hpss⟩ := List.forall_mem_cons.1 h
      have hlength := List.length_pos_iff.2 hp
      have := ih hpss
      rw [commas_cons]
      cases pss with
      | nil => simpa using Nat.succ_le_of_lt hlength
      | cons q pss =>
          simp only [List.isEmpty_cons, Bool.false_eq_true, if_false, List.length_append,
            List.length_cons] at this ⊢
          omega

namespace Construct

theorem length_le_bodyPieces (items : List (BodyItem Construct)) :
    items.length ≤ (bodyPieces items).length := by
  induction items with
  | nil => exact Nat.zero_le _
  | cons item items ih =>
      have hitem : 0 < (itemPieces item).length := by
        cases item with
        | assignment a => exact Nat.succ_pos _
        | child c => rw [itemPieces, pieces_eq, headerPieces]; exact Nat.succ_pos _
      rw [bodyPieces, List.length_append, List.length_cons]
      omega

theorem length_child {c child : Construct} (h : .child child ∈ c.body) :
    child.pieces.length < c.pieces.length := by
  have hbody : ∀ items : List (BodyItem Construct), .child child ∈ items →
      child.pieces.length ≤ (bodyPieces items).length := by
    intro items hmem
    induction items with
    | nil => cases hmem
    | cons item items ih =>
        rw [bodyPieces, List.length_append]
        rcases List.mem_cons.1 hmem with rfl | hmem
        · exact Nat.le_add_right _ _
        · exact Nat.le_trans (ih hmem) (Nat.le_add_left _ _)
  have hne : c.body.isEmpty = false := by
    cases hc : c.body with
    | nil => rw [hc] at h; cases h
    | cons => rfl
  have := hbody _ h
  rw [pieces_eq c, blockPieces, hne]
  simp only [Bool.false_eq_true, if_false, List.length_append, List.length_cons]
  omega

end Construct

/-! ## Headers -/

theorem gives_argumentPieces {arguments : List Argument} (horderly : Orderly arguments)
    (hk : k ≠ .leftParen) :
    Gives (do
        match ← Reader.peek with
        | .leftParen => do
            let _ ← Reader.next
            readArguments ((← Reader.remaining) + 1) []
        | _ => return [])
      (Construct.argumentPieces arguments ++ .token k :: ps)
      (·.map (·.unplaced) = arguments.map (·.unplaced)) (.token k :: ps) := by
  rw [Construct.argumentPieces]
  cases arguments with
  | nil =>
      refine Gives.peek ?_
      cases k <;> first | exact .pure rfl | exact absurd rfl hk
  | cons a arguments =>
      have hlength : (a :: arguments).length ≤ (commas ((a :: arguments).map (·.pieces))).length := by
        rw [← List.length_map (·.pieces)]
        refine length_le_commas ?_
        simp only [List.forall_mem_map]
        intro b _
        cases b <;> simp [Argument.pieces]
      rw [List.isEmpty_cons, if_neg Bool.false_ne_true, List.cons_append, List.append_assoc]
      refine Gives.peek (Gives.next (Gives.remaining fun n hn => ?_))
      rw [List.length_append] at hn
      exact gives_arguments (List.map_nil.trans List.map_nil.symm) horderly (by simp) (by omega)

theorem gives_unpackPieces {unpack : List String} (hk : k ≠ .arrow ∧ k ≠ .comma) :
    Gives (do
        match ← Reader.peek with
        | .arrow => do
            let _ ← Reader.next
            let name ← identifier
            return name :: (← moreNames (← Reader.remaining))
        | _ => return [])
      (Construct.unpackPieces unpack ++ .token k :: ps) (· = unpack) (.token k :: ps) := by
  rw [Construct.unpackPieces]
  cases unpack with
  | nil =>
      refine Gives.peek ?_
      cases k <;> first | exact .pure rfl | exact absurd rfl hk.1
  | cons name names =>
      have hlength : (name :: names).length ≤ (commas ((name :: names).map namePiece)).length := by
        rw [← List.length_map namePiece]
        refine length_le_commas ?_
        simp only [List.forall_mem_map]
        exact fun _ _ => by simp [namePiece]
      rw [List.isEmpty_cons, if_neg Bool.false_ne_true, List.cons_append]
      rw [List.map_cons, commas_eq_flatMap, List.flatMap_map] at hlength ⊢
      refine Gives.peek (Gives.next (gives_identifier.bind_eq (Gives.remaining fun n hn => ?_)))
      refine (gives_moreNames hk.2 ?_).bind_eq (.pure rfl)
      have hrest : names.length ≤ (names.flatMap fun a => .token .comma :: namePiece a).length := by
        simpa [namePiece] using hlength
      exact Nat.le_trans hrest (Nat.le_trans (List.length_append ▸ Nat.le_add_right _ _) hn)

theorem gives_capturePieces {captures : List Capture} (hk : k ≠ .leftBracket) :
    Gives (do
        match ← Reader.peek with
        | .leftBracket => do
            let _ ← Reader.next
            readCaptures ((← Reader.remaining) + 1)
        | _ => return [])
      (Construct.capturePieces captures ++ .token k :: ps) (· = captures) (.token k :: ps) := by
  rw [Construct.capturePieces]
  cases captures with
  | nil =>
      refine Gives.peek ?_
      cases k <;> first | exact .pure rfl | exact absurd rfl hk
  | cons p captures =>
      have hlength : (p :: captures).length ≤ (commas ((p :: captures).map (·.pieces))).length := by
        rw [← List.length_map (·.pieces)]
        refine length_le_commas ?_
        simp only [List.forall_mem_map]
        exact fun q _ => by simp [Capture.pieces]
      rw [List.isEmpty_cons, if_neg Bool.false_ne_true, List.cons_append, List.append_assoc]
      refine Gives.peek (Gives.next (Gives.remaining fun n hn => ?_))
      rw [List.length_append] at hn
      exact gives_captures (by simp) (by omega)

/-! ## Blocks -/

theorem Target.Written.head {t : Target} (h : t.Written) : ∃ name ks, t.tokens = .ident name :: ks := by
  cases t with
  | own attr => exact ⟨attr, [], by rw [tokens, ofWord_of_isName h]⟩
  | member name attr => exact ⟨name, _, by rw [tokens, ofWord_of_isName h.1]⟩
  | element name i attr => exact ⟨name, _, by rw [tokens, ofWord_of_isName h.1]⟩

/-- Every item of a block starts with an identifier. -/
theorem At.item {t : Stream} {item : BodyItem Construct}
    (h : At t (Construct.itemPieces item ++ ps)) : ∃ name, t.peek = .ident name := by
  cases item with
  | child c =>
      rw [Construct.itemPieces, Construct.pieces_eq, Construct.headerPieces] at h
      exact ⟨_, (At.token h).1⟩
  | assignment a =>
      obtain ⟨used, rest, hrest, -, htokens, hwritten, -⟩ := Lays.of_target h
      obtain ⟨name, ks, hks⟩ := hwritten.head
      refine ⟨name, peek_of_kinds (q := ks ++ rest.map (·.token)) ?_⟩
      rw [Stream.kinds, hrest, List.map_append, htokens, hks]
      rfl

theorem gives_items {inner : Reader Construct} {items : List (BodyItem Construct)} {n : Nat}
    (hchildren : ∀ c, .child c ∈ items → ∀ ps,
      Gives inner (c.pieces ++ ps) (·.unplaced = c.unplaced) ps) (hn : items.length < n) :
    Gives (readItems inner n) (Construct.bodyPieces items ++ .token .dedent :: ps)
      (fun xs => Construct.unplacedBody xs = Construct.unplacedBody items) ps := by
  induction items generalizing n with
  | nil =>
      obtain ⟨n, rfl⟩ : ∃ m, n = m + 1 := ⟨n - 1, by simp at hn; omega⟩
      refine Gives.get fun t ht => ?_
      rw [(At.token ht).1]
      exact Gives.next (.pure rfl)
  | cons item items ih =>
      obtain ⟨n, rfl⟩ : ∃ m, n = m + 1 := ⟨n - 1, by simp at hn; omega⟩
      rw [Construct.bodyPieces, List.append_assoc]
      refine Gives.get fun t ht => ?_
      obtain ⟨name, hname⟩ := ht.item
      rw [hname]
      have hrest := ih (fun c hc => hchildren c (List.mem_cons_of_mem _ hc)) (n := n)
        (by simpa using hn)
      have hitem : ∀ {r : Reader (BodyItem Construct)},
          Gives r (Construct.itemPieces item ++ (Construct.bodyPieces items ++ .token .dedent :: ps))
            (Construct.unplacedItem · = Construct.unplacedItem item)
            (Construct.bodyPieces items ++ .token .dedent :: ps) →
          Gives (r >>= fun x => readItems inner n >>= fun xs => pure (x :: xs))
            (Construct.itemPieces item ++ (Construct.bodyPieces items ++ .token .dedent :: ps))
            (fun xs => Construct.unplacedBody xs = Construct.unplacedBody (item :: items)) ps := by
        intro r hr
        refine hr.bind fun x hx => hrest.bind fun xs hxs => .pure ?_
        rw [Construct.unplacedBody, hx, hxs, Construct.unplacedBody]
      cases item with
      | assignment a =>
          rw [Lays.hasBinding_assignment ht]
          refine hitem (r := BodyItem.assignment <$> readAssignment) ?_
          refine gives_assignment.map fun b hb => ?_
          rw [Construct.unplacedItem, hb, Construct.unplacedItem]
      | child c =>
          rw [Lays.hasBinding_construct ht]
          refine hitem (r := BodyItem.child <$> inner) ?_
          refine (hchildren c List.mem_cons_self _).map fun b hb => ?_
          rw [Construct.unplacedItem, hb, Construct.unplacedItem]

/-- What stands behind a header: the end of the line, or a colon and a block. -/
theorem gives_blockPieces {inner : Reader Construct} {body : List (BodyItem Construct)}
    (hchildren : ∀ c, .child c ∈ body → ∀ ps,
      Gives inner (c.pieces ++ ps) (·.unplaced = c.unplaced) ps) :
    Gives (do
        match ← Reader.peek with
        | .colon => do
            let _ ← Reader.next
            readBlock inner
        | _ => do
            lineEnd
            return [])
      (Construct.blockPieces body ++ ps)
      (fun xs => Construct.unplacedBody xs = Construct.unplacedBody body) ps := by
  rw [Construct.blockPieces]
  cases body with
  | nil => exact Gives.peek (gives_lineEnd.bind_eq (.pure rfl))
  | cons item items =>
      have hlength := Construct.length_le_bodyPieces (item :: items)
      rw [List.isEmpty_cons, if_neg Bool.false_ne_true, List.cons_append, List.cons_append,
        List.cons_append, List.append_assoc]
      refine Gives.peek (Gives.next ((gives_exactly rfl).bind_eq (Gives.peek (Gives.next
        (Gives.remaining fun n hn => ?_)))))
      rw [List.length_append] at hn
      exact gives_items hchildren (by omega)

/-- The first tokens of what may stand behind the parts of a header. -/
theorem Construct.blockPieces_front (body : List (BodyItem Construct)) (ps : List Piece) :
    ∃ k ps', blockPieces body ++ ps = .token k :: ps' ∧ (k = .newline ∨ k = .colon) := by
  rw [blockPieces]
  split
  next => exact ⟨_, _, rfl, .inl rfl⟩
  next => exact ⟨_, _, rfl, .inr rfl⟩

theorem Construct.capturePieces_front (captures : List Capture) (k : Token) (ps : List Piece) :
    ∃ k' ps', capturePieces captures ++ .token k :: ps = .token k' :: ps' ∧
      (k' = .leftBracket ∨ k' = k) := by
  rw [capturePieces]
  split
  next => exact ⟨_, _, rfl, .inr rfl⟩
  next => exact ⟨_, _, rfl, .inl rfl⟩

theorem Construct.unpackPieces_front (unpack : List String) (k : Token) (ps : List Piece) :
    ∃ k' ps', unpackPieces unpack ++ .token k :: ps = .token k' :: ps' ∧
      (k' = .arrow ∨ k' = k) := by
  rw [unpackPieces]
  split
  next => exact ⟨_, _, rfl, .inr rfl⟩
  next => exact ⟨_, _, rfl, .inl rfl⟩

theorem gives_constructWith {inner : Reader Construct} {c : Construct}
    (horderly : Orderly c.arguments) (hchildren : ∀ child, .child child ∈ c.body → ∀ ps,
      Gives inner (child.pieces ++ ps) (·.unplaced = child.unplaced) ps) :
    Gives (readConstructWith inner) (c.pieces ++ ps) (·.unplaced = c.unplaced) ps := by
  obtain ⟨typeName, arguments, unpack, captures, body, pos⟩ := c
  obtain ⟨k, ps₁, hblock, hk⟩ := Construct.blockPieces_front body ps
  obtain ⟨k₁, ps₂, hcaptures, hk₁⟩ := Construct.capturePieces_front captures k ps₁
  obtain ⟨k₂, ps₃, hunpack, hk₂⟩ := Construct.unpackPieces_front unpack k₁ ps₂
  rw [Construct.pieces_eq, Construct.headerPieces]
  simp only [List.cons_append, List.append_assoc]
  refine Gives.get fun t _ => gives_identifier.bind_eq ?_
  rw [hblock, hcaptures, hunpack]
  refine (gives_argumentPieces horderly ?_).bind fun as has => ?_
  · rcases hk₂ with rfl | rfl
    · simp
    · rcases hk₁ with rfl | rfl
      · simp
      · rcases hk with rfl | rfl <;> simp
  rw [← hunpack]
  refine (gives_unpackPieces ?_).bind_eq ?_
  · rcases hk₁ with rfl | rfl
    · simp
    · rcases hk with rfl | rfl <;> simp
  rw [← hcaptures]
  refine (gives_capturePieces ?_).bind_eq ?_
  · rcases hk with rfl | rfl <;> simp
  rw [← hblock]
  refine (gives_blockPieces hchildren).bind fun xs hxs => .pure ?_
  rw [Construct.unplaced, Construct.unplaced, has, hxs]

/-- A construct is read by every reader of constructs that are nested deeply enough. -/
theorem gives_constructTo {c : Construct} (h : c.Written) {depth : Nat} {ps : List Piece}
    (hdepth : c.pieces.length < depth) :
    Gives (readConstructTo depth) (c.pieces ++ ps) (·.unplaced = c.unplaced) ps := by
  induction h generalizing depth ps with
  | @intro c hname harguments horderly hunpack hcaptures hassignments hchildren ih =>
      obtain ⟨depth, rfl⟩ : ∃ d, depth = d + 1 := ⟨depth - 1, by omega⟩
      refine gives_constructWith horderly fun child hchild ps => ih child hchild ?_
      have := Construct.length_child hchild
      omega

theorem gives_construct {c : Construct} (h : c.Written) :
    Gives readConstruct (c.pieces ++ ps) (·.unplaced = c.unplaced) ps := by
  refine Gives.remaining fun n hn => gives_constructTo h ?_
  rw [List.length_append] at hn
  omega

/-! ## Defines and modules -/

theorem gives_body {body : List Construct} {n : Nat} (h : ∀ c ∈ body, c.Written)
    (hn : body.length < n) :
    Gives (readBody n) (body.flatMap (·.pieces) ++ .token .dedent :: ps)
      (·.map (·.unplaced) = body.map (·.unplaced)) ps := by
  induction body generalizing n with
  | nil =>
      obtain ⟨n, rfl⟩ : ∃ m, n = m + 1 := ⟨n - 1, by simp at hn; omega⟩
      exact Gives.peek (Gives.next (.pure rfl))
  | cons c body ih =>
      obtain ⟨n, rfl⟩ : ∃ m, n = m + 1 := ⟨n - 1, by simp at hn; omega⟩
      obtain ⟨hc, hbody⟩ := List.forall_mem_cons.1 h
      have hread : Gives readConstruct
          (c.pieces ++ (body.flatMap (·.pieces) ++ .token .dedent :: ps)) _ _ := gives_construct hc
      rw [List.flatMap_cons, List.append_assoc]
      rw [Construct.pieces_eq, Construct.headerPieces] at hread ⊢
      refine Gives.peek (hread.bind fun d hd => ?_)
      refine (ih hbody (by simpa using hn)).bind fun ds hds => .pure ?_
      rw [List.map_cons, hd, hds, List.map_cons]

theorem Construct.length_le_flatMap (body : List Construct) :
    body.length ≤ (body.flatMap (·.pieces)).length := by
  have hlength := length_le_bodyPieces (body.map .child)
  rwa [bodyPieces_map_child, List.length_map] at hlength

/-- The body of a define; an empty one is written as `pass`. -/
theorem gives_defineBody {body : List Construct} {n : Nat} (h : ∀ c ∈ body, c.Written)
    (hn : (Define.bodyPieces body ++ .token .dedent :: ps).length ≤ n) :
    Gives (readBody (n + 1)) (Define.bodyPieces body ++ .token .dedent :: ps)
      (·.map (·.unplaced) = body.map (·.unplaced)) ps := by
  rw [Define.bodyPieces] at hn ⊢
  cases body with
  | nil =>
      obtain ⟨n, rfl⟩ : ∃ m, n = m + 1 := ⟨n - 1, by simp at hn; omega⟩
      exact Gives.peek (Gives.next (gives_lineEnd.bind_eq (gives_body h (Nat.succ_pos n))))
  | cons c body =>
      have hlength := Construct.length_le_flatMap (c :: body)
      rw [List.isEmpty_cons, if_neg Bool.false_ne_true, List.nil_append] at hn ⊢
      rw [List.length_append] at hn
      exact gives_body h (by omega)

theorem gives_entries {p : Parameters} {n : Nat} (h : p.Written)
    (hn : (commas (p.entries.map entryPieces)).length ≤ n) :
    Gives (readParameters (n + 1) {}) (commas (p.entries.map entryPieces) ++
      .token .rightParen :: ps) (·.unplaced = p.unplaced) ps := by
  have hlength : p.entries.length ≤ (commas (p.entries.map entryPieces)).length := by
    rw [← List.length_map entryPieces]
    refine length_le_commas ?_
    simp only [List.forall_mem_map]
    rintro ⟨name, _ | value⟩ - <;> simp [entryPieces]
  have hread : Gives (readParameters (n + 1) {})
      (commas (p.entries.map entryPieces) ++ .token .rightParen :: ps) _ ps := gives_parameters
    (by rw [p.map_fst_entries]; exact h.nodup) (fun hne => absurd rfl hne) p.ordered_entries
    (by omega)
  refine hread.imp fun q hq => ?_
  rw [p.map_fst_entries, Parameters.filterMap_entries h.length] at hq
  rw [Parameters.unplaced, hq.1, hq.2, Parameters.unplaced]
  rfl

theorem gives_define {d : Define} (h : d.Written) :
    Gives readDefine (d.pieces ++ ps) (·.unplaced = d.unplaced) ps := by
  rw [Define.pieces]
  simp only [List.cons_append, List.append_assoc, List.nil_append]
  refine Gives.get fun t _ => Gives.next (gives_identifier.bind_eq ((gives_exactly rfl).bind_eq
    (Gives.remaining fun n hn => ?_)))
  rw [List.length_append] at hn
  refine (gives_entries h.parameters (by omega)).bind fun q hq => ?_
  refine (gives_exactly rfl).bind_eq ((gives_exactly rfl).bind_eq ((gives_exactly rfl).bind_eq
    (Gives.remaining fun m hm => ?_)))
  refine (gives_defineBody h.body hm).bind fun cs hcs => .pure ?_
  rw [Define.unplaced, hq, hcs, Define.unplaced]

theorem gives_module {items : List Item} {n : Nat} (h : ∀ item ∈ items, item.Written)
    (hn : items.length < n) :
    Gives (readModule n) (items.flatMap (·.pieces) ++ [.token .eof])
      (·.map (·.unplaced) = items.map (·.unplaced)) [.token .eof] := by
  induction items generalizing n with
  | nil =>
      obtain ⟨n, rfl⟩ : ∃ m, n = m + 1 := ⟨n - 1, by simp at hn; omega⟩
      exact Gives.peek (.pure rfl)
  | cons item items ih =>
      obtain ⟨n, rfl⟩ : ∃ m, n = m + 1 := ⟨n - 1, by simp at hn; omega⟩
      obtain ⟨hitem, hitems⟩ := List.forall_mem_cons.1 h
      have hrest := ih hitems (n := n) (by simpa using hn)
      rw [List.flatMap_cons, List.append_assoc]
      cases item with
      | define d =>
          have hread : Gives readDefine
              (d.pieces ++ (items.flatMap (·.pieces) ++ [.token .eof])) _ _ := gives_define hitem
          rw [Item.pieces]
          rw [Define.pieces] at hread ⊢
          refine Gives.peek (hread.bind fun d' hd' => hrest.bind fun xs hxs => .pure ?_)
          rw [List.map_cons, Item.unplaced, hd', hxs, List.map_cons, Item.unplaced]
      | construct c =>
          have hread : Gives readConstruct
              (c.pieces ++ (items.flatMap (·.pieces) ++ [.token .eof])) _ _ := gives_construct hitem
          rw [Item.pieces]
          rw [Construct.pieces_eq, Construct.headerPieces] at hread ⊢
          refine Gives.peek (hread.bind fun c' hc' => hrest.bind fun xs hxs => .pure ?_)
          rw [List.map_cons, Item.unplaced, hc', hxs, List.map_cons, Item.unplaced]

theorem Item.length_le_flatMap (items : List Item) :
    items.length ≤ (items.flatMap (·.pieces)).length := by
  induction items with
  | nil => exact Nat.zero_le _
  | cons item items ih =>
      have hitem : 0 < item.pieces.length := by
        cases item with
        | define d => exact Nat.succ_pos _
        | construct c =>
            rw [pieces, Construct.pieces_eq, Construct.headerPieces]
            exact Nat.succ_pos _
      rw [List.flatMap_cons, List.length_append, List.length_cons]
      omega

theorem Module.parse_eq_ok {source : String} {m : Module} :
    Module.parse source = .ok m ↔ ∃ ls t, tokenize source.toList = .ok ls ∧
      readAll (.ofLexemes source.toList ls) = .ok (m.items, t) := by
  have hrun : Module.parse source = (tokenize source.toList).bind fun ls =>
      (readAll (.ofLexemes source.toList ls)).bind fun p => .ok ⟨p.1⟩ := rfl
  rw [hrun]
  cases tokenize source.toList with
  | error e => simp [Except.bind]
  | ok ls =>
      cases hitems : readAll (.ofLexemes source.toList ls) with
      | error e => simp [Except.bind, hitems]
      | ok p =>
          obtain ⟨items, t⟩ := p
          obtain ⟨items'⟩ := m
          simp [Except.bind, hitems]

/-- **The text of a template that can be written is read as the template.** -/
theorem Module.Written.parse_text {m : Module} (h : m.Written) :
    ∃ m', Module.parse m.text = .ok m' ∧ m'.unplaced = m.unplaced := by
  obtain ⟨ls, htokens, hlays⟩ := Module.tokenize_text h
  have hlength := Item.length_le_flatMap m.items
  have hread : Gives readAll m.pieces
      (·.map (·.unplaced) = m.items.map (·.unplaced)) [.token .eof] := by
    refine Gives.remaining fun n hn => gives_module h ?_
    rw [Module.pieces, List.length_append] at hn
    omega
  obtain ⟨items, t, hitems, -, hunplaced⟩ := hread (.ofLexemes m.text.toList ls) hlays
  refine ⟨⟨items⟩, Module.parse_eq_ok.2 ⟨ls, t, htokens, hitems⟩, ?_⟩
  rw [Module.unplaced, hunplaced, Module.unplaced]

end LiveUI.Markup
