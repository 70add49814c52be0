import MinecraftWire.Proofs.Lookup
import MinecraftWire.Proofs.Nbt.Descent
import MinecraftWire.Proofs.Nbt.Writing

/-! What is written is read back. The form of a tree is parsed by the grammar, by recursion on the
tree, and the loop of the reader follows the grammar. The kind that an empty list declares is the
one thing about a tree that its form does not tell. -/

namespace MinecraftWire.Nbt

open Tag Reader

namespace Tag

mutual

/-- The tree in which empty lists are lists of end marks. -/
def normal : Tag → Tag
  | list kind items => list (formKind kind items) (normalItems items)
  | compound entries => compound (normalEntries entries)
  | t => t
termination_by structural t => t

def normalItems : List Tag → List Tag
  | [] => []
  | t :: items => t.normal :: normalItems items
termination_by structural ts => ts

def normalEntries : List (String × Tag) → List (String × Tag)
  | [] => []
  | (name, t) :: entries => (name, t.normal) :: normalEntries entries
termination_by structural es => es

end

end Tag

/-- What the form of a root tells of it: an empty name is none, and only the named form has one. -/
def Root.normal (header : Header) (root : Root) : Root :=
  match header with
  | .named =>
    ⟨if root.tag.kind = .endMark then none else root.name.filter fun name => !name.isEmpty,
      root.tag.normal⟩
  | .unnamed => ⟨none, root.tag.normal⟩

/-! ### Parts -/

theorem takes_kind (kind : TagKind) (rest : Bytes) : Read.kind.Takes [kind.id] rest kind := by
  have hkind : TagKind.ofByte kind.id = .ok kind := by rw [TagKind.ofByte, TagKind.ofId?_id]
  have hput : FixedWidth.put kind.id = [kind.id] := by cases kind <;> rfl
  rw [← hput]
  refine (takes_value kind.id rest).bind_nil ?_
  exact takes_lift hkind rest

theorem takes_text {s : String} (h : s.utf8ByteSize ≤ maxTextBytes) (rest : Bytes) :
    Read.text.Takes (textForm s) rest s := by
  obtain ⟨hneg, hnat⟩ := int16_ofNat (n := s.utf8ByteSize) (Nat.lt_of_le_of_lt h (by decide))
  have hdecode : Read.decodeText (Utf8.encode s) = .ok s := by
    rw [Read.decodeText, Utf8.decode_encode]
  refine (takes_value _ _).bind ?_
  rw [if_neg hneg, hnat, ← Utf8.length_encode]
  exact (takes_exactly _ _).bind_nil (takes_lift hdecode _)

theorem takes_count {n : Nat} (kind : TagKind) (h : n ≤ maxElements) (rest : Bytes) :
    (Read.count kind).Takes (countForm n) rest n := by
  obtain ⟨hneg, hnat⟩ := toInt_ofNat_toNat (n := n) (Nat.lt_of_le_of_lt h (by decide))
  refine (takes_value _ _).bind_nil ?_
  rw [if_neg hneg, hnat]
  exact takes_pure n rest

theorem takes_array {α : Type} [FixedWidth α] [FixedWidth.Lawful α] (kind : TagKind) {vs : List α}
    (h : vs.length ≤ maxElements) (rest : Bytes) :
    (Read.array α kind).Takes (arrayForm vs) rest vs := by
  refine (takes_count kind h _).bind ?_
  rw [← FixedWidth.length_flatMap_put]
  exact (takes_exactly _ _).bind_nil (takes_lift (FixedWidth.takeMany_flatMap_put vs []) _)

theorem takes_scalar {t : Tag} (hlist : t.kind ≠ .list) (hcompound : t.kind ≠ .compound) (h : t.Fits)
    (rest : Bytes) : (Read.scalar t.kind).Takes t.form rest t := by
  cases t with
  | endMark => exact takes_pure endMark rest
  | byte v => exact (takes_value v rest).map byte
  | short v => exact (takes_value v rest).map short
  | int v => exact (takes_value v rest).map int
  | long v => exact (takes_value v rest).map long
  | float v => exact (takes_value v rest).map float
  | double v => exact (takes_value v rest).map double
  | byteArray vs => exact (takes_array _ h rest).map byteArray
  | string s => exact (takes_text h rest).map string
  | list kind items => exact absurd rfl hlist
  | compound entries => exact absurd rfl hcompound
  | intArray vs => exact (takes_array _ h rest).map intArray
  | longArray vs => exact (takes_array _ h rest).map longArray

theorem takes_listHeading {kind : TagKind} {items : List Tag} (hlegal : (list kind items).Legal)
    (hfits : items.length ≤ maxElements) (rest : Bytes) :
    Read.listHeading.Takes (listHeadingForm kind items) rest (formKind kind items, items.length) := by
  have hcheck : ¬ (formKind kind items = .endMark ∧ 0 < items.length) := by
    rintro ⟨hkind, hlength⟩
    obtain ⟨t, ht⟩ := List.exists_mem_of_length_pos hlength
    obtain ⟨rfl, hend⟩ := hlegal t ht
    rw [formKind_of_mem ht] at hkind
    exact hend hkind
  refine (takes_kind _ _).bind ((takes_count .list hfits rest).bind_nil ?_)
  rw [if_neg hcheck]
  exact takes_pure _ rest

theorem takes_childHeading {kind : TagKind} {name : String} (hkind : kind ≠ .endMark)
    (hname : name.utf8ByteSize ≤ maxTextBytes) (rest : Bytes) :
    Read.childHeading.Takes (kind.id :: textForm name) rest (some (kind, name)) := by
  refine (takes_kind kind (textForm name ++ rest)).bind ?_
  rw [if_neg hkind]
  exact (takes_text hname rest).map fun name => some (kind, name)

theorem takes_end (rest : Bytes) : Read.childHeading.Takes [TagKind.endMark.id] rest none := by
  refine (takes_kind .endMark rest).bind_nil ?_
  rw [if_pos rfl]
  exact takes_pure none rest

/-! ### Trees -/

theorem parse_scalar {t : Tag} (h : t.Fits) (hlist : t.kind ≠ .list)
    (hcompound : t.kind ≠ .compound) (room : Nat) (rest : Bytes) :
    (Grammar.payload room t.kind).parse (t.form ++ rest) = .ok (t, rest) :=
  (realizes_scalar room hlist hcompound).parse_of_takes (takes_scalar hlist hcompound h rest)

mutual

/-- With room for its depth, the grammar parses the form of a tree. -/
theorem parse_form (t : Tag) (hlegal : t.All Legal) (hfits : t.All Fits) {room : Nat}
    (hdepth : t.depth ≤ room) (rest : Bytes) :
    (Grammar.payload room t.kind).parse (t.form ++ rest) = .ok (t.normal, rest) := by
  cases t with
  | list kind items =>
    rw [depth] at hdepth
    obtain ⟨room, rfl⟩ : ∃ left, room = left + 1 := ⟨room - 1, by omega⟩
    have hheading := realizes_listHeading.parse_of_takes
      (takes_listHeading hlegal.here hfits.here (formItems items ++ rest))
    have hkind : ∀ t ∈ items, t.kind = formKind kind items := by
      intro t ht
      rw [formKind_of_mem ht]
      exact (hlegal.here t ht).1
    have hitems := parse_items items (fun t ht => hlegal.item ht) (fun t ht => hfits.item ht) hkind
      (Nat.le_of_succ_le_succ hdepth) rest
    rw [form, List.append_assoc]
    exact (Parser.parse_bind_ok hheading).trans (Parser.parse_bind_ok hitems)
  | compound entries =>
    rw [depth] at hdepth
    obtain ⟨room, rfl⟩ : ∃ left, room = left + 1 := ⟨room - 1, by omega⟩
    obtain ⟨hnodup, hchild⟩ := hlegal.here
    have hentries := parse_entries entries
      (fun e he => ⟨hchild e he, hlegal.entry he⟩)
      (fun e he => ⟨hfits.here e he, hfits.entry he⟩) [] hnodup (Nat.le_of_succ_le_succ hdepth) rest
    have hcompound : (Grammar.compound (Grammar.payload room)).parse (formEntries entries ++ rest) =
        .ok (normalEntries entries, rest) := hentries
    exact Parser.parse_bind_ok hcompound
  | _ => exact parse_scalar hfits.here (by simp [kind]) (by simp [kind]) room rest
termination_by structural t

theorem parse_items (items : List Tag) (hlegal : ∀ t ∈ items, t.All Legal)
    (hfits : ∀ t ∈ items, t.All Fits) {element : TagKind} (hkind : ∀ t ∈ items, t.kind = element)
    {room : Nat} (hdepth : depthItems items ≤ room) (rest : Bytes) :
    (Parser.times items.length (Grammar.payload room element)).parse (formItems items ++ rest) =
      .ok (normalItems items, rest) := by
  cases items with
  | nil => rfl
  | cons t items =>
    rw [depthItems] at hdepth
    have hfirst := parse_form t (hlegal t List.mem_cons_self) (hfits t List.mem_cons_self)
      (Nat.le_trans (Nat.le_max_left _ _) hdepth) (formItems items ++ rest)
    have hrest := parse_items items (fun u hu => hlegal u (List.mem_cons_of_mem _ hu))
      (fun u hu => hfits u (List.mem_cons_of_mem _ hu))
      (fun u hu => hkind u (List.mem_cons_of_mem _ hu))
      (Nat.le_trans (Nat.le_max_right _ _) hdepth) rest
    rw [hkind t List.mem_cons_self] at hfirst
    rw [formItems, List.append_assoc]
    exact (Parser.parse_bind_ok hfirst).trans (Parser.parse_bind_ok hrest)
termination_by structural items

theorem parse_entries (entries : List (String × Tag))
    (hlegal : ∀ e ∈ entries, (e.1 ≠ "" ∧ e.2.kind ≠ .endMark) ∧ e.2.All Legal)
    (hfits : ∀ e ∈ entries, e.1.utf8ByteSize ≤ maxTextBytes ∧ e.2.All Fits)
    (earlier : List (String × Tag))
    (hnodup : (earlier.map Prod.fst ++ entries.map Prod.fst).Nodup) {room : Nat}
    (hdepth : depthEntries entries ≤ room) (rest : Bytes) :
    Grammar.children (Grammar.payload room) earlier (formEntries entries ++ rest) =
      .ok (earlier ++ normalEntries entries, rest) := by
  cases entries with
  | nil =>
    rw [normalEntries, List.append_nil]
    exact Grammar.children_of_end (realizes_childHeading.parse_of_takes (takes_end rest))
  | cons e entries =>
    obtain ⟨name, t⟩ := e
    obtain ⟨⟨hname, hkind⟩, ht⟩ := hlegal (name, t) List.mem_cons_self
    obtain ⟨hsize, htfits⟩ := hfits (name, t) List.mem_cons_self
    rw [depthEntries] at hdepth
    have hheading := realizes_childHeading.parse_of_takes
      (takes_childHeading hkind hsize (t.form ++ (formEntries entries ++ rest)))
    have hchild := parse_form t ht htfits (Nat.le_trans (Nat.le_max_left _ _) hdepth)
      (formEntries entries ++ rest)
    have hnew : ¬ (name.isEmpty ∨ (earlier.lookup name).isSome) := by
      rw [lookup_eq_none hnodup]
      simpa using hname
    have hrest := parse_entries entries (fun e he => hlegal e (List.mem_cons_of_mem _ he))
      (fun e he => hfits e (List.mem_cons_of_mem _ he)) (earlier ++ [(name, t.normal)])
      (by simpa using hnodup) (Nat.le_trans (Nat.le_max_right _ _) hdepth) rest
    rw [formEntries, List.append_assoc, List.append_assoc,
      Grammar.children_of_child hheading hchild hnew, hrest, normalEntries, List.append_assoc,
      List.singleton_append]
termination_by structural entries

end

/-! ### Roots -/

theorem takes_payload {t : Tag} (hlegal : t.All Legal) (hfits : t.All Fits)
    (hdepth : t.depth ≤ maxDepth) (rest : Bytes) :
    (Read.payload t.kind).Takes t.form rest t.normal :=
  (Read.realizes_payload t.kind).takes (parse_form t hlegal hfits hdepth rest)

/-- An empty name and none are the same on the wire. -/
theorem readName_eq (name : Option String) :
    (if (name.getD "").isEmpty then none else some (name.getD "")) =
      name.filter fun name => !name.isEmpty := by
  cases name with
  | none => rfl
  | some name => cases h : name.isEmpty <;> simp [Option.filter, h]

theorem takes_form {header : Header} {root : Root} (hlegal : root.tag.All Legal)
    (hfits : root.tag.All Fits) (hdepth : root.tag.depth ≤ maxDepth)
    (hname : (root.name.getD "").utf8ByteSize ≤ maxTextBytes) (rest : Bytes) :
    (Read.root header).Takes (root.form header) rest (root.normal header) := by
  obtain ⟨name, t⟩ := root
  unfold Root.form Root.normal
  by_cases hkind : t.kind = .endMark
  · rw [if_pos hkind]
    refine (takes_kind .endMark rest).bind_nil ?_
    rw [if_pos rfl]
    cases t with
    | endMark => cases header <;> exact takes_pure _ rest
    | _ => contradiction
  · rw [if_neg hkind]
    have hpayload := takes_payload hlegal hfits hdepth rest
    cases header with
    | named =>
      refine (takes_kind t.kind _).bind ?_
      rw [if_neg hkind]
      refine (takes_text hname _).bind ?_
      rw [if_neg hkind, ← readName_eq]
      exact hpayload.map (Root.mk _)
    | unnamed =>
      refine (takes_kind t.kind _).bind ?_
      rw [if_neg hkind]
      exact hpayload.map (Root.mk none)

/-- What reads a root off the front of a byte string reads it as a document if nothing follows. -/
theorem ofBytes_of_takes {front rest : Bytes} {root : Root}
    (h : (Read.root .named).Takes front rest root) : Root.ofBytes (front ++ rest) =
      if rest = [] then .ok root else .error (.format (.nbt (.trailing rest.length))) := by
  obtain ⟨s, hread, hpending, -⟩ := h (.ofBytes (front ++ rest)) rfl rfl
  rw [Root.ofBytes, Reader.run, hread]
  cases rest <;> simp [hpending]

theorem ofBytes_form {root : Root} (hlegal : root.tag.All Legal) (hfits : root.tag.All Fits)
    (hdepth : root.tag.depth ≤ maxDepth) (hname : (root.name.getD "").utf8ByteSize ≤ maxTextBytes) :
    Root.ofBytes (root.form .named) = .ok (root.normal .named) := by
  have htakes : (Read.root .named).Takes (root.form .named) [] (root.normal .named) :=
    takes_form hlegal hfits hdepth hname []
  rw [← List.append_nil (root.form .named), ofBytes_of_takes htakes, if_pos rfl]

/-- A root that obeys the rules and keeps within the limits is written, and from every channel it is
read back up to its normal form, whatever follows it. -/
theorem takes_encode_normal {root : Root} (hlegal : root.tag.All Legal) (hfits : root.tag.All Fits)
    (hdepth : root.tag.depth ≤ maxDepth)
    (hname : (root.name.getD "").utf8ByteSize ≤ maxTextBytes) (header : Header) :
    ∃ bytes, root.encode header = .ok bytes ∧
      ∀ rest, (Read.root header).Takes bytes rest (root.normal header) :=
  ⟨root.form header, encode_eq hfits hdepth hname, takes_form hlegal hfits hdepth hname⟩

/-- A root over a float that is no number, an empty list and a list of compounds. -/
def nestedRoot : Root :=
  ⟨some "r", .compound [("nan", .float ⟨0x7FC00001⟩), ("none", .list .byte []),
    ("deep", .list .compound [.compound []])]⟩

theorem takes_encode_normal_nested :
    ∃ bytes, nestedRoot.encode .named = .ok bytes ∧
      (Read.root .named).Takes bytes [7] ⟨some "r", .compound
        [("nan", .float ⟨0x7FC00001⟩), ("none", .list .endMark []),
          ("deep", .list .compound [.compound []])]⟩ := by
  have hall {P : Tag → Prop} (hroot : P nestedRoot.tag) (hnan : P (.float ⟨0x7FC00001⟩))
      (hnone : P (.list .byte [])) (hdeep : P (.list .compound [.compound []]))
      (hinner : P (.compound [])) : nestedRoot.tag.All P := by
    refine .node hroot ?_
    simp only [nestedRoot, children, List.map_cons, List.map_nil, List.forall_mem_cons]
    refine ⟨.node hnan (List.forall_mem_nil _), .node hnone (List.forall_mem_nil _), .node hdeep ?_,
      List.forall_mem_nil _⟩
    simp only [children, List.forall_mem_cons]
    exact ⟨.node hinner (List.forall_mem_nil _), List.forall_mem_nil _⟩
  have hlegal : nestedRoot.tag.All Legal :=
    hall (by decide +kernel) (by decide) (by decide) (by decide) (by decide)
  have hfits : nestedRoot.tag.All Fits :=
    hall (by decide +kernel) (by decide) (by decide) (by decide) (by decide)
  obtain ⟨bytes, hencode, htakes⟩ :=
    takes_encode_normal hlegal hfits (by decide) (by decide +kernel) .named
  exact ⟨bytes, hencode, htakes [7]⟩

end MinecraftWire.Nbt
