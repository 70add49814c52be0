import MinecraftWire.Proofs.Nbt.RoundTrip

/-! What was read tells the bytes that it was read from. A tree keeps the kind that each of its empty
lists declared, so it has one spelling; whatever the grammar takes off a byte string is the spelling
of the tree it gives, and the tree keeps the rules for containers and the limits of the form. -/

namespace MinecraftWire.Nbt

open Tag

/-! ### Spellings -/

namespace Tag

mutual

/-- The payload that declares the kind of every list, also of an empty one. -/
def spelling : Tag → Bytes
  | list kind items => kind.id :: countForm items.length ++ spellingItems items
  | compound entries => spellingEntries entries
  | t => t.form
termination_by structural t => t

def spellingItems : List Tag → Bytes
  | [] => []
  | t :: items => t.spelling ++ spellingItems items
termination_by structural ts => ts

def spellingEntries : List (String × Tag) → Bytes
  | [] => [TagKind.endMark.id]
  | (name, t) :: entries => t.kind.id :: textForm name ++ t.spelling ++ spellingEntries entries
termination_by structural es => es

end

theorem spellingItems_eq_flatMap (items : List Tag) :
    spellingItems items = items.flatMap spelling := by
  induction items with
  | nil => rfl
  | cons t items ih => rw [spellingItems, ih, List.flatMap_cons]

/-- A tree of a kind that can be written with room for that many open containers. -/
structure Writable (room : Nat) (kind : TagKind) (t : Tag) : Prop where
  kind_eq : t.kind = kind
  legal : t.All Legal
  fits : t.All Fits
  depth_le : t.depth ≤ room

end Tag

/-! ### Parsers that tell what they took -/

/-- Whatever the parser gives is related to the bytes that were taken for it. -/
def Spells {α : Type} (p : Parser α) (S : α → Bytes → Prop) : Prop :=
  ∀ bytes a rest, p.parse bytes = .ok (a, rest) → ∃ front, bytes = front ++ rest ∧ S a front

section Spells

variable {α β : Type} {p : Parser α} {S T : α → Bytes → Prop} {f : α → Parser β}
  {U : β → Bytes → Prop}

theorem spells_pure {a : α} (h : S a []) : Spells (pure a) S := by
  intro bytes b rest hparse
  obtain ⟨rfl, rfl⟩ := Prod.mk.inj (Except.ok.inj hparse)
  exact ⟨[], rfl, h⟩

theorem spells_fail (kind : Fault.Kind) : Spells (Parser.fail kind) S := by
  intro bytes a rest hparse
  contradiction

theorem Spells.mono (hp : Spells p S) (h : ∀ a front, S a front → T a front) : Spells p T := by
  intro bytes a rest hparse
  obtain ⟨front, hfront, ha⟩ := hp bytes a rest hparse
  exact ⟨front, hfront, h a front ha⟩

/-- Behind a first part, what is given is related to the bytes of both. -/
theorem Spells.bind (hp : Spells p S)
    (hf : ∀ a front, S a front → Spells (f a) fun b back => U b (front ++ back)) :
    Spells (p >>= f) U := by
  intro bytes b rest hparse
  obtain ⟨a, middle, ha, hb⟩ := Parser.of_parse_bind hparse
  obtain ⟨front, rfl, hS⟩ := hp bytes a middle ha
  obtain ⟨back, rfl, hU⟩ := hf a front hS middle b rest hb
  exact ⟨front ++ back, by rw [List.append_assoc], hU⟩

theorem Spells.map {g : α → β} (hp : Spells p S) (h : ∀ a front, S a front → U (g a) front) :
    Spells (do return g (← p)) U := by
  refine hp.bind fun a front ha => spells_pure ?_
  rw [List.append_nil]
  exact h a front ha

theorem Spells.times {print : α → Bytes} {P : α → Prop}
    (hp : Spells p fun a front => front = print a ∧ P a) (n : Nat) :
    Spells (Parser.times n p) fun as front =>
      front = as.flatMap print ∧ as.length = n ∧ ∀ a ∈ as, P a := by
  induction n with
  | zero => exact spells_pure ⟨rfl, rfl, List.forall_mem_nil _⟩
  | succ n ih =>
    refine hp.bind fun a front ha => ih.map fun as back has => ?_
    obtain ⟨rfl, ha⟩ := ha
    obtain ⟨rfl, rfl, has⟩ := has
    exact ⟨rfl, rfl, List.forall_mem_cons.mpr ⟨ha, has⟩⟩

end Spells

/-! ### Parts -/

theorem spells_bytes (n : Nat) :
    Spells (Parser.bytes n) fun bytes front => front = bytes ∧ bytes.length = n := by
  intro bytes front rest hparse
  obtain ⟨hlength, -⟩ := Parser.length_of_bytes hparse
  have hsplit : bytes = front ++ rest := by
    rcases Nat.lt_or_ge bytes.length n with hlt | hle
    · rw [Parser.parse_bytes_of_lt hlt] at hparse
      contradiction
    · rw [Parser.parse_bytes_of_le hle] at hparse
      obtain ⟨rfl, rfl⟩ := Prod.mk.inj (Except.ok.inj hparse)
      exact (List.take_append_drop n bytes).symm
  exact ⟨front, hsplit, rfl, hlength⟩

theorem spells_number (size : Nat) :
    Spells (Parser.number size) fun n front => front = Bytes.ofNat size n ∧ n < 256 ^ size := by
  refine (spells_bytes size).map fun bytes front h => ?_
  obtain ⟨rfl, rfl⟩ := h
  exact ⟨(Bytes.ofNat_toNat front).symm, Bytes.toNat_lt front⟩

/-- The kinds stand in the order of their type bytes. -/
theorem id_of_all {n : Nat} {kind : TagKind} (h : TagKind.all[n]? = some kind) :
    UInt8.ofNat n = kind.id := by
  obtain ⟨hlt, rfl⟩ := List.getElem?_eq_some_iff.mp h
  have hall : ∀ i : Fin TagKind.all.length, UInt8.ofNat i = (TagKind.all.get i).id := by decide
  exact hall ⟨n, hlt⟩

theorem spells_kind : Spells Grammar.kind fun kind front => front = [kind.id] := by
  refine (spells_number 1).bind fun n front h => ?_
  obtain ⟨rfl, -⟩ := h
  rcases hkind : TagKind.all[n]? with _ | kind
  · exact spells_fail _
  · refine spells_pure ?_
    rw [List.append_nil, Bytes.ofNat, Bytes.ofNat, id_of_all hkind]
    rfl

theorem spells_length (size : Nat) : Spells (Grammar.length size) fun n front =>
    front = Bytes.ofNat size n ∧ n < 256 ^ size ∧ n < 2 ^ (8 * size - 1) := by
  refine (spells_number size).bind fun n front h => ?_
  by_cases hn : n < 2 ^ (8 * size - 1)
  · rw [if_pos hn]
    refine spells_pure ?_
    rw [List.append_nil]
    exact ⟨h.1, h.2, hn⟩
  · rw [if_neg hn]
    exact spells_fail _

theorem spells_count : Spells (Grammar.length 4) fun n front =>
    front = countForm n ∧ n ≤ maxElements := by
  refine (spells_length 4).mono fun n front h => ?_
  obtain ⟨rfl, hlt, hn⟩ := h
  exact ⟨(FixedWidth.put_of_ofWord? (α := Int32) rfl hlt).symm, Nat.le_of_lt_succ hn⟩

theorem spells_text : Spells Grammar.text fun s front =>
    front = textForm s ∧ s.utf8ByteSize ≤ maxTextBytes := by
  refine (spells_length 2).bind fun n front hlength => (spells_bytes n).bind fun bytes back hbytes => ?_
  obtain ⟨rfl, hlt, hn⟩ := hlength
  obtain ⟨rfl, rfl⟩ := hbytes
  rcases htext : String.fromUTF8? back.toByteArray with _ | s
  · exact spells_fail _
  · refine spells_pure ?_
    obtain rfl := Utf8.decode_eq_ok_iff.mp (Utf8.fromUTF8?_eq_some_iff.mp htext)
    rw [Utf8.length_encode] at hlt hn ⊢
    have hput : FixedWidth.put (Int16.ofNat s.utf8ByteSize) = Bytes.ofNat 2 s.utf8ByteSize :=
      FixedWidth.put_of_ofWord? rfl hlt
    rw [List.append_nil, textForm, hput]
    exact ⟨rfl, Nat.le_of_lt_succ hn⟩

section FixedWidth

variable {α : Type} [FixedWidth α] [FixedWidth.Canonical α] (ofNat : Nat → α)
  (hof : ∀ n, FixedWidth.ofWord? n = some (ofNat n))

include hof

theorem spells_value : Spells (Grammar.value (FixedWidth.size α) ofNat) fun v front =>
    front = FixedWidth.put v := by
  refine (spells_number _).map fun n front h => ?_
  rw [h.1, FixedWidth.put_of_ofWord? (hof n) h.2]

theorem spells_array : Spells (Grammar.array (FixedWidth.size α) ofNat) fun vs front =>
    front = arrayForm vs ∧ vs.length ≤ maxElements := by
  have hvalue := (spells_value ofNat hof).mono fun _ _ h => And.intro h trivial
  refine spells_count.bind fun n front hcount => (hvalue.times n).mono fun vs back hvs => ?_
  obtain ⟨rfl, hn⟩ := hcount
  obtain ⟨rfl, rfl, -⟩ := hvs
  exact ⟨rfl, hn⟩

end FixedWidth

theorem spells_listHeading : Spells Grammar.listHeading fun heading front =>
    front = heading.1.id :: countForm heading.2 ∧ heading.2 ≤ maxElements ∧
      (heading.1 = .endMark → heading.2 = 0) := by
  refine spells_kind.bind fun element front helement => spells_count.bind fun n back hn => ?_
  obtain rfl := helement
  obtain ⟨rfl, hn⟩ := hn
  by_cases hcount : element = .endMark ∧ 0 < n
  · rw [if_pos hcount]
    exact spells_fail _
  · rw [if_neg hcount]
    refine spells_pure ⟨by rw [List.append_nil]; rfl, hn, fun hend => ?_⟩
    exact Nat.eq_zero_of_not_pos fun hpos => hcount ⟨hend, hpos⟩

theorem spells_childHeading : Spells Grammar.childHeading fun child front =>
    match child with
    | none => front = [TagKind.endMark.id]
    | some (kind, name) =>
      front = kind.id :: textForm name ∧ kind ≠ .endMark ∧ name.utf8ByteSize ≤ maxTextBytes := by
  refine spells_kind.bind fun kind front hkind => ?_
  obtain rfl := hkind
  by_cases hend : kind = .endMark
  · rw [if_pos hend]
    exact spells_pure (by rw [hend]; rfl)
  · rw [if_neg hend]
    refine spells_text.map fun name back hname => ?_
    obtain ⟨rfl, hsize⟩ := hname
    exact ⟨rfl, hend, hsize⟩

/-! ### Trees -/

/-- A parser of payloads gives trees of the kind asked for that are writable with that room. -/
def SpellsTags (child : TagKind → Parser Tag) (room : Nat) : Prop :=
  ∀ kind, Spells (child kind) fun t front => front = t.spelling ∧ t.Writable room kind

/-- A tag that holds no others is writable with any room, and its form is its spelling. -/
theorem writable_scalar {t : Tag} (hlist : t.kind ≠ .list) (hcompound : t.kind ≠ .compound)
    (hfits : t.Fits) (room : Nat) : t.form = t.spelling ∧ t.Writable room t.kind := by
  cases t with
  | list kind items => exact absurd rfl hlist
  | compound entries => exact absurd rfl hcompound
  | _ =>
    exact ⟨rfl, rfl, .node trivial (List.forall_mem_nil _), .node hfits (List.forall_mem_nil _),
      Nat.zero_le room⟩

theorem spells_list {room : Nat} (ih : SpellsTags (Grammar.payload room) room) :
    Spells (Grammar.payload (room + 1) .list) fun t front =>
      front = t.spelling ∧ t.Writable (room + 1) .list := by
  refine spells_listHeading.bind fun ⟨element, n⟩ front hheading =>
    ((ih element).times n).map fun items back hitems => ?_
  obtain ⟨rfl, hcount, hend⟩ := hheading
  obtain ⟨rfl, rfl, hitems⟩ := hitems
  refine ⟨?_, rfl, .node ?_ fun t ht => (hitems t ht).legal,
    .node hcount fun t ht => (hitems t ht).fits, ?_⟩
  · rw [Tag.spelling, spellingItems_eq_flatMap]
  · intro t ht
    refine ⟨(hitems t ht).kind_eq, fun hkind => ?_⟩
    have hempty := hend ((hitems t ht).kind_eq.symm.trans hkind)
    exact absurd (List.length_pos_of_mem ht) (Nat.not_lt.mpr (Nat.le_of_eq hempty))
  · exact Nat.succ_le_succ (depthItems_le fun t ht => (hitems t ht).depth_le)

/-- What the rules and the limits ask of a compound's child. -/
structure WritableChild (room : Nat) (e : String × Tag) : Prop where
  name_ne : e.1 ≠ ""
  name_fits : e.1.utf8ByteSize ≤ maxTextBytes
  kind_ne : e.2.kind ≠ .endMark
  writable : e.2.Writable room e.2.kind

/-- A name that is not found among those before is new. -/
theorem nodup_names_append {earlier : List (String × Tag)} {name : String}
    (h : (earlier.map Prod.fst).Nodup) (hnew : earlier.lookup name = none) (t : Tag) :
    ((earlier ++ [(name, t)]).map Prod.fst).Nodup := by
  rw [List.map_append, List.map_singleton, List.nodup_append]
  refine ⟨h, List.nodup_cons.mpr ⟨List.not_mem_nil, List.nodup_nil⟩, ?_⟩
  rintro a ha b hb rfl
  obtain ⟨e, he, rfl⟩ := List.mem_map.mp ha
  obtain rfl := List.mem_singleton.mp hb
  simpa using List.lookup_eq_none_iff.mp hnew e he

/-- The children read after those before are spelled one by one, with names that are new. -/
theorem spelling_of_children {child : TagKind → Parser Tag} {room : Nat}
    (hchild : SpellsTags child room) {earlier all : List (String × Tag)} {bytes rest : Bytes}
    (h : Grammar.children child earlier bytes = .ok (all, rest)) :
    ∃ later, all = earlier ++ later ∧ bytes = spellingEntries later ++ rest ∧
      (∀ e ∈ later, WritableChild room e) ∧
      ((earlier.map Prod.fst).Nodup → (all.map Prod.fst).Nodup) := by
  fun_induction Grammar.children child earlier bytes with
  | case1 => contradiction
  | case2 earlier bytes left hheading =>
    obtain ⟨rfl, rfl⟩ := Prod.mk.inj (Except.ok.inj h)
    obtain ⟨front, rfl, rfl⟩ := spells_childHeading _ _ _ hheading
    exact ⟨[], (List.append_nil _).symm, rfl, List.forall_mem_nil _, id⟩
  | case3 => contradiction
  | case4 => contradiction
  | case5 earlier bytes kind name left hheading t left' ht hname ih =>
    -- The first child stands before those that the rest of the bytes are read as.
    obtain ⟨front, rfl, rfl, hend, hsize⟩ := spells_childHeading _ _ _ hheading
    obtain ⟨front, rfl, rfl, hwritable⟩ := hchild kind _ _ _ ht
    obtain ⟨later, rfl, rfl, hlater, hnodup⟩ := ih h
    obtain rfl := hwritable.kind_eq
    rw [not_or] at hname
    refine ⟨(name, t) :: later, ?_, ?_, ?_, fun hearlier => hnodup ?_⟩
    · rw [List.append_assoc, List.singleton_append]
    · simp only [spellingEntries, List.append_assoc, List.cons_append]
    · refine List.forall_mem_cons.mpr ⟨⟨?_, hsize, hend, hwritable⟩, hlater⟩
      simpa using hname.1
    · exact nodup_names_append hearlier (Option.not_isSome_iff_eq_none.mp hname.2) t

theorem spells_compound {room : Nat} (ih : SpellsTags (Grammar.payload room) room) :
    Spells (Grammar.payload (room + 1) .compound) fun t front =>
      front = t.spelling ∧ t.Writable (room + 1) .compound := by
  have hentries : Spells (Grammar.compound (Grammar.payload room)) fun entries front =>
      front = spellingEntries entries ∧ (∀ e ∈ entries, WritableChild room e) ∧
        (entries.map Prod.fst).Nodup := by
    intro bytes entries rest hparse
    obtain ⟨later, rfl, rfl, hlater, hnodup⟩ := spelling_of_children ih hparse
    exact ⟨_, rfl, rfl, hlater, hnodup List.nodup_nil⟩
  refine hentries.map fun entries front h => ?_
  obtain ⟨rfl, hentry, hnodup⟩ := h
  refine ⟨by rw [Tag.spelling], rfl, .node ⟨hnodup, fun e he => ?_⟩ fun t ht => ?_,
    .node (fun e he => (hentry e he).name_fits) fun t ht => ?_, ?_⟩
  · exact ⟨(hentry e he).name_ne, (hentry e he).kind_ne⟩
  · obtain ⟨e, he, rfl⟩ := List.mem_map.mp ht
    exact (hentry e he).writable.legal
  · obtain ⟨e, he, rfl⟩ := List.mem_map.mp ht
    exact (hentry e he).writable.fits
  · exact Nat.succ_le_succ (depthEntries_le fun e he => (hentry e he).writable.depth_le)

theorem spells_scalar {kind : TagKind} (hlist : kind ≠ .list) (hcompound : kind ≠ .compound)
    (room : Nat) :
    Spells (Grammar.payload room kind) fun t front => front = t.spelling ∧ t.Writable room kind := by
  have hform : Spells (Grammar.payload room kind) fun t front =>
      t.kind = kind ∧ front = t.form ∧ t.Fits := by
    unfold Grammar.payload
    cases kind with
    | endMark => exact spells_pure ⟨rfl, rfl, trivial⟩
    | byte => exact (spells_value Int8.ofNat fun _ => rfl).map fun _ _ h => ⟨rfl, h, trivial⟩
    | short => exact (spells_value Int16.ofNat fun _ => rfl).map fun _ _ h => ⟨rfl, h, trivial⟩
    | int => exact (spells_value Int32.ofNat fun _ => rfl).map fun _ _ h => ⟨rfl, h, trivial⟩
    | long => exact (spells_value Int64.ofNat fun _ => rfl).map fun _ _ h => ⟨rfl, h, trivial⟩
    | float =>
      exact (spells_value (fun n => Float32Bits.mk (UInt32.ofNat n)) fun _ => rfl).map
        fun _ _ h => ⟨rfl, h, trivial⟩
    | double =>
      exact (spells_value (fun n => Float64Bits.mk (UInt64.ofNat n)) fun _ => rfl).map
        fun _ _ h => ⟨rfl, h, trivial⟩
    | byteArray => exact (spells_array Int8.ofNat fun _ => rfl).map fun _ _ h => ⟨rfl, h⟩
    | string => exact spells_text.map fun _ _ h => ⟨rfl, h⟩
    | list => exact absurd rfl hlist
    | compound => exact absurd rfl hcompound
    | intArray => exact (spells_array Int32.ofNat fun _ => rfl).map fun _ _ h => ⟨rfl, h⟩
    | longArray => exact (spells_array Int64.ofNat fun _ => rfl).map fun _ _ h => ⟨rfl, h⟩
  refine hform.mono fun t front h => ?_
  obtain ⟨rfl, rfl, hfits⟩ := h
  exact writable_scalar hlist hcompound hfits room

/-- Whatever the grammar takes for a tree is the spelling of the tree, and the tree is writable with
the room that it was read with: by induction on the room. -/
theorem spells_payload (room : Nat) : SpellsTags (Grammar.payload room) room := by
  induction room with
  | zero =>
    intro kind
    by_cases hlist : kind = .list
    · subst hlist
      exact spells_fail _
    by_cases hcompound : kind = .compound
    · subst hcompound
      exact spells_fail _
    exact spells_scalar hlist hcompound 0
  | succ room ih =>
    intro kind
    by_cases hlist : kind = .list
    · subst hlist
      exact spells_list ih
    by_cases hcompound : kind = .compound
    · subst hcompound
      exact spells_compound ih
    exact spells_scalar hlist hcompound (room + 1)

/-! ### Roots -/

/-- The named form of a root that declares the kind of every list. -/
def Root.spelling (root : Root) : Bytes :=
  if root.tag.kind = .endMark then [TagKind.endMark.id]
  else root.tag.kind.id :: textForm (root.name.getD "") ++ root.tag.spelling

/-- A root that can be written and whose name is as the named form tells it. -/
structure Root.Writable (root : Root) : Prop where
  tag : root.tag.Writable maxDepth root.tag.kind
  name_fits : (root.name.getD "").utf8ByteSize ≤ maxTextBytes
  normal_eq : root.normal .named = ⟨root.name, root.tag.normal⟩

theorem spells_rootName : Spells (Grammar.rootName .named) fun name front =>
    front = textForm (name.getD "") ∧ (name.getD "").utf8ByteSize ≤ maxTextBytes ∧
      name.filter (fun name => !name.isEmpty) = name := by
  refine spells_text.map fun name front h => ?_
  obtain ⟨rfl, hsize⟩ := h
  by_cases hempty : name.isEmpty
  · rw [if_pos hempty]
    obtain rfl := String.isEmpty_iff.mp hempty
    exact ⟨rfl, hsize, rfl⟩
  · rw [if_neg hempty]
    exact ⟨rfl, hsize, by simp [Option.filter, hempty]⟩

theorem spells_root : Spells (Grammar.root .named) fun root front =>
    front = root.spelling ∧ root.Writable := by
  refine spells_kind.bind fun kind front hkind => ?_
  obtain rfl := hkind
  by_cases hend : kind = .endMark
  · rw [if_pos hend]
    have hwritable : endMark.Writable maxDepth .endMark :=
      (writable_scalar (t := endMark) (by decide) (by decide) trivial maxDepth).2
    exact spells_pure ⟨by rw [hend]; rfl, hwritable, Nat.zero_le _, rfl⟩
  · rw [if_neg hend]
    refine spells_rootName.bind fun name front hname =>
      (spells_payload maxDepth kind).map fun t back ht => ?_
    obtain ⟨rfl, hsize, hfilter⟩ := hname
    obtain ⟨rfl, hwritable⟩ := ht
    obtain rfl := hwritable.kind_eq
    refine ⟨?_, hwritable, hsize, ?_⟩
    · rw [Root.spelling, if_neg hend]
      rfl
    · simp only [Root.normal, if_neg hend, hfilter]

/-- The reader accepts exactly what the grammar parses to its end. -/
theorem ofBytes_eq_ok_iff {bytes : Bytes} {root : Root} :
    Root.ofBytes bytes = .ok root ↔ (Grammar.root .named).parse bytes = .ok (root, []) := by
  have hverdict : (Read.root .named).verdict (.ofBytes bytes) = (Grammar.root .named).parse bytes :=
    (Read.realizes_root .named).verdict rfl
  rw [← hverdict, Root.ofBytes, Reader.run, Reader.verdict]
  rcases Read.root .named (.ofBytes bytes) with ⟨fault | read, s⟩
  · simp
  · cases h : s.pending <;> simp [h]

end MinecraftWire.Nbt
