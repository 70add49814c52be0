import MinecraftWire.Proofs.Nbt.Spelling

/-! A document that is cut off is always known to be. Each parser of the grammar takes a code off the
front of a byte string: with any bytes behind the code it gives the same value, and of a part of the
code that is not all of it it can only say that bytes are missing. Codes in a row make up a code, so
this goes from the parts of the grammar to whole documents. -/

namespace MinecraftWire.Nbt

/-! ### Codes -/

/-- The parser takes `front` for `a`, whatever follows, and knows when a part of it is missing. -/
structure Parser.Codes {α : Type} (p : Parser α) (a : α) (front : Bytes) : Prop where
  parse (rest : Bytes) : p.parse (front ++ rest) = .ok (a, rest)
  cut : ∀ cut, cut <+: front → cut ≠ front → p.parse cut = .error .unexpectedEnd

/-- Every success comes from a code. -/
def PrefixFree {α : Type} (p : Parser α) : Prop :=
  Spells p p.Codes

section

variable {α β : Type} {p q : Parser α} {f : α → Parser β} {a : α} {b : β} {front back : Bytes}

namespace Parser

theorem codes_pure (a : α) : (pure a : Parser α).Codes a [] :=
  ⟨fun _ => rfl, fun _ hcut hne => absurd (List.prefix_nil.mp hcut) hne⟩

theorem codes_bytes (front : Bytes) : (bytes front.length).Codes front front where
  parse rest := by
    rw [parse_bytes_of_le (by simp)]
    simp
  cut cut hcut hne := by
    have hle := hcut.length_le
    have hlength : cut.length ≠ front.length := fun h => hne (hcut.eq_of_length h)
    exact parse_bytes_of_lt (by omega)

theorem Codes.congr (h : q.Codes a front) (hpq : ∀ bytes, p.parse bytes = q.parse bytes) :
    p.Codes a front :=
  ⟨fun rest => (hpq _).trans (h.parse rest),
    fun cut hcut hne => (hpq _).trans (h.cut cut hcut hne)⟩

/-- What is cut off two codes in a row is cut off the first, or off the second behind the first. -/
theorem Codes.bind (hp : p.Codes a front) (hf : (f a).Codes b back) :
    (p >>= f).Codes b (front ++ back) where
  parse rest := by
    rw [List.append_assoc, parse_bind_ok (hp.parse (back ++ rest))]
    exact hf.parse rest
  cut cut hcut hne := by
    rcases List.prefix_or_prefix_of_prefix hcut (List.prefix_append front back) with hfront | hfront
    · by_cases hall : cut = front
      · subst hall
        have hparse := hp.parse []
        rw [List.append_nil] at hparse
        rw [parse_bind_ok hparse]
        exact hf.cut [] List.nil_prefix fun hback => hne (by rw [← hback, List.append_nil])
      · exact parse_bind_error (hp.cut cut hfront hall)
    · obtain ⟨rest, rfl⟩ := hfront
      rw [parse_bind_ok (hp.parse rest)]
      exact hf.cut rest ((List.prefix_append_right_inj front).mp hcut) fun h => hne (by rw [h])

end Parser

open MinecraftWire.Nbt.Parser

theorem prefixFree_pure (a : α) : PrefixFree (pure a : Parser α) :=
  spells_pure (codes_pure a)

theorem prefixFree_fail (kind : Fault.Kind) : PrefixFree (Parser.fail kind : Parser α) :=
  spells_fail kind

theorem prefixFree_bytes (n : Nat) : PrefixFree (Parser.bytes n) := by
  refine (spells_bytes n).mono fun bytes front h => ?_
  obtain ⟨rfl, rfl⟩ := h
  exact codes_bytes front

theorem PrefixFree.bind (hp : PrefixFree p) (hf : ∀ a, PrefixFree (f a)) : PrefixFree (p >>= f) :=
  Spells.bind hp fun a _ ha => (hf a).mono fun _ _ hb => ha.bind hb

theorem PrefixFree.map (hp : PrefixFree p) (g : α → β) : PrefixFree (do return g (← p)) :=
  hp.bind fun a => prefixFree_pure (g a)

theorem PrefixFree.ite {c : Prop} [Decidable c] (hp : PrefixFree p) (hq : PrefixFree q) :
    PrefixFree (if c then p else q) := by
  split
  · exact hp
  · exact hq

theorem PrefixFree.times (hp : PrefixFree p) (n : Nat) : PrefixFree (Parser.times n p) := by
  induction n with
  | zero => exact prefixFree_pure []
  | succ n ih => exact hp.bind fun a => ih.map fun as => a :: as

end

/-! ### Parts -/

theorem prefixFree_number (size : Nat) : PrefixFree (Parser.number size) :=
  (prefixFree_bytes size).map Bytes.toNat

theorem prefixFree_kind : PrefixFree Grammar.kind := by
  refine (prefixFree_number 1).bind fun n => ?_
  cases TagKind.all[n]? with
  | none => exact prefixFree_fail _
  | some kind => exact prefixFree_pure kind

theorem prefixFree_length (size : Nat) : PrefixFree (Grammar.length size) :=
  (prefixFree_number size).bind fun n => (prefixFree_pure n).ite (prefixFree_fail _)

theorem prefixFree_text : PrefixFree Grammar.text := by
  refine (prefixFree_length 2).bind fun n => (prefixFree_bytes n).bind fun bytes => ?_
  cases String.fromUTF8? bytes.toByteArray with
  | none => exact prefixFree_fail _
  | some s => exact prefixFree_pure s

theorem prefixFree_value {α : Type} (size : Nat) (ofNat : Nat → α) :
    PrefixFree (Grammar.value size ofNat) :=
  (prefixFree_number size).map ofNat

theorem prefixFree_array {α : Type} (size : Nat) (ofNat : Nat → α) :
    PrefixFree (Grammar.array size ofNat) :=
  (prefixFree_length 4).bind fun n => (prefixFree_value size ofNat).times n

theorem prefixFree_listHeading : PrefixFree Grammar.listHeading :=
  prefixFree_kind.bind fun element => (prefixFree_length 4).bind fun n =>
    (prefixFree_fail _).ite (prefixFree_pure (element, n))

theorem prefixFree_childHeading : PrefixFree Grammar.childHeading :=
  prefixFree_kind.bind fun kind =>
    (prefixFree_pure none).ite (prefixFree_text.map fun name => some (kind, name))

/-! ### Trees -/

namespace Grammar

open MinecraftWire.Nbt.Parser

/-- The children that follow those in `earlier`, up to the end of their compound. -/
def more (child : TagKind → Parser Tag) (earlier : List (String × Tag)) :
    Parser (List (String × Tag)) where
  parse := children child earlier
  shrinks := children_shrinks

/-- What is behind the heading of a child, or behind the end. -/
def behindHeading (child : TagKind → Parser Tag) (earlier : List (String × Tag)) :
    Option (TagKind × String) → Parser (List (String × Tag))
  | none => pure earlier
  | some (kind, name) => do
    let t ← child kind
    if name.isEmpty ∨ (earlier.lookup name).isSome then fail .structural
    else more child (earlier ++ [(name, t)])

theorem parse_more (child : TagKind → Parser Tag) (earlier : List (String × Tag)) (bytes : Bytes) :
    (more child earlier).parse bytes = (childHeading >>= behindHeading child earlier).parse bytes := by
  change children child earlier bytes = _
  rw [children]
  split
  · rename_i h
    rw [parse_bind_error h]
  · rename_i h
    rw [parse_bind_ok h]
    rfl
  · rename_i h
    rw [parse_bind_ok h, behindHeading]
    split
    · rename_i ht
      rw [parse_bind_error ht]
    · rename_i ht
      rw [parse_bind_ok ht]
      split <;> rfl

end Grammar

open Grammar MinecraftWire.Nbt.Parser

/-- The code of the children is made up of those of their headings and payloads: by induction on the
children as they are read. -/
theorem prefixFree_more {child : TagKind → Parser Tag} (hchild : ∀ kind, PrefixFree (child kind))
    (earlier : List (String × Tag)) : PrefixFree (more child earlier) := by
  intro bytes all rest h
  replace h : children child earlier bytes = .ok (all, rest) := h
  fun_induction Grammar.children child earlier bytes with
  | case1 => contradiction
  | case2 earlier bytes left hheading =>
    obtain ⟨rfl, rfl⟩ := Prod.mk.inj (Except.ok.inj h)
    obtain ⟨front, rfl, hcodes⟩ := prefixFree_childHeading _ _ _ hheading
    have hend : (behindHeading child earlier none).Codes earlier [] := codes_pure earlier
    have hall := (hcodes.bind hend).congr (parse_more child earlier)
    rw [List.append_nil] at hall
    exact ⟨front, rfl, hall⟩
  | case3 => contradiction
  | case4 => contradiction
  | case5 earlier bytes kind name left hheading t left' ht hname ih =>
    obtain ⟨front, rfl, hcodes⟩ := prefixFree_childHeading _ _ _ hheading
    obtain ⟨middle, rfl, hpayload⟩ := hchild kind _ _ _ ht
    obtain ⟨back, rfl, hlater⟩ := ih h
    have hbehind : (behindHeading child earlier (some (kind, name))).Codes all (middle ++ back) := by
      refine hpayload.bind ?_
      rw [if_neg hname]
      exact hlater
    refine ⟨front ++ (middle ++ back), ?_, (hcodes.bind hbehind).congr (parse_more child earlier)⟩
    simp only [List.append_assoc]

theorem prefixFree_scalar {kind : TagKind} (hlist : kind ≠ .list) (hcompound : kind ≠ .compound)
    (room : Nat) : PrefixFree (Grammar.payload room kind) := by
  unfold Grammar.payload
  cases kind with
  | endMark => exact prefixFree_pure Tag.endMark
  | byte => exact (prefixFree_value 1 Int8.ofNat).map Tag.byte
  | short => exact (prefixFree_value 2 Int16.ofNat).map Tag.short
  | int => exact (prefixFree_value 4 Int32.ofNat).map Tag.int
  | long => exact (prefixFree_value 8 Int64.ofNat).map Tag.long
  | float => exact (prefixFree_value 4 fun n => Float32Bits.mk (UInt32.ofNat n)).map Tag.float
  | double => exact (prefixFree_value 8 fun n => Float64Bits.mk (UInt64.ofNat n)).map Tag.double
  | byteArray => exact (prefixFree_array 1 Int8.ofNat).map Tag.byteArray
  | string => exact prefixFree_text.map Tag.string
  | list => exact absurd rfl hlist
  | compound => exact absurd rfl hcompound
  | intArray => exact (prefixFree_array 4 Int32.ofNat).map Tag.intArray
  | longArray => exact (prefixFree_array 8 Int64.ofNat).map Tag.longArray

theorem prefixFree_payload (room : Nat) (kind : TagKind) : PrefixFree (Grammar.payload room kind) := by
  induction room generalizing kind with
  | zero =>
    by_cases hlist : kind = .list
    · subst hlist
      exact prefixFree_fail _
    by_cases hcompound : kind = .compound
    · subst hcompound
      exact prefixFree_fail _
    exact prefixFree_scalar hlist hcompound 0
  | succ room ih =>
    by_cases hlist : kind = .list
    · subst hlist
      exact prefixFree_listHeading.bind fun heading =>
        ((ih heading.1).times heading.2).map fun items => Tag.list heading.1 items
    by_cases hcompound : kind = .compound
    · subst hcompound
      exact (prefixFree_more ih []).map Tag.compound
    exact prefixFree_scalar hlist hcompound (room + 1)

/-! ### Roots -/

theorem prefixFree_root (header : Header) : PrefixFree (Grammar.root header) := by
  refine prefixFree_kind.bind fun kind => (prefixFree_pure _).ite ?_
  have hname : PrefixFree (Grammar.rootName header) := by
    cases header with
    | named => exact prefixFree_text.map fun name => if name.isEmpty then none else some name
    | unnamed => exact prefixFree_pure none
  exact hname.bind fun name => (prefixFree_payload maxDepth kind).map (Root.mk name)

/-- A fault of this kind is that of a channel that has come to its end. -/
theorem exists_unexpectedEnd {fault : Fault} (h : fault.kind = .unexpectedEnd) :
    ∃ expected got, fault = .unexpectedEnd expected got := by
  cases fault with
  | unexpectedEnd expected got => exact ⟨expected, got, rfl⟩
  | _ => contradiction

/-- Where the grammar fails, a document is refused with a fault of the same kind. -/
theorem ofBytes_of_parse_error {bytes : Bytes} {kind : Fault.Kind}
    (h : (Grammar.root .named).parse bytes = .error kind) :
    ∃ fault, Root.ofBytes bytes = .error fault ∧ fault.kind = kind := by
  have hverdict : (Read.root .named).verdict (.ofBytes bytes) = .error kind :=
    ((Read.realizes_root .named).verdict rfl).trans h
  rcases hread : Read.root .named (.ofBytes bytes) with ⟨fault | root, s⟩ <;>
    rw [Reader.verdict, hread] at hverdict
  · exact ⟨fault, by rw [Root.ofBytes, Reader.run, hread], Except.error.inj hverdict⟩
  · contradiction

/-- Of a document every first part that is not all of it comes to an end too early, and no other fault
is found in it; with bytes behind it is refused for them alone; and from every channel the reader
takes the document off and leaves exactly what follows. -/
theorem ofBytes_prefixFree {bytes : Bytes} {root : Root} (h : Root.ofBytes bytes = .ok root) :
    (∀ cut, cut <+: bytes → cut ≠ bytes →
      ∃ expected got, Root.ofBytes cut = .error (.unexpectedEnd expected got)) ∧
    (∀ rest, rest ≠ [] →
      Root.ofBytes (bytes ++ rest) = .error (.format (.nbt (.trailing rest.length)))) ∧
    ∀ rest, (Read.root .named).Takes bytes rest root := by
  obtain ⟨front, hfront, hcodes⟩ := prefixFree_root .named _ _ _ (ofBytes_eq_ok_iff.mp h)
  rw [List.append_nil] at hfront
  subst hfront
  have htakes (rest : Bytes) : (Read.root .named).Takes bytes rest root :=
    (Read.realizes_root .named).takes (hcodes.parse rest)
  refine ⟨fun cut hcut hne => ?_, fun rest hrest => ?_, htakes⟩
  · obtain ⟨fault, hfault, hkind⟩ := ofBytes_of_parse_error (hcodes.cut cut hcut hne)
    obtain ⟨expected, got, rfl⟩ := exists_unexpectedEnd hkind
    exact ⟨expected, got, hfault⟩
  · rw [ofBytes_of_takes (htakes rest), if_neg hrest]

/-- A document of a compound over a list, cut off inside the element of the list. -/
theorem ofBytes_prefixFree_inside_list :
    let root : Root := ⟨some "r", .compound [("n", .list .int [.int 7])]⟩
    let front : Bytes := [10, 0, 1, 114, 9, 0, 1, 110, 3, 0, 0, 0, 1, 0, 0]
    let back : Bytes := [0, 7, 0]
    Root.ofBytes (front ++ back) = .ok root ∧
      (∃ expected got, Root.ofBytes front = .error (.unexpectedEnd expected got)) ∧
      Root.ofBytes (front ++ back ++ [7]) = .error (.format (.nbt (.trailing 1))) ∧
      (Read.root .named).Takes (front ++ back) [7] root := by
  intro root front back
  have hform : root.form .named = front ++ back := by decide +kernel
  have h : Root.ofBytes (front ++ back) = .ok root := by
    rw [← hform]
    exact ofBytes_form (by decide +kernel) (by decide) (by decide) (by decide +kernel)
  obtain ⟨hcut, htrailing, htakes⟩ := ofBytes_prefixFree h
  exact ⟨h, hcut front (List.prefix_append front back) (by decide), htrailing [7] (by decide),
    htakes [7]⟩

end MinecraftWire.Nbt
