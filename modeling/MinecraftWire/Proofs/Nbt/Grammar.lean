import MinecraftWire.Nbt.Reader

/-! The grammar of binary NBT, as a recursive descent over byte strings. A list or compound calls the
parser of its children with room for one container less. Nothing here knows of channels, of open
containers or of a stack. -/

namespace MinecraftWire.Nbt

/-- Reads a value from the front of a byte string and leaves what follows, or fails with a kind of
fault. It never leaves more than it was given. -/
structure Parser (α : Type) where
  parse : Bytes → Except Fault.Kind (α × Bytes)
  shrinks {bytes rest : Bytes} {a : α} : parse bytes = .ok (a, rest) → rest.length ≤ bytes.length

namespace Parser

variable {α β : Type}

protected def pure (a : α) : Parser α where
  parse bytes := .ok (a, bytes)
  shrinks h := by
    obtain ⟨-, rfl⟩ := Prod.mk.inj (Except.ok.inj h)
    exact Nat.le_refl _

protected def bind (p : Parser α) (f : α → Parser β) : Parser β where
  parse bytes :=
    match p.parse bytes with
    | .error kind => .error kind
    | .ok (a, rest) => (f a).parse rest
  shrinks h := by
    split at h
    · contradiction
    · rename_i hp
      exact Nat.le_trans ((f _).shrinks h) (p.shrinks hp)

instance : Monad Parser where
  pure := Parser.pure
  bind := Parser.bind

def fail (kind : Fault.Kind) : Parser α where
  parse _ := .error kind
  shrinks h := by contradiction

/-- The next `n` bytes. -/
def bytes (n : Nat) : Parser Bytes where
  parse bytes := if bytes.length < n then .error .unexpectedEnd else .ok (bytes.splitAt n)
  shrinks h := by
    split at h
    · contradiction
    · rw [List.splitAt_eq] at h
      obtain ⟨-, rfl⟩ := Prod.mk.inj (Except.ok.inj h)
      rw [List.length_drop]
      exact Nat.sub_le _ _

/-- The number that the next `size` bytes are. -/
def number (size : Nat) : Parser Nat :=
  return Bytes.toNat (← bytes size)

def times (n : Nat) (p : Parser α) : Parser (List α) :=
  match n with
  | 0 => return []
  | n + 1 => do
    let a ← p
    let as ← times n p
    return a :: as

theorem parse_bind_ok {p : Parser α} {f : α → Parser β} {bytes rest : Bytes} {a : α}
    (h : p.parse bytes = .ok (a, rest)) : (p >>= f).parse bytes = (f a).parse rest := by
  show (Parser.bind p f).parse bytes = _
  simp only [Parser.bind, h]

theorem parse_bind_error {p : Parser α} {f : α → Parser β} {bytes : Bytes} {kind : Fault.Kind}
    (h : p.parse bytes = .error kind) : (p >>= f).parse bytes = .error kind := by
  show (Parser.bind p f).parse bytes = _
  simp only [Parser.bind, h]

theorem of_parse_bind {p : Parser α} {f : α → Parser β} {bytes rest : Bytes} {b : β}
    (h : (p >>= f).parse bytes = .ok (b, rest)) :
    ∃ a middle, p.parse bytes = .ok (a, middle) ∧ (f a).parse middle = .ok (b, rest) := by
  rcases hp : p.parse bytes with kind | ⟨a, middle⟩
  · rw [parse_bind_error hp] at h
    contradiction
  · rw [parse_bind_ok hp] at h
    exact ⟨a, middle, rfl, h⟩

theorem parse_bind_assoc {γ : Type} (p : Parser α) (f : α → Parser β) (g : β → Parser γ)
    (bytes : Bytes) : ((p >>= f) >>= g).parse bytes = (p >>= fun a => f a >>= g).parse bytes := by
  rcases hp : p.parse bytes with kind | ⟨a, middle⟩
  · rw [parse_bind_error hp, parse_bind_error (parse_bind_error hp)]
  · rw [parse_bind_ok hp]
    show (Parser.bind (Parser.bind p f) g).parse bytes = (Parser.bind (f a) g).parse middle
    simp only [Parser.bind, hp]

theorem of_parse_map {p : Parser α} {f : α → β} {bytes rest : Bytes} {b : β}
    (h : (do return f (← p) : Parser β).parse bytes = .ok (b, rest)) : ∃ a, b = f a := by
  obtain ⟨a, _, -, hb⟩ := of_parse_bind h
  obtain ⟨rfl, -⟩ := Prod.mk.inj (Except.ok.inj hb)
  exact ⟨a, rfl⟩

theorem parse_bytes_of_le {n : Nat} {bytes : Bytes} (h : n ≤ bytes.length) :
    (Parser.bytes n).parse bytes = .ok (bytes.take n, bytes.drop n) := by
  simp [Parser.bytes, Nat.not_lt.mpr h]

theorem parse_bytes_of_lt {n : Nat} {bytes : Bytes} (h : bytes.length < n) :
    (Parser.bytes n).parse bytes = .error .unexpectedEnd :=
  if_pos h

theorem length_of_bytes {n : Nat} {front bytes rest : Bytes}
    (h : (Parser.bytes n).parse bytes = .ok (front, rest)) :
    front.length = n ∧ rest.length + n = bytes.length := by
  simp only [Parser.bytes] at h
  split at h
  · contradiction
  · rw [List.splitAt_eq] at h
    obtain ⟨rfl, rfl⟩ := Prod.mk.inj (Except.ok.inj h)
    rw [List.length_take, List.length_drop]
    omega

end Parser

namespace Grammar

open MinecraftWire.Nbt.Parser

/-! ### Parts -/

/-- A type byte. -/
def kind : Parser TagKind := do
  match TagKind.all[← number 1]? with
  | some kind => return kind
  | none => fail .format

/-- The length of an array, list, text or name, in two's complement. -/
def length (size : Nat) : Parser Nat := do
  let n ← number size
  if n < 2 ^ (8 * size - 1) then return n else fail .format

/-- A text or name. -/
def text : Parser String := do
  let bytes ← bytes (← length 2)
  match String.fromUTF8? bytes.toByteArray with
  | some s => return s
  | none => fail .format

/-- A value of `size` bytes. -/
def value {α : Type} (size : Nat) (ofNat : Nat → α) : Parser α :=
  return ofNat (← number size)

def array {α : Type} (size : Nat) (ofNat : Nat → α) : Parser (List α) := do
  times (← length 4) (value size ofNat)

theorem parse_value_of_le {α : Type} {size : Nat} (ofNat : Nat → α) {bytes : Bytes}
    (h : size ≤ bytes.length) : (value size ofNat).parse bytes =
      .ok (ofNat (Bytes.toNat (bytes.take size)), bytes.drop size) := by
  rw [value, number, parse_bind_assoc, parse_bind_ok (parse_bytes_of_le h)]
  rfl

theorem parse_value_of_lt {α : Type} {size : Nat} (ofNat : Nat → α) {bytes : Bytes}
    (h : bytes.length < size) : (value size ofNat).parse bytes = .error .unexpectedEnd := by
  rw [value, number, parse_bind_assoc, parse_bind_error (parse_bytes_of_lt h)]

theorem parse_times_value_of_lt {α : Type} {size n : Nat} (ofNat : Nat → α) {bytes : Bytes}
    (h : bytes.length < size * n) :
    (times n (value size ofNat)).parse bytes = .error .unexpectedEnd := by
  induction n generalizing bytes with
  | zero => exact absurd h (Nat.not_lt_zero _)
  | succ n ih =>
    rw [Nat.mul_succ] at h
    rcases Nat.lt_or_ge bytes.length size with hlt | hle
    · exact parse_bind_error (parse_value_of_lt ofNat hlt)
    · have hrest : (bytes.drop size).length < size * n := by
        rw [List.length_drop]
        omega
      exact (parse_bind_ok (parse_value_of_le ofNat hle)).trans (parse_bind_error (ih hrest))

def listHeading : Parser (TagKind × Nat) := do
  let element ← kind
  let n ← length 4
  if element = .endMark ∧ 0 < n then fail .format else return (element, n)

theorem of_listHeading {bytes rest : Bytes} {element : TagKind} {n : Nat}
    (h : listHeading.parse bytes = .ok ((element, n), rest)) (hend : element = .endMark) : n = 0 := by
  obtain ⟨element', _, -, h⟩ := of_parse_bind h
  obtain ⟨n', _, -, h⟩ := of_parse_bind h
  by_cases hcount : element' = .endMark ∧ 0 < n'
  · rw [if_pos hcount] at h
    contradiction
  · rw [if_neg hcount] at h
    obtain ⟨hpair, -⟩ := Prod.mk.inj (Except.ok.inj h)
    obtain ⟨rfl, rfl⟩ := Prod.mk.inj hpair
    exact Nat.eq_zero_of_not_pos fun hn => hcount ⟨hend, hn⟩

/-- The kind and name of a child, or the end of the compound. -/
def childHeading : Parser (Option (TagKind × String)) := do
  let kind ← kind
  if kind = .endMark then return none else return some (kind, ← text)

theorem childHeading_consumes {bytes rest : Bytes} {child : Option (TagKind × String)}
    (h : childHeading.parse bytes = .ok (child, rest)) : rest.length < bytes.length := by
  obtain ⟨_, middle, hkind, hrest⟩ := of_parse_bind h
  obtain ⟨n, middle', hnumber, hkind⟩ := of_parse_bind hkind
  obtain ⟨_, _, hbytes, hn⟩ := of_parse_bind hnumber
  have := (length_of_bytes hbytes).2
  have := (pure _ : Parser Nat).shrinks hn
  have := Parser.shrinks _ hkind
  have := Parser.shrinks _ hrest
  omega

theorem kind_of_childHeading {bytes rest : Bytes} {kind : TagKind} {name : String}
    (h : childHeading.parse bytes = .ok (some (kind, name), rest)) : kind ≠ .endMark := by
  obtain ⟨kind', middle, -, h⟩ := of_parse_bind h
  by_cases hkind : kind' = .endMark
  · rw [if_pos hkind] at h
    obtain ⟨hnone, -⟩ := Prod.mk.inj (Except.ok.inj h)
    contradiction
  · rw [if_neg hkind] at h
    obtain ⟨_, hchild⟩ := of_parse_map h
    obtain ⟨rfl, -⟩ := Prod.mk.inj (Option.some.inj hchild)
    exact hkind

/-- The children of a compound up to its end; `entries` are those before. A child counts when it is
complete: its name must be there and be new. -/
def children (child : TagKind → Parser Tag) (entries : List (String × Tag)) (bytes : Bytes) :
    Except Fault.Kind (List (String × Tag) × Bytes) :=
  match _h : childHeading.parse bytes with
  | .error fault => .error fault
  | .ok (none, rest) => .ok (entries, rest)
  | .ok (some (kind, name), rest) =>
    match _h' : (child kind).parse rest with
    | .error fault => .error fault
    | .ok (t, rest') =>
      if name.isEmpty ∨ (entries.lookup name).isSome then .error .structural
      else children child (entries ++ [(name, t)]) rest'
termination_by bytes.length
decreasing_by exact Nat.lt_of_le_of_lt ((child kind).shrinks _h') (childHeading_consumes _h)

theorem children_of_end {child : TagKind → Parser Tag} {entries : List (String × Tag)}
    {bytes rest : Bytes} (h : childHeading.parse bytes = .ok (none, rest)) :
    children child entries bytes = .ok (entries, rest) := by
  rw [children]
  split <;> rename_i h' <;> rw [h] at h' <;> cases h'
  rfl

theorem children_of_child {child : TagKind → Parser Tag} {entries : List (String × Tag)}
    {bytes middle rest : Bytes} {kind : TagKind} {name : String} {t : Tag}
    (h : childHeading.parse bytes = .ok (some (kind, name), middle))
    (ht : (child kind).parse middle = .ok (t, rest))
    (hname : ¬ (name.isEmpty ∨ (entries.lookup name).isSome)) :
    children child entries bytes = children child (entries ++ [(name, t)]) rest := by
  rw [children]
  split <;> rename_i h' <;> rw [h] at h' <;> cases h'
  split <;> rename_i ht' <;> rw [ht] at ht' <;> cases ht'
  rw [if_neg hname]

theorem children_shrinks {child : TagKind → Parser Tag} {entries all : List (String × Tag)}
    {bytes rest : Bytes} (h : children child entries bytes = .ok (all, rest)) :
    rest.length ≤ bytes.length := by
  fun_induction children child entries bytes with
  | case1 => contradiction
  | case2 entries bytes left hheading =>
    obtain ⟨-, rfl⟩ := Prod.mk.inj (Except.ok.inj h)
    exact Nat.le_of_lt (childHeading_consumes hheading)
  | case3 => contradiction
  | case4 => contradiction
  | case5 entries bytes kind name left hheading t left' hchild _ ih =>
    have := ih h
    have := (child kind).shrinks hchild
    have := childHeading_consumes hheading
    omega

def compound (child : TagKind → Parser Tag) : Parser (List (String × Tag)) where
  parse := children child []
  shrinks := children_shrinks

/-! ### Payloads and roots -/

/-- The payload of a tag, where at most `room` containers may be open at once. -/
def payload (room : Nat) (kind : TagKind) : Parser Tag :=
  match room, kind with
  | _, .endMark => return .endMark
  | _, .byte => return .byte (← value 1 Int8.ofNat)
  | _, .short => return .short (← value 2 Int16.ofNat)
  | _, .int => return .int (← value 4 Int32.ofNat)
  | _, .long => return .long (← value 8 Int64.ofNat)
  | _, .float => return .float (← value 4 fun n => ⟨UInt32.ofNat n⟩)
  | _, .double => return .double (← value 8 fun n => ⟨UInt64.ofNat n⟩)
  | _, .byteArray => return .byteArray (← array 1 Int8.ofNat)
  | _, .string => return .string (← text)
  | _, .intArray => return .intArray (← array 4 Int32.ofNat)
  | _, .longArray => return .longArray (← array 8 Int64.ofNat)
  | 0, .list => fail .format
  | 0, .compound => fail .format
  | room + 1, .list => do
    let (element, n) ← listHeading
    return .list element (← times n (payload room element))
  | room + 1, .compound => return .compound (← compound (payload room))

theorem kind_of_payload {room : Nat} {kind : TagKind} {t : Tag} {bytes rest : Bytes}
    (h : (payload room kind).parse bytes = .ok (t, rest)) : t.kind = kind := by
  unfold payload at h
  cases kind with
  | endMark =>
    obtain ⟨rfl, -⟩ := Prod.mk.inj (Except.ok.inj h)
    rfl
  | list =>
    cases room with
    | zero => contradiction
    | succ room =>
      obtain ⟨_, _, -, h⟩ := of_parse_bind h
      obtain ⟨_, rfl⟩ := of_parse_map h
      rfl
  | compound =>
    cases room with
    | zero => contradiction
    | succ room =>
      obtain ⟨_, rfl⟩ := of_parse_map h
      rfl
  | _ =>
    obtain ⟨_, rfl⟩ := of_parse_map h
    rfl

/-- The name of a root, if its header has one. An empty name is none. -/
def rootName : Header → Parser (Option String)
  | .named => do
    let name ← text
    return if name.isEmpty then none else some name
  | .unnamed => return none

/-- A root tag: its kind, its name and its payload. An end mark stands alone. -/
def root (header : Header) : Parser Root := do
  let kind ← kind
  if kind = .endMark then return ⟨none, .endMark⟩
  else
    let name ← rootName header
    return ⟨name, ← payload maxDepth kind⟩

end Grammar

end MinecraftWire.Nbt
