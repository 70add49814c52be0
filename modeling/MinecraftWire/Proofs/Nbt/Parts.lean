import MinecraftWire.Proofs.Nbt.Grammar
import MinecraftWire.Proofs.Text.Field

/-! The parts of the NBT reader do what the grammar says. `Realizes` ties a reader on channels to a
parser of byte strings: from every channel that does not fail the two give the same value and leave
the same bytes, or fail with the same kind of fault. -/

namespace MinecraftWire

/-- What a reader makes of a channel: a value and the bytes left, or the kind of the fault. -/
def Reader.verdict {α : Type} (r : Reader α) (s : Source) : Except Fault.Kind (α × Bytes) :=
  match r s with
  | (.ok a, s') => .ok (a, s'.pending)
  | (.error fault, _) => .error fault.kind

namespace Nbt

variable {α β γ : Type} {next : α → Source → Except Fault β × Source}
  {next' : γ → Source → Except Fault β × Source} {result : Except Fault β × Source}
  {r : Reader α} {p : Parser α}

/-! ### Readers and parsers -/

/-- Where a parser gives a value and leaves some bytes, the result is what `next` makes of the value
and a channel that holds the bytes left; where it fails, the result is a fault of the same kind. -/
inductive Follows (next : α → Source → Except Fault β × Source) :
    Except Fault.Kind (α × Bytes) → Except Fault β × Source → Prop where
  | value (a : α) (s : Source) (hs : s.failing = false) :
      Follows next (.ok (a, s.pending)) (next a s)
  | fault (fault : Fault) (s : Source) : Follows next (.error fault.kind) (.error fault, s)

def Realizes (r : Reader α) (p : Parser α) : Prop :=
  ∀ s : Source, s.failing = false →
    Follows (fun a s' => (.ok a, s')) (p.parse s.pending) (r s)

theorem Follows.exists_of_ok {a : α} {rest : Bytes} (h : Follows next (.ok (a, rest)) result) :
    ∃ s, s.failing = false ∧ s.pending = rest ∧ result = next a s := by
  generalize hparsed : Except.ok (a, rest) = parsed at h
  cases h with
  | value a' s hs =>
    obtain ⟨rfl, rfl⟩ := Prod.mk.inj (Except.ok.inj hparsed)
    exact ⟨s, hs, rfl, rfl⟩
  | fault fault s => contradiction

theorem Follows.of_error {kind : Fault.Kind} (h : Follows next (.error kind) result) :
    Follows next' (.error kind) result := by
  generalize hparsed : Except.error kind = parsed at h
  cases h with
  | value a s hs => contradiction
  | fault fault s =>
    obtain rfl := Except.error.inj hparsed
    exact .fault fault s

/-- Go on behind the first part of a parser. -/
theorem Follows.bind {f : α → Parser γ} {bytes : Bytes} (h : Follows next (p.parse bytes) result)
    (hf : ∀ a s, s.failing = false → p.parse bytes = .ok (a, s.pending) →
      Follows next' ((f a).parse s.pending) (next a s)) :
    Follows next' ((p >>= f).parse bytes) result := by
  generalize hp : p.parse bytes = parsed at h
  cases h with
  | value a s hs =>
    rw [Parser.parse_bind_ok hp]
    exact hf a s hs hp
  | fault fault s =>
    rw [Parser.parse_bind_error hp]
    exact .fault fault s

/-- Go on behind the first part of a reader. -/
theorem Follows.bind_reader {value : α → γ} {parsed : Except Fault.Kind (α × Bytes)} {r : Reader γ}
    {s : Source} (h : Follows (fun a s' => (.ok (value a), s')) parsed (r s)) (f : γ → Reader β) :
    Follows (fun a => f (value a)) parsed ((r >>= f) s) := by
  show Follows _ _ (Reader.bind r f s)
  generalize hresult : r s = result at h
  cases h with
  | value a s' hs' =>
    have hbind : Reader.bind r f s = f (value a) s' := by rw [Reader.bind, hresult]
    rw [hbind]
    exact .value a s' hs'
  | fault fault s' =>
    have hbind : Reader.bind r f s = (.error fault, s') := by rw [Reader.bind, hresult]
    rw [hbind]
    exact .fault fault s'

theorem Realizes.bind {f : α → Reader β} {g : α → Parser β} (h : Realizes r p)
    (hf : ∀ a, Realizes (f a) (g a)) : Realizes (r >>= f) (p >>= g) := by
  intro s hs
  exact ((h s hs).bind_reader f).bind fun a s' hs' _ => hf a s' hs'

theorem realizes_pure (a : α) : Realizes (pure a) (pure a) :=
  fun s hs => .value a s hs

theorem realizes_fail (fault : Fault) : Realizes (α := α) (Reader.fail fault) (.fail fault.kind) :=
  fun s _ => .fault fault s

theorem Realizes.map (h : Realizes r p) (f : α → β) :
    Realizes (do return f (← r)) (do return f (← p)) :=
  h.bind fun a => realizes_pure (f a)

theorem realizes_bytes (n : Nat) : Realizes (Reader.exactly n) (.bytes n) := by
  intro s hs
  rcases Nat.lt_or_ge s.pending.length n with hlt | hle
  · obtain ⟨s', hr, -⟩ := Source.readFull_of_lt hlt hs
    rw [Parser.parse_bytes_of_lt hlt, Reader.exactly, hr]
    exact .fault (.unexpectedEnd n s.pending) s'
  · obtain ⟨s', hr, hpending, hfailing⟩ := Source.readFull_of_le hle
    rw [Parser.parse_bytes_of_le hle, Reader.exactly, hr, ← hpending]
    exact .value _ s' (by rw [hfailing, hs])

/-- What a reader that realizes a parser takes off a channel. -/
theorem Realizes.takes {front rest : Bytes} {a : α} (h : Realizes r p)
    (hp : p.parse (front ++ rest) = .ok (a, rest)) : r.Takes front rest a := by
  intro s hs hpending
  have hr := h s hs
  rw [hpending, hp] at hr
  obtain ⟨s', hs', hrest, hresult⟩ := hr.exists_of_ok
  exact ⟨s', hresult, hrest, hs'⟩

theorem Realizes.verdict {s : Source} (h : Realizes r p)
    (hs : s.failing = false) : r.verdict s = p.parse s.pending := by
  have hr := h s hs
  rw [Reader.verdict]
  generalize p.parse s.pending = parsed at hr
  generalize r s = result at hr
  cases hr with
  | value a s' _ => rfl
  | fault fault s' => rfl

theorem Realizes.parse_of_takes {front rest : Bytes} {a : α} (h : Realizes r p)
    (hr : r.Takes front rest a) : p.parse (front ++ rest) = .ok (a, rest) := by
  have hverdict : r.verdict (.ofBytes (front ++ rest)) = p.parse (front ++ rest) := h.verdict rfl
  obtain ⟨s', hs', hrest, -⟩ := hr (.ofBytes (front ++ rest)) rfl rfl
  rw [← hverdict, Reader.verdict, hs', ← hrest]

/-! ### Numbers -/

theorem lt_of_number {size n : Nat} {bytes rest : Bytes}
    (h : (Parser.number size).parse bytes = .ok (n, rest)) : n < 256 ^ size := by
  obtain ⟨front, middle, hbytes, hn⟩ := Parser.of_parse_bind h
  obtain ⟨rfl, -⟩ := Prod.mk.inj (Except.ok.inj hn)
  rw [← (Parser.length_of_bytes hbytes).1]
  exact Bytes.toNat_lt front

section FixedWidth

variable [FixedWidth α] (ofNat : Nat → α) (hof : ∀ n, FixedWidth.ofWord? n = some (ofNat n))

include hof

/-- Where every word is a value, a value is the number that its bytes are. -/
theorem follows_value {s : Source} (hs : s.failing = false) :
    Follows (fun n s' => (.ok (ofNat n), s')) ((Parser.number (FixedWidth.size α)).parse s.pending)
      (Reader.value α s) := by
  refine ((realizes_bytes _ s hs).bind_reader _).bind fun bytes s' hs' hparse => ?_
  have htake : FixedWidth.take α bytes = .ok (ofNat (Bytes.toNat bytes)) := by
    rw [FixedWidth.take, if_pos (Parser.length_of_bytes hparse).1, hof]
  rw [htake]
  exact .value _ s' hs'

theorem realizes_value_bind {f : α → Reader β} {g : Nat → Parser β}
    (h : ∀ n, n < 256 ^ FixedWidth.size α → Realizes (f (ofNat n)) (g n)) :
    Realizes (Reader.value α >>= f) (Parser.number (FixedWidth.size α) >>= g) := by
  intro s hs
  refine ((follows_value ofNat hof hs).bind_reader f).bind fun n s' hs' hparse => ?_
  exact h n (lt_of_number hparse) s' hs'

theorem realizes_value : Realizes (Reader.value α) (Grammar.value (FixedWidth.size α) ofNat) := by
  intro s hs
  exact (follows_value ofNat hof hs).bind fun n s' hs' _ => .value (ofNat n) s' hs'

end FixedWidth

theorem int16_ofNat {n : Nat} (h : n < 2 ^ 15) :
    ¬ Int16.ofNat n < 0 ∧ (Int16.ofNat n).toInt.toNat = n := by
  have hint : (Int16.ofNat n).toInt = n := Int16.toInt_ofNat_of_lt h
  rw [Int16.lt_iff_toInt_lt, hint]
  exact ⟨by simp, by simp⟩

theorem int16_ofNat_neg {n : Nat} (h : 2 ^ 15 ≤ n) (h' : n < 2 ^ 16) : Int16.ofNat n < 0 := by
  rw [Int16.lt_iff_toInt_lt, Int16.toInt_ofNat']
  simp only [Int.bmod, Int16.size, Int16.toInt_zero]
  omega

theorem int32_ofNat_neg {n : Nat} (h : 2 ^ 31 ≤ n) (h' : n < 2 ^ 32) : Int32.ofNat n < 0 := by
  rw [Int32.lt_iff_toInt_lt, Int32.toInt_ofNat']
  simp only [Int.bmod, Int32.size, Int32.toInt_zero]
  omega

/-! ### Parts of the grammar -/

theorem realizes_kind : Realizes Read.kind Grammar.kind := by
  refine realizes_value_bind UInt8.ofNat (fun _ => rfl) fun n (hn : n < 2 ^ 8) => ?_
  have hid : TagKind.ofId? (UInt8.ofNat n) = TagKind.all[n]? := by
    rw [TagKind.ofId?, UInt8.toNat_ofNat', Nat.mod_eq_of_lt hn]
  rw [TagKind.ofByte, hid]
  cases TagKind.all[n]? with
  | none => exact realizes_fail _
  | some kind => exact realizes_pure kind

theorem realizes_count (kind : TagKind) : Realizes (Read.count kind) (Grammar.length 4) := by
  refine realizes_value_bind Int32.ofNat (fun _ => rfl) fun n (hn : n < 2 ^ 32) => ?_
  by_cases h : n < 2 ^ 31
  · obtain ⟨hneg, hnat⟩ := Reader.toInt_ofNat_toNat h
    rw [if_neg hneg, if_pos h, hnat]
    exact realizes_pure n
  · rw [if_pos (int32_ofNat_neg (Nat.le_of_not_lt h) hn), if_neg h]
    exact realizes_fail _

theorem realizes_text : Realizes Read.text Grammar.text := by
  intro s hs
  rw [Grammar.text, Grammar.length, Parser.parse_bind_assoc]
  refine realizes_value_bind Int16.ofNat (fun _ => rfl) (fun n (hn : n < 2 ^ 16) => ?_) s hs
  by_cases h : n < 2 ^ 15
  · obtain ⟨hneg, hnat⟩ := int16_ofNat h
    rw [if_neg hneg, if_pos h, hnat]
    refine (realizes_bytes n).bind fun bytes => ?_
    cases hdecode : Utf8.decode bytes with
    | ok s =>
      rw [Read.decodeText, hdecode, Utf8.fromUTF8?_eq_some_iff.mpr hdecode]
      exact realizes_pure s
    | error fault =>
      have hnone : String.fromUTF8? bytes.toByteArray = none := by
        rw [Option.eq_none_iff_forall_ne_some]
        intro s hsome
        rw [Utf8.fromUTF8?_eq_some_iff.mp hsome] at hdecode
        contradiction
      rw [Read.decodeText, hdecode, hnone]
      exact realizes_fail _
  · rw [if_pos (int16_ofNat_neg (Nat.le_of_not_lt h) hn), if_neg h]
    exact realizes_fail _

theorem realizes_listHeading : Realizes Read.listHeading Grammar.listHeading := by
  refine realizes_kind.bind fun element => (realizes_count .list).bind fun n => ?_
  by_cases h : element = .endMark ∧ 0 < n
  · rw [if_pos h, if_pos h]
    exact realizes_fail _
  · rw [if_neg h, if_neg h]
    exact realizes_pure (element, n)

theorem realizes_childHeading : Realizes Read.childHeading Grammar.childHeading := by
  refine realizes_kind.bind fun kind => ?_
  by_cases h : kind = .endMark
  · rw [if_pos h, if_pos h]
    exact realizes_pure none
  · rw [if_neg h, if_neg h]
    exact realizes_text.map fun name => some (kind, name)

/-! ### Arrays -/

section Array

variable [FixedWidth α] (ofNat : Nat → α) (hof : ∀ n, FixedWidth.ofWord? n = some (ofNat n))

include hof

/-- The elements read one by one are those cut from all their bytes. -/
theorem parse_times_value_of_le {n : Nat} {bytes : Bytes}
    (h : FixedWidth.size α * n ≤ bytes.length) :
    ∃ vs, (Parser.times n (Grammar.value (FixedWidth.size α) ofNat)).parse bytes =
        .ok (vs, bytes.drop (FixedWidth.size α * n)) ∧
      ∀ acc, FixedWidth.takeMany α acc n (bytes.take (FixedWidth.size α * n)) =
        .ok (acc.reverse ++ vs) := by
  induction n generalizing bytes with
  | zero => exact ⟨[], rfl, fun acc => by rw [List.append_nil]; rfl⟩
  | succ n ih =>
    rw [Nat.mul_succ] at h ⊢
    have hfirst := Grammar.parse_value_of_le ofNat (Nat.le_trans (Nat.le_add_left _ _) h)
    have hrest : FixedWidth.size α * n ≤ (bytes.drop (FixedWidth.size α)).length := by
      rw [List.length_drop]
      omega
    obtain ⟨vs, hparse, htake⟩ := ih hrest
    refine ⟨ofNat (Bytes.toNat (bytes.take (FixedWidth.size α))) :: vs, ?_, fun acc => ?_⟩
    · refine (Parser.parse_bind_ok hfirst).trans ((Parser.parse_bind_ok hparse).trans ?_)
      rw [List.drop_drop, Nat.add_comm]
      rfl
    · have hvalue : FixedWidth.take α (bytes.take (FixedWidth.size α)) =
          .ok (ofNat (Bytes.toNat (bytes.take (FixedWidth.size α)))) := by
        rw [FixedWidth.take, if_pos (by rw [List.length_take]; omega), hof]
      rw [FixedWidth.takeMany, List.splitAt_eq, List.take_take, List.drop_take,
        Nat.min_eq_left (Nat.le_add_left _ _), Nat.add_sub_cancel]
      simp only [hvalue]
      rw [htake, List.reverse_cons, List.append_assoc, List.singleton_append]

theorem realizes_array (kind : TagKind) :
    Realizes (Read.array α kind) (Grammar.array (FixedWidth.size α) ofNat) := by
  refine (realizes_count kind).bind fun n s hs => ?_
  have hall := (realizes_bytes (FixedWidth.size α * n) s hs).bind_reader
    fun bytes => Reader.lift (FixedWidth.takeMany α [] n bytes)
  rcases Nat.lt_or_ge s.pending.length (FixedWidth.size α * n) with hlt | hle
  · rw [Parser.parse_bytes_of_lt hlt] at hall
    rw [Grammar.parse_times_value_of_lt ofNat hlt]
    exact hall.of_error
  · obtain ⟨vs, hparse, htake⟩ := parse_times_value_of_le ofNat hof hle
    rw [Parser.parse_bytes_of_le hle] at hall
    obtain ⟨s', hs', hrest, hresult⟩ := hall.exists_of_ok
    rw [hparse, hresult, htake, ← hrest]
    exact .value vs s' hs'

end Array

/-! ### Tags that hold no others -/

theorem realizes_scalar (room : Nat) {kind : TagKind} (hlist : kind ≠ .list)
    (hcompound : kind ≠ .compound) :
    Realizes (Read.scalar kind) (Grammar.payload room kind) := by
  unfold Grammar.payload
  cases kind with
  | endMark => exact realizes_pure Tag.endMark
  | byte => exact (realizes_value Int8.ofNat fun _ => rfl).map Tag.byte
  | short => exact (realizes_value Int16.ofNat fun _ => rfl).map Tag.short
  | int => exact (realizes_value Int32.ofNat fun _ => rfl).map Tag.int
  | long => exact (realizes_value Int64.ofNat fun _ => rfl).map Tag.long
  | float => exact (realizes_value (fun n => ⟨UInt32.ofNat n⟩) fun _ => rfl).map Tag.float
  | double => exact (realizes_value (fun n => ⟨UInt64.ofNat n⟩) fun _ => rfl).map Tag.double
  | byteArray => exact (realizes_array Int8.ofNat (fun _ => rfl) _).map Tag.byteArray
  | string => exact realizes_text.map Tag.string
  | list => exact absurd rfl hlist
  | compound => exact absurd rfl hcompound
  | intArray => exact (realizes_array Int32.ofNat (fun _ => rfl) _).map Tag.intArray
  | longArray => exact (realizes_array Int64.ofNat (fun _ => rfl) _).map Tag.longArray

end Nbt

end MinecraftWire
