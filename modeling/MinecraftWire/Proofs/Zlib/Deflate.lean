import MinecraftWire.Proofs.Zlib.Block
import MinecraftWire.Proofs.Zlib.Parse
import MinecraftWire.Zlib.Deflate

/-! Deflated bytes inflate to themselves, at every level and whatever follows the stream. The blocks
of a stream share out the tokens in order, and each goes on from the bytes of those before. -/

namespace MinecraftWire.Zlib

open Block BitSource

/-! ### Sizes of tokens -/

namespace Token

/-- The number of bytes a token stands for. -/
def size : Token → Nat
  | literal _ => 1
  | copy length _ => length

theorem exists_repeatBack (distance length : Nat) (output : Array UInt8) :
    ∃ more : Bytes, repeatBack distance length output = output ++ more ∧ more.length = length := by
  induction length generalizing output with
  | zero => exact ⟨[], by simp [repeatBack], rfl⟩
  | succ length ih =>
    rw [repeatBack]
    obtain ⟨more, hmore, hlength⟩ := ih (output.push
      (if distance ≤ output.size then output.getD (output.size - distance) 0 else 0))
    refine ⟨(if distance ≤ output.size then output.getD (output.size - distance) 0 else 0) :: more,
      ?_, by rw [List.length_cons, hlength]⟩
    rw [hmore]
    exact Array.toList_inj.mp (by simp)

theorem exists_expand (t : Token) (output : Array UInt8) :
    ∃ more : Bytes, t.expand output = output ++ more ∧ more.length = t.size := by
  cases t with
  | literal byte => exact ⟨[byte], by simp [expand], rfl⟩
  | copy length distance => exact exists_repeatBack distance length output

theorem exists_foldl_expand (tokens : List Token) (output : Array UInt8) :
    ∃ more : Bytes, tokens.foldl expand output = output ++ more ∧
      more.length = (tokens.map size).sum := by
  induction tokens generalizing output with
  | nil => exact ⟨[], by simp, rfl⟩
  | cons t tokens ih =>
    obtain ⟨front, hfront, hsize⟩ := t.exists_expand output
    obtain ⟨back, hback, hsum⟩ := ih (output ++ front)
    refine ⟨front ++ back, ?_, ?_⟩
    · rw [List.foldl_cons, hfront, hback]
      exact Array.toList_inj.mp (by simp)
    · rw [List.length_append, hsize, hsum, List.map_cons, List.sum_cons]

end Token

namespace Deflate

theorem parse_tokens (effort : Option Effort) (data : Array UInt8) :
    Parse data (tokens effort data) := by
  unfold tokens
  cases effort with
  | some e => exact e.parse_tokens data
  | none => exact Quick.parse_tokens data

/-! ### Sharing out tokens -/

/-- Behind `output` the blocks have the tokens for the given bytes, each with its number of bytes. -/
def Shares (output : Array UInt8) : Bytes → List (List Token × Nat) → Prop
  | data, [] => data = []
  | data, (tokens, n) :: blocks =>
    (∀ t ∈ tokens, t.Valid) ∧ tokens.foldl Token.expand output = output ++ data.take n ∧
      Shares (output ++ data.take n) (data.drop n) blocks

theorem bytes_add (fill : Fill) (t : Token) : (fill.add t).bytes = fill.bytes + t.size := by
  cases t <;> rfl

/-- Tokens that expand to bytes begin with the tokens of the first of these bytes. -/
theorem foldl_expand_take {front back : List Token} {output : Array UInt8} {data : Bytes} {n : Nat}
    (hn : n = (front.map Token.size).sum)
    (h : (front ++ back).foldl Token.expand output = output ++ data) :
    front.foldl Token.expand output = output ++ data.take n ∧
      back.foldl Token.expand (output ++ data.take n) = output ++ data.take n ++ data.drop n := by
  obtain ⟨more, hmore, hlength⟩ := Token.exists_foldl_expand front output
  obtain ⟨later, hlater, -⟩ := Token.exists_foldl_expand back (output ++ more)
  rw [List.foldl_append, hmore, hlater] at h
  have hdata : data = more ++ later := by
    have := congrArg Array.toList h
    simpa using this.symm
  subst hdata
  rw [hn, ← hlength, List.take_left, List.drop_left]
  exact ⟨hmore, hlater⟩

theorem shares_split (sparing : Bool) (fill : Fill) (acc tokens : List Token)
    (output : Array UInt8) (data : Bytes) (hvalid : ∀ t ∈ acc.reverse ++ tokens, t.Valid)
    (hfill : fill.bytes = (acc.reverse.map Token.size).sum)
    (h : (acc.reverse ++ tokens).foldl Token.expand output = output ++ data) :
    Shares output data (split sparing fill acc tokens) := by
  induction tokens generalizing fill acc output data with
  | nil =>
    have htake := foldl_expand_take hfill h
    rw [List.append_nil] at h hvalid
    obtain ⟨more, hmore, hlength⟩ := Token.exists_foldl_expand acc.reverse output
    have hdata : data = more := by
      rw [h] at hmore
      simpa using congrArg Array.toList hmore
    rw [split]
    refine ⟨hvalid, htake.1, ?_⟩
    rw [hfill, ← hlength, hdata]
    exact List.drop_length
  | cons t tokens ih =>
    have hshift : acc.reverse ++ t :: tokens = (t :: acc).reverse ++ tokens := by simp
    rw [hshift] at h hvalid
    have hfill' : (fill.add t).bytes = ((t :: acc).reverse.map Token.size).sum := by
      rw [bytes_add, hfill]
      simp
    rw [split]
    split
    · obtain ⟨hfront, hback⟩ := foldl_expand_take hfill' h
      exact ⟨fun u hu => hvalid u (List.mem_append_left tokens hu), hfront,
        ih .empty [] _ _ (fun u hu => hvalid u (List.mem_append_right _ hu)) rfl hback⟩
    · exact ih _ _ output data hvalid hfill' h

theorem split_ne_nil (sparing : Bool) (fill : Fill) (acc tokens : List Token) :
    split sparing fill acc tokens ≠ [] := by
  induction tokens generalizing fill acc with
  | nil => simp [split]
  | cons t tokens ih =>
    rw [split]
    split
    · simp
    · exact ih _ _

/-- Blocks that share out the tokens for some bytes give these bytes. -/
theorem blocks_blocksBits {blocks : List (List Token × Nat)} {output : Array UInt8} {data : Bytes}
    (hblocks : blocks ≠ []) (h : Shares output data blocks) {s : BitSource} {offset : Nat}
    {rest : List Bool} (hs : s.At offset (blocksBits offset data blocks ++ rest)) :
    ∃ s', Inflate.blocks s output = .ok (s', output ++ data) ∧
      s'.At (offset + (blocksBits offset data blocks).length) rest := by
  induction blocks generalizing output data s offset with
  | nil => exact absurd rfl hblocks
  | cons block blocks ih =>
    obtain ⟨tokens, n⟩ := block
    obtain ⟨hvalid, hexpand, hlater⟩ := h
    rw [blocksBits, List.append_assoc] at hs
    obtain ⟨s₁, hs₁, h₁⟩ := Inflate.blocks_of_gives (gives_bits hvalid hexpand) blocks.isEmpty hs
    rw [blocksBits, List.length_append, ← Nat.add_assoc]
    cases blocks with
    | nil =>
      have hall : data.take n = data := List.take_of_length_le (List.drop_eq_nil_iff.mp hlater)
      refine ⟨s₁, ?_, hs₁⟩
      rw [h₁, hall]
      rfl
    | cons next blocks =>
      obtain ⟨s₂, h₂, hs₂⟩ := ih (by simp) hlater hs₁
      refine ⟨s₂, ?_, hs₂⟩
      rw [h₁]
      simp only [List.isEmpty_cons, Bool.false_eq_true, if_false, h₂]
      congr 2
      exact Array.toList_inj.mp (by simp)

/-! ### Stored blocks -/

theorem bitsOf_ofNat_two {n : Nat} (hn : n < 65536) :
    bitsOf (Bytes.ofNat 2 n).reverse = lowBits 16 n := by
  have hlow : UInt8.ofNat (n % 256) = UInt8.ofNat n := UInt8.toNat_inj.mp (by simp)
  rw [lowBits_two_bytes hn, hlow]
  rfl

/-- A stored block at the start of a byte. -/
theorem bitsOf_storedBlock {offset : Nat} (hoffset : offset % 8 = 0) (last : Bool) {data : Bytes}
    (hdata : data.length ≤ 65535) :
    bitsOf (storedBlock last data) = last :: storedBits (offset + 1) data := by
  have hpadding : padding (offset + 1 + 2) = List.replicate 5 false := by
    rw [padding]
    congr 1
    omega
  have hheading : bitsOf [if last then 1 else 0] =
      last :: (lowBits 2 0 ++ padding (offset + 1 + 2)) := by
    rw [hpadding]
    cases last <;> rfl
  have hblock : storedBlock last data = [if last then 1 else 0] ++
      ((Bytes.ofNat 2 data.length).reverse ++
        ((Bytes.ofNat 2 (65535 - data.length)).reverse ++ data)) := by
    simp [storedBlock]
  rw [hblock, bitsOf_append, bitsOf_append, bitsOf_append, hheading, bitsOf_ofNat_two (by omega),
    bitsOf_ofNat_two (by omega)]
  simp only [storedBits, List.append_assoc, List.cons_append]
  rfl

theorem blocks_storedBlocks (data : Bytes) (output : Array UInt8) {s : BitSource} {offset : Nat}
    (hoffset : offset % 8 = 0) {rest : List Bool}
    (hs : s.At offset (bitsOf (storedBlocks data) ++ rest)) :
    ∃ s', Inflate.blocks s output = .ok (s', output ++ data) ∧
      s'.At (offset + (bitsOf (storedBlocks data)).length) rest := by
  induction hn : data.length using Nat.strongRecOn generalizing data output s offset with
  | ind n ih =>
    subst hn
    rw [storedBlocks] at hs ⊢
    split at hs
    · rename_i hshort
      rw [if_pos hshort]
      have hlength : data.length ≤ 65535 := by
        unfold maxStored at hshort
        omega
      rw [bitsOf_storedBlock hoffset true hlength] at hs ⊢
      obtain ⟨s₁, hs₁, h₁⟩ := Inflate.blocks_of_gives (gives_storedBits _ output hlength) true hs
      exact ⟨s₁, h₁, hs₁⟩
    · rename_i hlong
      rw [if_neg hlong]
      have hlength : (data.take maxStored).length ≤ 65535 := by
        rw [List.length_take]
        unfold maxStored
        omega
      have hbits := bitsOf_storedBlock hoffset false hlength
      have hwhole := length_bitsOf (storedBlock false (data.take maxStored))
      rw [bitsOf_append, hbits, List.append_assoc] at hs
      rw [hbits] at hwhole
      obtain ⟨s₁, hs₁, h₁⟩ := Inflate.blocks_of_gives (gives_storedBits _ output hlength) false hs
      obtain ⟨s₂, h₂, hs₂⟩ := ih (data.drop maxStored).length
        (by rw [List.length_drop]; unfold maxStored at *; omega)
        (data.drop maxStored) (output ++ data.take maxStored) (by omega) hs₁ rfl
      refine ⟨s₂, ?_, ?_⟩
      · rw [h₁, if_neg (by simp), h₂]
        congr 2
        exact Array.toList_inj.mp (by simp)
      · rwa [bitsOf_append, hbits, List.length_append, ← Nat.add_assoc]

theorem isHeader_headerFlags (level : Nat) : isHeader 0x78 (headerFlags level) := by
  unfold headerFlags
  split
  · rfl
  split
  · rfl
  split <;> rfl

/-- Blocks for the given bytes and their checksum make up a stream. -/
theorem inflate_of_blocks {method flags : UInt8} {body data rest : Bytes} {s : BitSource}
    {offset : Nat} (hheader : isHeader method flags)
    (hblocks : Inflate.blocks (.ofBytes body) #[] = .ok (s, (#[] : Array UInt8) ++ data))
    (hs : s.At offset (padding offset ++ bitsOf (Adler32.checksum data ++ rest))) :
    inflate (method :: flags :: body) = .ok (data.toArray, rest) := by
  have hend : s.At offset (padding offset ++ bitsOf (Adler32.checksum data ++ rest) ++ []) := by
    rwa [List.append_nil]
  obtain ⟨back, haligned, hback⟩ := hend.aligned
  obtain rfl : back = [] := by
    have := length_bitsOf back
    rw [hback, List.length_nil] at this
    exact List.length_eq_zero_iff.mp (by omega)
  have hlength : (Adler32.checksum data).length = 4 := Bytes.length_ofNat 4 _
  have hall : (#[] : Array UInt8) ++ data = data.toArray := by simp
  rw [hall] at hblocks
  rw [List.append_nil] at haligned
  simp only [inflate, hheader, if_true, hblocks, haligned, List.splitAt_eq]
  rw [List.take_left' hlength, List.drop_left' hlength, hlength]
  simp

/-- Stored blocks end at a byte, so nothing stands between them and the checksum. -/
theorem inflate_stored {flags : UInt8} (hheader : isHeader 0x78 flags) (data rest : Bytes) :
    inflate (0x78 :: flags :: (storedBlocks data ++ (Adler32.checksum data ++ rest))) =
      .ok (data.toArray, rest) := by
  have hstart := at_ofBytes (storedBlocks data ++ (Adler32.checksum data ++ rest))
  rw [bitsOf_append] at hstart
  obtain ⟨s, hblocks, hs⟩ := blocks_storedBlocks data #[] rfl hstart
  have hpadding : padding (0 + (bitsOf (storedBlocks data)).length) = [] := by
    have hwhole := length_bitsOf (storedBlocks data)
    rw [padding, hwhole, show (8 - (0 + 8 * (storedBlocks data).length) % 8) % 8 = 0 by omega]
    rfl
  apply inflate_of_blocks hheader hblocks
  rw [hpadding]
  exact hs

/-- The bits of the blocks are packed, and padding fills the last byte before the checksum. -/
theorem inflate_packed {flags : UInt8} (hheader : isHeader 0x78 flags)
    {blocks : List (List Token × Nat)} {data : Bytes} (hblocks : blocks ≠ [])
    (hshares : Shares #[] data blocks) (rest : Bytes) :
    inflate (0x78 :: flags :: (pack (blocksBits 0 data blocks) ++ (Adler32.checksum data ++ rest))) =
      .ok (data.toArray, rest) := by
  have hstart := at_ofBytes (pack (blocksBits 0 data blocks) ++ (Adler32.checksum data ++ rest))
  rw [bitsOf_append, bitsOf_pack, List.append_assoc] at hstart
  obtain ⟨s, hread, hs⟩ := blocks_blocksBits hblocks hshares hstart
  apply inflate_of_blocks hheader hread
  simpa using hs

end Deflate

open Deflate in
/-- A deflated byte string inflates to itself, and what follows it is left alone. -/
theorem inflate_deflate (level : Nat) (data rest : Bytes) :
    inflate (deflate level data ++ rest) = .ok (data.toArray, rest) := by
  have hheader := isHeader_headerFlags level
  unfold deflate
  by_cases hlevel : level = 0
  · have hstored := inflate_stored hheader data rest
    simpa [hlevel] using hstored
  · have hparse := parse_tokens (effort? level) data.toArray
    have hshares := shares_split (effort? level).isSome .empty []
      (tokens (effort? level) data.toArray) #[] data hparse.valid rfl
      (by simpa using hparse.expand_eq)
    have hpacked := inflate_packed hheader (split_ne_nil _ _ _ _) hshares rest
    simpa [hlevel] using hpacked

end MinecraftWire.Zlib
