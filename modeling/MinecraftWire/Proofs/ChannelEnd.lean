import MinecraftWire.Proofs.Nbt.Invariant

/-! The end of a channel. Fields and trees are read by readers that stop orderly, and no bytes are
refused with the words for an end; so a reader that tells of an end has come to it, and the bytes it
tells are the last ones that the channel had. -/

namespace MinecraftWire

namespace Reader

/-- The readers of fields and of trees. -/
inductive Operation : {α : Type} → Reader α → Prop where
  | value (α : Type) [FixedWidth α] : Operation (value α)
  | varInt : Operation varInt
  | varLong : Operation varLong
  | text (limit : Nat) : Operation (text limit)
  | latin1 : Operation latin1
  | blob : Operation blob
  | exactly (n : Nat) : Operation (exactly n)
  | remaining : Operation remaining
  | optional {α : Type} {r : Reader α} (h : Operation r) : Operation (optional r)
  | tree (header : Nbt.Header) : Operation (Nbt.Read.root header)

/-- A fault that is not told of the end of a channel. -/
def Inside (fault : Fault) : Prop :=
  fault.kind ≠ .unexpectedEnd

theorem inside_of_malformed {fault : Fault} (h : Malformed fault) : Inside fault := by
  cases h with
  | format cause => exact Fault.Kind.noConfusion

theorem inside_of_refusal {fault : Fault} (h : Nbt.Read.Refusal fault) : Inside fault := by
  cases h with
  | rejected h =>
    cases h with
    | format _ => exact Fault.Kind.noConfusion
  | clash _ => exact Fault.Kind.noConfusion

theorem Operation.orderly {α : Type} {r : Reader α} (h : Operation r) : r.Orderly Inside := by
  induction h with
  | value α => exact orderly_value α fun _ => inside_of_malformed (.format _)
  | varInt => exact orderly_varInt.mono fun _ => inside_of_malformed
  | varLong => exact orderly_varLong.mono fun _ => inside_of_malformed
  | text limit => exact (orderly_text limit).mono fun _ => inside_of_malformed
  | latin1 => exact orderly_latin1
  | blob => exact orderly_blob.mono fun _ => inside_of_malformed
  | exactly n => exact orderly_exactly n
  | remaining => exact orderly_remaining
  | optional _ ih => exact ih.optional fun _ => inside_of_malformed (.format _)
  | tree header => exact (Nbt.Read.orderly_root header).mono fun _ => inside_of_refusal

/-- What tells of an end has read the whole channel, which did not fail; it tells the last bytes
there were, and they are fewer than it wanted. -/
theorem unexpectedEnd_at_end {α : Type} {r : Reader α} (hr : Operation r) {s : Source}
    {expected : Nat} {got : Bytes} (h : (r s).1 = .error (.unexpectedEnd expected got)) :
    (r s).2.pending = [] ∧ got <:+ s.pending ∧ got.length < expected ∧ s.failing = false := by
  cases (hr.orderly s).stopped h with
  | ended hfailing hend hgot hshort => exact ⟨hend, hgot, hshort, hfailing⟩
  | refused hinside => exact absurd rfl hinside

/-- A number that ends inside its third byte, behind its flag, and a tree that ends inside its name,
on channels that hand out single bytes. -/
theorem unexpectedEnd_at_end_of_number_and_name :
    let number := Source.chunked 1 false [1, 0xFF, 0xFF]
    let tree := Source.chunked 1 false [10, 0, 5, 104, 101]
    ((optional varInt number).1 = .error (.unexpectedEnd 3 [0xFF, 0xFF]) ∧
      (optional varInt number).2.pending = [] ∧ [0xFF, 0xFF] <:+ number.pending) ∧
    (Nbt.Read.root .named tree).1 = .error (.unexpectedEnd 5 [104, 101]) ∧
      (Nbt.Read.root .named tree).2.pending = [] ∧ [104, 101] <:+ tree.pending := by
  intro number tree
  have hnumber : (optional varInt number).1 = .error (.unexpectedEnd 3 [0xFF, 0xFF]) := by
    decide +kernel
  have htree : (Nbt.Read.root .named tree).1 = .error (.unexpectedEnd 5 [104, 101]) := by
    have hmap : ((Nbt.Read.root .named tree).1.map fun _ => ()) =
        .error (.unexpectedEnd 5 [104, 101]) := by decide +kernel
    rcases hroot : (Nbt.Read.root .named tree).1 with fault | root <;> rw [hroot] at hmap
    · rw [Except.error.inj hmap]
    · contradiction
  obtain ⟨hend, hlast, -⟩ := unexpectedEnd_at_end (.optional .varInt) hnumber
  obtain ⟨hend', hlast', -⟩ := unexpectedEnd_at_end (.tree .named) htree
  exact ⟨⟨hnumber, hend, hlast⟩, htree, hend', hlast'⟩

end Reader

end MinecraftWire
