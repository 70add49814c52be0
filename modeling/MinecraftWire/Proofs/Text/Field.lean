import MinecraftWire.Proofs.FixedWidth
import MinecraftWire.Proofs.Text.Utf8
import MinecraftWire.Proofs.VarInt

/-! Fields and the forms made of them. `Reads` ties a reader to the pieces of a form: where all
pieces can be written, the reader takes them off a channel again. It follows the pieces one by one,
so the law of a form is put together from those of its fields. -/

namespace MinecraftWire

namespace Pieces

@[simp] theorem bytes_nil : bytes [] = .ok [] := rfl

theorem bytes_cons (piece : Except Fault Bytes) (pieces : Pieces) :
    bytes (piece :: pieces) = piece.bind fun front => pieces.bytes.map (front ++ ·) := by
  rcases piece with fault | front
  · rfl
  · rcases h : pieces.assemble with ⟨back, _ | fault⟩ <;>
      simp [bytes, assemble, h, Except.bind, Except.map]

theorem bytes_eq_ok_iff {pieces : Pieces} {form : Bytes} :
    pieces.bytes = .ok form ↔ pieces.assemble = (form, none) := by
  unfold bytes
  split <;> rename_i h <;> simp [h]

theorem bytes_cons_eq_ok_iff {piece : Except Fault Bytes} {pieces : Pieces} {form : Bytes} :
    bytes (piece :: pieces) = .ok form ↔
      ∃ front back, piece = .ok front ∧ pieces.bytes = .ok back ∧ form = front ++ back := by
  rcases piece with fault | front
  · simp [bytes, assemble]
  · simp only [bytes_eq_ok_iff, assemble, Prod.mk.injEq, Except.ok.injEq]
    constructor
    · rintro ⟨rfl, h⟩
      exact ⟨_, _, rfl, Prod.ext rfl h, rfl⟩
    · rintro ⟨_, back, rfl, h, rfl⟩
      simp [h]

theorem bytes_append_eq_ok_iff {ps qs : Pieces} {form : Bytes} :
    bytes (ps ++ qs) = .ok form ↔
      ∃ front back, ps.bytes = .ok front ∧ qs.bytes = .ok back ∧ form = front ++ back := by
  induction ps generalizing form with
  | nil => simp
  | cons piece ps ih =>
    rw [List.cons_append, bytes_cons_eq_ok_iff]
    constructor
    · rintro ⟨front, back, hpiece, hback, rfl⟩
      obtain ⟨front', back', hps, hqs, rfl⟩ := ih.mp hback
      exact ⟨_, _, bytes_cons_eq_ok_iff.mpr ⟨_, _, hpiece, hps, rfl⟩, hqs, by simp⟩
    · rintro ⟨_, back, hps, hqs, rfl⟩
      obtain ⟨front, back', hpiece, hps', rfl⟩ := bytes_cons_eq_ok_iff.mp hps
      exact ⟨_, _, hpiece, ih.mpr ⟨_, _, hps', hqs, rfl⟩, by simp⟩

end Pieces

namespace Sink

theorem write_nil (s : Sink) : s.write [] = (.ok (), s) := by
  rcases s with ⟨held, _ | room⟩ <;> simp [write]

/-- A form of one piece is passed on as it is. -/
theorem emit_ok (form : Bytes) (s : Sink) : s.emit [.ok form] = s.write form := by
  rcases hwrite : s.write form with ⟨fault | done, s'⟩ <;>
    simp [emit, Pieces.assemble, hwrite]

/-- Without a form nothing is written. -/
theorem emit_error (fault : Fault) (s : Sink) : s.emit [.error fault] = (.error fault, s) := by
  simp [emit, Pieces.assemble, write_nil]

end Sink

namespace Reader

variable {α β : Type}

/-! ### Forms -/

/-- If all pieces can be written, the reader takes them off the front of a channel and gives `a`. -/
def Reads (r : Reader α) (pieces : Pieces) (rest : Bytes) (a : α) : Prop :=
  ∀ form, pieces.bytes = .ok form → r.Takes form rest a

theorem reads_pure (a : α) (rest : Bytes) : Reads (pure a) [] rest a := by
  intro form h
  obtain rfl := Except.ok.inj h
  exact takes_pure a rest

theorem Reads.bind {r : Reader α} {f : α → Reader β} {ps qs : Pieces} {rest : Bytes} {a : α} {b : β}
    (hr : ∀ rest, r.Reads ps rest a) (hf : (f a).Reads qs rest b) :
    (r >>= f).Reads (ps ++ qs) rest b := by
  intro form h
  obtain ⟨front, back, hps, hqs, rfl⟩ := Pieces.bytes_append_eq_ok_iff.mp h
  exact (hr _ front hps).bind (hf back hqs)

theorem Reads.cons {r : Reader α} {f : α → Reader β} {piece : Except Fault Bytes} {qs : Pieces}
    {rest : Bytes} {a : α} {b : β} (hr : ∀ rest, r.Reads [piece] rest a) (hf : (f a).Reads qs rest b) :
    (r >>= f).Reads (piece :: qs) rest b :=
  Reads.bind hr hf

theorem Reads.map {r : Reader α} {ps : Pieces} {rest : Bytes} {a : α} (hr : r.Reads ps rest a)
    (f : α → β) : (r >>= fun a => pure (f a)).Reads ps rest (f a) :=
  fun form h => (hr form h).map f

/-- A check between two pieces. -/
theorem Reads.lift_bind {x : Except Fault α} {f : α → Reader β} {ps : Pieces} {rest : Bytes} {a : α}
    {b : β} (hx : x = .ok a) (hf : (f a).Reads ps rest b) : (lift x >>= f).Reads ps rest b :=
  fun form h => Takes.lift_bind hx (hf form h)

/-- A piece that cannot fail. -/
theorem Takes.reads {r : Reader α} {front rest : Bytes} {a : α} (h : r.Takes front rest a) :
    r.Reads [.ok front] rest a := by
  intro form hform
  obtain ⟨_, _, hfront, hback, rfl⟩ := Pieces.bytes_cons_eq_ok_iff.mp hform
  obtain rfl := Except.ok.inj hfront
  obtain rfl := Except.ok.inj hback
  simpa using h

/-- A piece of its own. -/
theorem reads_singleton {r : Reader α} {piece : Except Fault Bytes} {rest : Bytes} {a : α}
    (h : ∀ form, piece = .ok form → r.Takes form rest a) : r.Reads [piece] rest a := by
  rcases piece with fault | front
  · intro form hform
    simp [Pieces.bytes, Pieces.assemble] at hform
  · exact (h front rfl).reads

/-! ### Fields -/

theorem reads_value [FixedWidth α] [FixedWidth.Lawful α] (v : α) (rest : Bytes) :
    (value α).Reads [.ok (FixedWidth.put v)] rest v :=
  (takes_value v rest).reads

theorem reads_varInt (v : Int32) (rest : Bytes) : varInt.Reads [.ok (VarInt.encode v)] rest v :=
  (takes_varInt v rest).reads

/-- A length below the sign bit comes back as it is. -/
theorem toInt_ofNat_toNat {n : Nat} (hn : n < 2 ^ 31) :
    ¬ Int32.ofNat n < 0 ∧ (Int32.ofNat n).toInt.toNat = n := by
  rw [Int32.lt_iff_toInt_lt, toInt_ofNat hn]
  exact ⟨by simp, by simp⟩

theorem takes_text {limit : Nat} (hlimit : 4 * limit < 2 ^ 31) {s : String} {form : Bytes}
    (h : Text.encode limit s = .ok form) (rest : Bytes) : (text limit).Takes form rest s := by
  unfold Text.encode at h
  split at h
  · rename_i hs
    obtain rfl := Except.ok.inj h
    have hsize := Utf8.utf8ByteSize_le s
    obtain ⟨hneg, hnat⟩ := toInt_ofNat_toNat (n := s.utf8ByteSize) (by omega)
    have hcheck : Text.checkLength limit (Int32.ofNat s.utf8ByteSize) = .ok s.utf8ByteSize := by
      rw [Text.checkLength, if_neg hneg, hnat, if_neg (by omega)]
    have hdecode : Text.decode limit (Utf8.encode s) = .ok s := by
      rw [Text.decode, Utf8.decode_encode]
      exact if_pos hs
    refine (takes_varInt _ _).bind (Takes.lift_bind hcheck ?_)
    rw [← Utf8.length_encode]
    exact (takes_exactly _ _).bind_nil (takes_lift hdecode _)
  · simp at h

theorem reads_text {limit : Nat} (hlimit : 4 * limit < 2 ^ 31) (s : String) (rest : Bytes) :
    (text limit).Reads [Text.encode limit s] rest s :=
  reads_singleton fun _ h => takes_text hlimit h rest

theorem reads_blob (bytes rest : Bytes) : blob.Reads [Blob.encode bytes] rest bytes := by
  refine reads_singleton fun form h => ?_
  unfold Blob.encode narrow narrowAs at h
  split at h
  · rename_i hbounds
    obtain rfl := Except.ok.inj h
    obtain ⟨hneg, hnat⟩ := toInt_ofNat_toNat (n := bytes.length) (by
      have := hbounds.2
      simp only [FixedInteger.upper] at this
      omega)
    refine (takes_varInt _ _).bind ?_
    have hint : (FixedInteger.ofInt (bytes.length : Int) : Int32) = Int32.ofNat bytes.length := rfl
    rw [hint, if_neg hneg, hnat]
    exact takes_exactly bytes rest
  · simp [Except.map] at h

theorem reads_optional {r : Reader α} {form : α → Pieces} {rest : Bytes} {o : Option α}
    (hr : ∀ a, o = some a → r.Reads (form a) rest a) :
    (optional r).Reads (Pieces.optional form o) rest o := by
  cases o with
  | none => exact Reads.cons (reads_value false) (reads_pure none rest)
  | some a => exact Reads.cons (reads_value true) ((hr a rfl).map some)

theorem reads_timesFrom {r : Reader α} {form : α → Pieces} (hr : ∀ a rest, r.Reads (form a) rest a)
    (as acc : List α) (rest : Bytes) :
    (timesFrom r acc as.length).Reads (as.flatMap form) rest (acc.reverse ++ as) := by
  induction as generalizing acc with
  | nil =>
    rw [List.append_nil]
    exact reads_pure acc.reverse rest
  | cons a as ih =>
    have h := ih (a :: acc)
    rw [List.reverse_cons, List.append_assoc, List.singleton_append] at h
    exact Reads.bind (hr a) h

theorem reads_times {r : Reader α} {form : α → Pieces} (hr : ∀ a rest, r.Reads (form a) rest a)
    (as : List α) (rest : Bytes) : (times as.length r).Reads (as.flatMap form) rest as :=
  reads_timesFrom hr as [] rest

end Reader

end MinecraftWire
