import MinecraftWire.Proofs.Packet.Decoded

/-! Bodies in a version taken as it is. A body that can be written is read back behind any other
bytes, without the fields that the version lacks; a last field that goes on to the end of its
channel takes those bytes in. A body that cannot be written has a text, a byte array or a list of
properties that is too long, or a signature where the version has no place for one. -/

namespace MinecraftWire

/-! ### Pieces that cannot be written -/

namespace Pieces

theorem error_mem_of_bytes {pieces : Pieces} {fault : Fault} (h : pieces.bytes = .error fault) :
    .error fault ∈ pieces := by
  induction pieces with
  | nil => simp at h
  | cons piece pieces ih =>
    rw [bytes_cons] at h
    rcases piece with fault' | front
    · obtain rfl : fault' = fault := Except.error.inj h
      exact List.mem_cons_self
    · refine List.mem_cons_of_mem _ (ih ?_)
      rcases hrest : bytes pieces with fault' | back
      · simpa [hrest, Except.bind, Except.map] using h
      · simp [hrest, Except.bind, Except.map] at h

/-- A form that can be written has no piece that cannot. -/
theorem bytes_eq_ok_exists_iff {pieces : Pieces} :
    (∃ form, pieces.bytes = .ok form) ↔ ∀ fault, .error fault ∉ pieces := by
  constructor
  · rintro ⟨form, hform⟩ fault hmem
    induction pieces generalizing form with
    | nil => exact List.not_mem_nil hmem
    | cons piece pieces ih =>
      obtain ⟨front, back, rfl, hback, -⟩ := bytes_cons_eq_ok_iff.mp hform
      rcases List.mem_cons.mp hmem with hpiece | hmem
      · contradiction
      · exact ih back hback hmem
  · intro h
    rcases hbytes : pieces.bytes with fault | form
    · exact absurd (error_mem_of_bytes hbytes) (h fault)
    · exact ⟨form, rfl⟩

@[simp] theorem error_mem_optional {α : Type} {form : α → Pieces} {o : Option α} {fault : Fault} :
    .error fault ∈ optional form o ↔ ∃ a, o = some a ∧ .error fault ∈ form a := by
  cases o <;> simp [optional]

end Pieces

theorem Text.encode_eq_error_iff {limit : Nat} {s : String} {fault : Fault} :
    Text.encode limit s = .error fault ↔ limit < s.length ∧
      fault = .range ⟨"string", .characters s.length, .number 0, .number limit⟩ := by
  unfold Text.encode
  split
  · rename_i hs
    simp [Nat.not_lt.mpr hs]
  · rename_i hs
    simp [Nat.lt_of_not_le hs, eq_comm]

theorem Blob.encode_eq_error_iff {bytes : Bytes} {fault : Fault} :
    Blob.encode bytes = .error fault ↔ 2 ^ 31 - 1 < bytes.length ∧
      fault = .range ⟨"i32", .number bytes.length, .number (-2 ^ 31), .number (2 ^ 31 - 1)⟩ := by
  unfold Blob.encode narrow narrowAs
  simp only [FixedInteger.lower, FixedInteger.upper]
  split
  · rename_i hs
    simp only [Except.map, reduceCtorEq, false_iff, not_and]
    omega
  · rename_i hs
    have hlong : 2 ^ 31 - 1 < bytes.length := by omega
    simp only [Except.map, Except.error.injEq, hlong, true_and]
    exact eq_comm

namespace Packet

/-! ### What a body carries -/

def propertyTexts (property : Property) : List (Nat × String) :=
  (Text.maxCharacters, property.name) :: (Text.maxCharacters, property.value) ::
    property.signature.toList.map (Text.maxCharacters, ·)

/-- The texts in a body, each with the most characters it may have. The text of a UUID is not among
them: it has its length always. -/
def texts (v : Version) : Packet → List (Nat × String)
  | handshake p => [(maxAddress, p.serverAddress)]
  | statusResponse json => [(Text.maxCharacters, json)]
  | loginStart p => [(maxUsername, p.name)]
  | loginDisconnect reason => [(Text.maxCharacters, reason)]
  | encryptionRequest p => [(maxServerId, p.serverId)]
  | loginSuccess p =>
    (maxUsername, p.username) :: if v.hasProperties then p.properties.flatMap propertyTexts else []
  | loginPluginRequest p => [(Text.maxCharacters, p.channel)]
  | _ => []

/-- The byte arrays in a body that stand behind their length. -/
def blobs (v : Version) : Packet → List Bytes
  | loginStart p =>
    if v.hasSignedLogin then p.signingKey.toList.flatMap fun key => [key.publicKey, key.signature]
    else []
  | encryptionRequest p => [p.publicKey, p.verifyToken]
  | encryptionResponse ⟨secret, .token bytes⟩ => [secret, bytes]
  | encryptionResponse ⟨secret, .signature _ bytes⟩ =>
    if v.hasSignedLogin then [secret, bytes] else [secret]
  | _ => []

/-- What is wrong with a packet whose body cannot be written, and the fault that tells it. -/
inductive Refused (v : Version) : Packet → Fault → Prop where
  | text {p : Packet} {limit : Nat} {s : String} (hs : (limit, s) ∈ p.texts v)
      (hlong : limit < s.length) :
      Refused v p (.range ⟨"string", .characters s.length, .number 0, .number limit⟩)
  | blob {p : Packet} {bytes : Bytes} (hbytes : bytes ∈ p.blobs v)
      (hlong : 2 ^ 31 - 1 < bytes.length) : Refused v p
        (.range ⟨"i32", .number bytes.length, .number (-2 ^ 31), .number (2 ^ 31 - 1)⟩)
  | properties {p : LoginSuccess} (hv : v.hasProperties)
      (hmany : 2 ^ 31 - 1 < p.properties.length) :
      Refused v (loginSuccess p) (.format .tooManyProperties)
  | signature {secret bytes : Bytes} {salt : Int64} (hv : v.number < 759 ∨ 760 < v.number) :
      Refused v (encryptionResponse ⟨secret, .signature salt bytes⟩) (.format (.noSignature v))

theorem not_hasSignedLogin_iff {v : Version} :
    v.hasSignedLogin = false ↔ v.number < 759 ∨ 760 < v.number := by
  simp only [Version.hasSignedLogin, decide_eq_false_iff_not, not_and_or, Int.not_le]

/-! ### Pieces and what they carry -/

section

variable {v : Version} {p : Packet} {fault : Fault}

theorem refused_iff : p.Refused v fault ↔
    (∃ t ∈ p.texts v, .error fault = Text.encode t.1 t.2) ∨
      (∃ bytes ∈ p.blobs v, .error fault = Blob.encode bytes) ∨
      (∃ q, p = loginSuccess q ∧ v.hasProperties ∧ 2 ^ 31 - 1 < q.properties.length ∧
        fault = .format .tooManyProperties) ∨
      ∃ secret salt bytes, p = encryptionResponse ⟨secret, .signature salt bytes⟩ ∧
        v.hasSignedLogin = false ∧ fault = .format (.noSignature v) := by
  constructor
  · rintro (⟨hs, hlong⟩ | ⟨hbytes, hlong⟩ | ⟨hv, hmany⟩ | hv)
    · exact .inl ⟨_, hs, (Text.encode_eq_error_iff.mpr ⟨hlong, rfl⟩).symm⟩
    · exact .inr (.inl ⟨_, hbytes, (Blob.encode_eq_error_iff.mpr ⟨hlong, rfl⟩).symm⟩)
    · exact .inr (.inr (.inl ⟨_, rfl, hv, hmany, rfl⟩))
    · exact .inr (.inr (.inr ⟨_, _, _, rfl, not_hasSignedLogin_iff.mpr hv, rfl⟩))
  · rintro (⟨t, ht, h⟩ | ⟨bytes, hbytes, h⟩ | ⟨q, rfl, hv, hmany, rfl⟩ | ⟨_, _, _, rfl, hv, rfl⟩)
    · obtain ⟨hlong, rfl⟩ := Text.encode_eq_error_iff.mp h.symm
      exact .text ht hlong
    · obtain ⟨hlong, rfl⟩ := Blob.encode_eq_error_iff.mp h.symm
      exact .blob hbytes hlong
    · exact .properties hv hmany
    · exact .signature (not_hasSignedLogin_iff.mp hv)

theorem error_mem_propertyPieces_iff {property : Property} :
    .error fault ∈ propertyPieces property ↔
      ∃ t ∈ propertyTexts property, .error fault = Text.encode t.1 t.2 := by
  cases hsignature : property.signature <;> simp [propertyPieces, propertyTexts, hsignature]

theorem error_mem_properties_iff {properties : List Property} :
    .error fault ∈ properties.flatMap propertyPieces ↔
      ∃ t ∈ properties.flatMap propertyTexts, .error fault = Text.encode t.1 t.2 := by
  simp only [List.mem_flatMap, error_mem_propertyPieces_iff]
  constructor
  · rintro ⟨property, hproperty, t, ht, h⟩
    exact ⟨t, ⟨property, hproperty, ht⟩, h⟩
  · rintro ⟨t, ⟨property, hproperty, ht⟩, h⟩
    exact ⟨property, hproperty, t, ht, h⟩

theorem propertyCount_eq_error_iff {n : Nat} :
    .error fault = propertyCount n ↔ 2 ^ 31 - 1 < n ∧ fault = .format .tooManyProperties := by
  unfold propertyCount
  split <;> simp <;> omega

theorem error_mem_loginStart_iff {p : LoginStart} :
    .error fault ∈ (loginStart p).pieces v ↔ (loginStart p).Refused v fault := by
  rw [refused_iff]
  obtain ⟨name, key, uuid⟩ := p
  cases hv : v.hasSignedLogin <;> cases hu : v.hasLoginUuid <;> cases key <;>
    simp [pieces, texts, blobs, signingKeyPieces, hv, hu]

theorem error_mem_encryptionResponse_iff {p : EncryptionResponse} :
    .error fault ∈ (encryptionResponse p).pieces v ↔ (encryptionResponse p).Refused v fault := by
  rw [refused_iff]
  obtain ⟨secret, _ | ⟨salt, bytes⟩⟩ := p <;> cases hv : v.hasSignedLogin <;>
    simp [pieces, texts, blobs, verificationPieces, hv]

theorem error_mem_loginSuccess_iff {p : LoginSuccess} :
    .error fault ∈ (loginSuccess p).pieces v ↔ (loginSuccess p).Refused v fault := by
  rw [refused_iff]
  obtain ⟨form, huuid⟩ := exists_uuid_eq v p.uuid
  cases hv : v.hasProperties
  · simp [pieces, texts, blobs, huuid, hv]
  · simp only [pieces, texts, blobs, huuid, hv, if_true, List.mem_append, List.mem_cons,
      List.not_mem_nil, reduceCtorEq, false_or, or_false, false_and, exists_false,
      propertyCount_eq_error_iff, error_mem_properties_iff, exists_eq_or_imp,
      loginSuccess.injEq, exists_eq_left', true_and]
    rw [or_assoc, or_comm (a := _ ∧ _)]

/-- A body has a piece that cannot be written just when something is wrong with its packet. -/
theorem error_mem_pieces_iff : .error fault ∈ p.pieces v ↔ p.Refused v fault := by
  cases p with
  | loginStart p => exact error_mem_loginStart_iff
  | encryptionResponse p => exact error_mem_encryptionResponse_iff
  | loginSuccess p => exact error_mem_loginSuccess_iff
  | _ =>
    rw [refused_iff]
    simp [pieces, texts, blobs]

end

/-! ### Bodies -/

/-- In every version a body that can be written is read back by the reader of its packet's kind,
behind whatever bytes, without the fields that the version has no place for; all bytes behind it are
left, or taken in by a last field that goes on to the end. A body can be written unless something is
wrong with its packet, and the fault tells what. -/
theorem body_reads_back_or_refused (v : Version) (p : Packet) :
    (∀ form rest, p.body v = .ok form → (p.kind.body v).run (form ++ rest) =
      (.ok ((p.absorb rest).erase v), if p.Absorbs then [] else rest)) ∧
      (∀ fault, p.body v = .error fault → p.Refused v fault) ∧
      ((∃ form, p.body v = .ok form) ↔ ∀ fault, ¬ p.Refused v fault) := by
  refine ⟨fun form rest h => run_body h rest, fun fault h => ?_, ?_⟩
  · exact error_mem_pieces_iff.mp (Pieces.error_mem_of_bytes h)
  · rw [body, Pieces.bytes_eq_ok_exists_iff]
    exact forall_congr' fun fault => not_congr error_mem_pieces_iff

/-- Version 50 has no place for the UUID of a login start; the data of a plugin response takes in
what stands behind it; and a name of seventeen characters is refused. -/
theorem body_reads_back_or_refused_samples :
    (PacketKind.loginStart.body ⟨50⟩).run [2, 97, 98, 7] =
        (.ok (.loginStart ⟨"ab", none, none⟩), [7]) ∧
      (PacketKind.loginPluginResponse.body ⟨50⟩).run [5, 1, 8, 7] =
        (.ok (.loginPluginResponse ⟨5, some [8, 7]⟩), []) ∧
      (loginStart ⟨"aaaaaaaaaaaaaaaaa", none, none⟩).Refused ⟨50⟩
        (.range ⟨"string", .characters 17, .number 0, .number 16⟩) := by
  have hstart := (body_reads_back_or_refused ⟨50⟩ (loginStart ⟨"ab", none, some 3⟩)).1
  have hresponse := (body_reads_back_or_refused ⟨50⟩ (loginPluginResponse ⟨5, some [8]⟩)).1
  have hlong := (body_reads_back_or_refused ⟨50⟩ (loginStart ⟨"aaaaaaaaaaaaaaaaa", none, none⟩)).2.1
  exact ⟨hstart [2, 97, 98] [7] (by decide +kernel), hresponse [5, 1, 8] [7] (by decide +kernel),
    hlong _ (by decide +kernel)⟩

end Packet

end MinecraftWire
