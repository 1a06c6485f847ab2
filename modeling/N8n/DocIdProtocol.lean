import N8n.Utf8Text

/-! The messages between worker and frontend: a type byte, the byte length of the
document id as a big-endian 16-bit number, the id in UTF-8, the payload. Messages to
the server have no document id. -/

namespace N8n.DocIdProtocol

open List Utf8Text Nat

def encodeMessage (messageType : ℕ) (payload : List UInt8) : List UInt8 :=
  UInt8.ofNat messageType :: payload

structure Message where
  messageType : ℕ
  payload : List UInt8
  deriving DecidableEq

def decodeMessage : List UInt8 → Except String Message
  | [] => .error "Empty message"
  | messageType :: payload => .ok ⟨messageType.toNat, payload⟩

def encodeWithDocId (messageType : ℕ) (docId : String) (payload : List UInt8) : List UInt8 :=
  let docIdBytes := Utf8Text.encode docId
  let docIdLen := docIdBytes.length
  [UInt8.ofNat messageType, UInt8.ofNat ((docIdLen >>> 8) &&& 0xff),
    UInt8.ofNat (docIdLen &&& 0xff)] ++ docIdBytes ++ payload

structure DocMessage where
  messageType : ℕ
  docId : String
  payload : List UInt8
  deriving DecidableEq

def readDocIdLen (high low : UInt8) : ℕ := (high.toNat <<< 8) ||| low.toNat

def decodeWithDocId : List UInt8 → Except String DocMessage
  | messageType :: high :: low :: rest =>
    let docIdLen := readDocIdLen high low
    if rest.length < docIdLen then .error "Message too short for declared docId length"
    else
      .ok ⟨messageType.toNat, Utf8Text.decode (rest.take docIdLen), rest.drop docIdLen⟩
  | _ => .error "Message too short to contain docId"

def stripDocId (data : List UInt8) : Except String (List UInt8) := do
  let { messageType, payload, .. } ← decodeWithDocId data
  return encodeMessage messageType payload

def addDocId (docId : String) (data : List UInt8) : Except String (List UInt8) := do
  let { messageType, payload } ← decodeMessage data
  return encodeWithDocId messageType docId payload

/-- The bytes that a message declares to be its document id. -/
def docIdBytes : List UInt8 → List UInt8
  | _ :: high :: low :: rest => rest.take (readDocIdLen high low)
  | _ => []

theorem readDocIdLen_eq (high low : UInt8) : readDocIdLen high low = high.toNat * 256 + low.toNat := by
  have small : low.toNat < 2 ^ 8 := low.toNat_lt
  rw [readDocIdLen, ← shiftLeft_add_eq_or_of_lt small, shiftLeft_eq]

/-- The length field keeps the length modulo its 16 bits. -/
theorem readDocIdLen_written (docIdLen : ℕ) :
    readDocIdLen (UInt8.ofNat ((docIdLen >>> 8) &&& 0xff)) (UInt8.ofNat (docIdLen &&& 0xff)) =
      docIdLen % 65536 := by
  have byte (n : ℕ) : n &&& 0xff = n % 256 := and_two_pow_sub_one_eq_mod n 8
  rw [readDocIdLen_eq, byte, byte, shiftRight_eq_div_pow, toNat_ofNat_of_lt (mod_lt _ (by omega)),
    toNat_ofNat_of_lt (mod_lt _ (by omega))]
  omega

section Written

variable (messageType : UInt8) (docId : String) (payload : List UInt8)

theorem decodeWithDocId_encodeWithDocId : decodeWithDocId (encodeWithDocId messageType.toNat docId payload) =
      .ok ⟨messageType.toNat, decode ((encode docId).take ((encode docId).length % 65536)),
        (encode docId).drop ((encode docId).length % 65536) ++ payload⟩ := by
  have within : (encode docId).length % 65536 ≤ (encode docId).length :=
    mod_le _ _
  simp only [encodeWithDocId, cons_append, nil_append, decodeWithDocId,
    readDocIdLen_written, UInt8.ofNat_toNat]
  rw [if_neg (by rw [length_append]; omega), take_append_of_le_length within,
    drop_append_of_le_length within]

theorem addDocId_encodeMessage : addDocId docId (encodeMessage messageType.toNat payload) =
      .ok (encodeWithDocId messageType.toNat docId payload) := by
  simp only [addDocId, encodeMessage, decodeMessage, UInt8.ofNat_toNat]
  rfl

theorem stripDocId_encodeWithDocId : stripDocId (encodeWithDocId messageType.toNat docId payload) =
      .ok (encodeMessage messageType.toNat
        ((encode docId).drop ((encode docId).length % 65536) ++ payload)) := by
  rw [stripDocId, decodeWithDocId_encodeWithDocId]
  rfl

end Written

/-- The laws of one message: it is read back, stripped and wrapped again. -/
structure RoundTrips (messageType : UInt8) (docId : String) (payload : List UInt8) : Prop where
  decoded : decodeWithDocId (encodeWithDocId messageType.toNat docId payload) = .ok ⟨messageType.toNat, docId, payload⟩
  stripped : stripDocId (encodeWithDocId messageType.toNat docId payload) =
    .ok (encodeMessage messageType.toNat payload)
  wrapped : addDocId docId (encodeMessage messageType.toNat payload) =
    .ok (encodeWithDocId messageType.toNat docId payload)

/-- The id fits the length field and does not begin with a byte order mark. -/
def Transmissible (docId : String) : Prop :=
  (Utf8Text.encode docId).length < 65536 ∧ docId.toList.head? ≠ some Utf8Text.byteOrderMark
variable {docId : String} {messageType : UInt8} {payload : List UInt8}

theorem roundTrips_of_transmissible (messageType : UInt8) (payload : List UInt8) (h : Transmissible docId) :
    RoundTrips messageType docId payload := by
  obtain ⟨fits, unmarked⟩ := h
  refine ⟨?_, ?_, addDocId_encodeMessage messageType docId payload⟩
  · rw [decodeWithDocId_encodeWithDocId, mod_eq_of_lt fits, take_length,
      drop_length, (decode_encode_eq_iff docId).mpr unmarked, nil_append]
  · rw [stripDocId_encodeWithDocId, mod_eq_of_lt fits, drop_length, nil_append]

/-- An id that does not fit leaves bytes of its own at the front of the payload. -/
theorem fits_of_decoded (decoded : decodeWithDocId (encodeWithDocId messageType.toNat docId payload) =
      .ok ⟨messageType.toNat, docId, payload⟩) : (encode docId).length < 65536 := by
  rw [decodeWithDocId_encodeWithDocId] at decoded
  simp only [Except.ok.injEq, DocMessage.mk.injEq, true_and] at decoded
  have lengths := congrArg List.length decoded.2
  rw [length_append, length_drop] at lengths
  omega

theorem transmissible_of_decoded (decoded : decodeWithDocId (encodeWithDocId messageType.toNat docId payload) =
      .ok ⟨messageType.toNat, docId, payload⟩) : Transmissible docId := by
  have fits := fits_of_decoded decoded
  refine ⟨fits, (decode_encode_eq_iff docId).mp ?_⟩
  rw [decodeWithDocId_encodeWithDocId, mod_eq_of_lt fits, take_length] at decoded
  simp only [Except.ok.injEq, DocMessage.mk.injEq, true_and] at decoded
  exact decoded.1

theorem encodeWithDocId_decoded {data : List UInt8} {message : DocMessage}
    (accepted : decodeWithDocId data = .ok message) (valid : docIdBytes data = encode docId)
    (unmarked : docId.toList.head? ≠ some byteOrderMark) :
    encodeWithDocId message.messageType message.docId message.payload = data := by
  match data, accepted, valid with
  | messageType :: high :: low :: rest, accepted, valid =>
    simp only [decodeWithDocId] at accepted
    split_ifs at accepted with short
    have message_eq := Except.ok.inj accepted
    simp only [docIdBytes] at valid
    rw [valid, (decode_encode_eq_iff docId).mpr unmarked] at message_eq
    have length_eq : (encode docId).length = readDocIdLen high low := by
      rw [← valid, length_take]
      omega
    have high_small : high.toNat < 256 := high.toNat_lt
    have low_small : low.toNat < 256 := low.toNat_lt
    have high_eq : readDocIdLen high low / 256 % 256 = high.toNat := by
      rw [readDocIdLen_eq]
      omega
    have low_eq : readDocIdLen high low % 256 = low.toNat := by
      rw [readDocIdLen_eq]
      omega
    have byte (n : ℕ) : n &&& 0xff = n % 256 := and_two_pow_sub_one_eq_mod n 8
    subst message_eq
    simp only [encodeWithDocId, length_eq, byte, shiftRight_eq_div_pow, UInt8.ofNat_toNat]
    rw [high_eq, low_eq, UInt8.ofNat_toNat, UInt8.ofNat_toNat, ← valid]
    simp only [cons_append, nil_append, take_append_drop]

/-- The laws of the worker format, with the exact condition on the document id. -/
theorem docIdProtocol_roundTrips (messageType : UInt8) (docId : String) (payload : List UInt8) :
    (RoundTrips messageType docId payload ↔ Transmissible docId) ∧
    ∀ (data : List UInt8) (message : DocMessage), decodeWithDocId data = .ok message →
      ∀ docId : String, docIdBytes data = Utf8Text.encode docId →
        docId.toList.head? ≠ some Utf8Text.byteOrderMark →
        encodeWithDocId message.messageType message.docId message.payload = data := by
  refine ⟨⟨fun h => transmissible_of_decoded h.decoded, ?_⟩, ?_⟩
  · exact roundTrips_of_transmissible messageType payload
  · intro data message accepted docId valid unmarked
    exact encodeWithDocId_decoded accepted valid unmarked

theorem encode_replicate (n : ℕ) : encode (String.ofList (List.replicate n 'a')) = List.replicate n 97 := by
  rw [encode, String.toList_ofList]
  induction n with
  | zero => rfl
  | succ n ih => rw [replicate_succ, flatMap_cons, ih, replicate_succ]; rfl

/-- An id of 65536 letters is written with length zero. -/
theorem long_docId_lost : ¬ ∀ (messageType : UInt8) (docId : String) (payload : List UInt8),
      RoundTrips messageType docId payload := by
  intro laws
  have fits := fits_of_decoded (laws 0 (String.ofList (List.replicate 65536 'a')) []).decoded
  rw [encode_replicate, length_replicate] at fits
  exact absurd fits (Nat.lt_irrefl 65536)

end N8n.DocIdProtocol
