import Vespa.Message

/-!
# The message format on the wire

Both writers of the repository, `WriteMessage` in C and the anonymous
structs `sendPing`/`sendEvent` marshal in Go, emit one shape of document:
`kind`, `timestamp` and `data` in this order, with the payload's own fields
inside `data`. `messageFields` is that shape, over any timestamp value,
because the two writers disagree about its type.

The facts about the format that the readers and writers share are here:
its size, that its elements are ones BSON can carry, and what `bson_validate`
makes of it. `WireMessage` is a document of this shape that fits and passes
validation, so none of that is proved again above.
-/

namespace Vespa

open Bson

/-! ## Keys -/

def kindKey : List UInt8 := ascii "kind"
def timestampKey : List UInt8 := ascii "timestamp"
def dataKey : List UInt8 := ascii "data"
def topicKey : List UInt8 := ascii "topic"
def digestKey : List UInt8 := ascii "digest"
def codeKey : List UInt8 := ascii "code"
def messageKey : List UInt8 := ascii "message"

theorem timestampKey_ne : timestampKey ≠ kindKey := by decide

theorem dataKey_ne : dataKey ≠ kindKey ∧ dataKey ≠ timestampKey := by decide

/-! ## The shape of a message document -/

/-- The fields of `data`. The error code travels as an int32. -/
def payloadFields : Payload → List Element
  | .event topic => [⟨topicKey, .utf8 topic⟩]
  | .error code message =>
    [⟨codeKey, .int32 (code.setWidth 32)⟩, ⟨messageKey, .binary subtypeBinary message⟩]
  | .ping digest => [⟨digestKey, .binary subtypeBinary digest⟩]
  | .pong digest => [⟨digestKey, .binary subtypeBinary digest⟩]

def messageFields (k : Kind) (stamp : Value) (data : List Element) : List Element :=
  [⟨kindKey, .int32 k.code⟩, ⟨timestampKey, stamp⟩, ⟨dataKey, .document (encodeDoc data)⟩]

inductive IsStamp : Value → Prop where
  | int64 (w : BitVec 64) : IsStamp (.int64 w)
  | dateTime (w : BitVec 64) : IsStamp (.dateTime w)

def Payload.bytes : Payload → List UInt8
  | .event bs | .error _ bs | .ping bs | .pong bs => bs

/-- The strings of a payload that validation looks at. -/
def Payload.texts : Payload → List (List UInt8)
  | .event topic => [topic]
  | _ => []

/-! ## Sizes -/

theorem length_stamp {v : Value} (h : IsStamp v) : ((valueOf v.type).encode v).length = 8 := by
  cases h with
  | int64 w => exact length_int64 w
  | dateTime w => exact length_dateTime w

theorem length_messageFields (k : Kind) {stamp : Value} (hs : IsStamp stamp)
    (data : List Element) :
    (encodeDoc (messageFields k stamp data)).length = (encodeDoc data).length + 40 := by
  have hkind := length_element kindKey (.int32 k.code)
  have hstamp := length_element timestampKey stamp
  have hdata := length_element dataKey (.document (encodeDoc data))
  have h4 : kindKey.length = 4 := rfl
  have h9 : timestampKey.length = 9 := rfl
  have h4' : dataKey.length = 4 := rfl
  simp only [Value.type, length_int32, h4] at hkind
  simp only [length_stamp hs, h9] at hstamp
  simp only [Value.type, length_document, h4'] at hdata
  rw [length_encodeDoc (messageFields k stamp data)]
  simp only [messageFields, packed, List.flatMap_cons, List.flatMap_nil,
    List.length_append, List.length_nil]
  omega

theorem length_digestFields (d : List UInt8) :
    (encodeDoc [⟨digestKey, .binary subtypeBinary d⟩]).length = d.length + 18 := by
  have h := length_element digestKey (.binary subtypeBinary d)
  have h6 : digestKey.length = 6 := rfl
  simp only [Value.type, length_binary, h6] at h
  rw [length_encodeDoc]
  simp only [packed, List.flatMap_cons, List.flatMap_nil, List.length_append,
    List.length_nil]
  omega

theorem length_topicFields (t : List UInt8) :
    (encodeDoc [⟨topicKey, .utf8 t⟩]).length = t.length + 17 := by
  have h := length_element topicKey (.utf8 t)
  have h5 : topicKey.length = 5 := rfl
  simp only [Value.type, length_utf8, h5] at h
  rw [length_encodeDoc]
  simp only [packed, List.flatMap_cons, List.flatMap_nil, List.length_append,
    List.length_nil]
  omega

theorem length_bytes_lt (p : Payload) : p.bytes.length < (encodeDoc (payloadFields p)).length := by
  cases p with
  | event t =>
      have := length_topicFields t
      simp only [payloadFields, Payload.bytes]
      omega
  | error code msg =>
      have h := length_element messageKey (.binary subtypeBinary msg)
      simp only [Value.type, length_binary] at h
      rw [length_encodeDoc]
      simp only [payloadFields, Payload.bytes, packed, List.flatMap_cons,
        List.flatMap_nil, List.length_append, List.length_nil]
      omega
  | ping d | pong d =>
      have := length_digestFields d
      simp only [payloadFields, Payload.bytes]
      omega

/-! ## Validity -/

theorem valid_stamp {v : Value} (h : IsStamp v) : (valueOf v.type).Valid v := by
  cases h with
  | int64 w => exact valid_int64 w
  | dateTime w => exact valid_dateTime w

theorem nul_not_mem_keys : ∀ key ∈ [kindKey, timestampKey, dataKey, topicKey, digestKey,
    codeKey, messageKey], (0 : UInt8) ∉ key := by
  decide

theorem textOK_keys (lib : Libbson) : ∀ key ∈ [kindKey, timestampKey, dataKey, topicKey,
    digestKey, codeKey, messageKey], lib.textOK key = true := by
  have hascii : ∀ key ∈ [kindKey, timestampKey, dataKey, topicKey, digestKey,
      codeKey, messageKey], ∀ b ∈ key, b < 128 := by decide +kernel
  exact fun key hkey => lib.textOK_ascii key (hascii key hkey)

theorem valid_messageFields {k : Kind} {stamp : Value} (hs : IsStamp stamp)
    {data : List Element} (hdata : (encodeDoc data).length ≤ maxSize) :
    ∀ e ∈ messageFields k stamp data, e.Valid := by
  intro e he
  simp only [messageFields, List.mem_cons, List.not_mem_nil, or_false] at he
  rcases he with rfl | rfl | rfl
  · exact ⟨nul_not_mem_keys kindKey (by simp), valid_int32 _⟩
  · exact ⟨nul_not_mem_keys timestampKey (by simp), valid_stamp hs⟩
  · exact ⟨nul_not_mem_keys dataKey (by simp), valid_document hdata⟩

theorem valid_payloadFields {p : Payload} (h : p.bytes.length < maxSize) :
    ∀ e ∈ payloadFields p, e.Valid := by
  intro e he
  cases p with
  | event t =>
      simp only [payloadFields, List.mem_singleton] at he
      subst he
      exact ⟨nul_not_mem_keys topicKey (by simp), valid_utf8 h⟩
  | error code msg =>
      simp only [payloadFields, List.mem_cons, List.not_mem_nil, or_false] at he
      rcases he with rfl | rfl
      · exact ⟨nul_not_mem_keys codeKey (by simp), valid_int32 _⟩
      · exact ⟨nul_not_mem_keys messageKey (by simp), valid_binary h⟩
  | ping d | pong d =>
      simp only [payloadFields, List.mem_singleton] at he
      subst he
      exact ⟨nul_not_mem_keys digestKey (by simp), valid_binary h⟩

/-- Validation of a payload's fields looks at its strings; none of them embeds
a document. -/
theorem all_payloadFields (lib : Libbson) (f : List UInt8 → Bool) (p : Payload) :
    ((payloadFields p).all fun e => lib.textOK e.key
      && e.value.texts.all lib.textOK && e.value.documents.all f)
      = p.texts.all lib.textOK := by
  have hkeys := textOK_keys lib
  cases p <;>
    simp [payloadFields, Payload.texts, Value.texts, Value.documents,
      hkeys topicKey, hkeys codeKey, hkeys messageKey, hkeys digestKey]

/-- What `bson_validate` makes of a message document: it looks at the topic. -/
theorem bsonValidate_messageFields {lib : Libbson} {k : Kind} {stamp : Value}
    (hs : IsStamp stamp) {p : Payload}
    (hsize : (encodeDoc (messageFields k stamp (payloadFields p))).length ≤ maxSize) :
    bsonValidate lib (encodeDoc (messageFields k stamp (payloadFields p)))
      = p.texts.all lib.textOK := by
  have hlen := length_messageFields k hs (payloadFields p)
  have hinner : (encodeDoc (payloadFields p)).length ≤ maxSize := by omega
  have hbytes := length_bytes_lt p
  obtain ⟨d, hd⟩ := lib.exists_depth
  have hnested : valid lib.textOK (d + 1) (encodeDoc (payloadFields p))
      = p.texts.all lib.textOK := by
    rw [valid_encodeDoc (valid_payloadFields (by omega)) hinner]
    exact all_payloadFields lib _ p
  have hkeys := textOK_keys lib
  rw [bsonValidate, hd, valid_encodeDoc (valid_messageFields hs hinner) hsize]
  cases hs <;>
    simp [messageFields, Value.texts, Value.documents, hnested, hkeys kindKey,
      hkeys timestampKey, hkeys dataKey]

/-! ## Well-formed message documents -/

/-- A document of the format that fits and whose text libbson accepts. -/
structure WireMessage (lib : Libbson) where
  stamp : Value
  payload : Payload
  isStamp : IsStamp stamp
  fits : (encodeDoc (messageFields payload.kind stamp (payloadFields payload))).length ≤ maxSize
  textOK : payload.texts.all lib.textOK = true

namespace WireMessage

variable {lib : Libbson}

def bytes (w : WireMessage lib) : List UInt8 :=
  encodeDoc (messageFields w.payload.kind w.stamp (payloadFields w.payload))

/-- The message it spells, with the timestamp as `bson_iter_int64` reads it. -/
def decoded (w : WireMessage lib) : Decoded := ⟨iterInt64 w.stamp, w.payload⟩

theorem headerOK_bytes (w : WireMessage lib) : headerOK w.bytes = true :=
  headerOK_encodeDoc w.fits

theorem bytes_ne_nil (w : WireMessage lib) : w.bytes ≠ [] := by
  intro h
  have h5 := (headerOK_iff.mp w.headerOK_bytes).1
  rw [h] at h5
  cases h5

theorem bsonValidate_bytes (w : WireMessage lib) : bsonValidate lib w.bytes = true := by
  rw [bytes, bsonValidate_messageFields w.isStamp w.fits, w.textOK]

theorem length_inner_le (w : WireMessage lib) :
    (encodeDoc (payloadFields w.payload)).length ≤ maxSize := by
  have hlen := length_messageFields w.payload.kind w.isStamp (payloadFields w.payload)
  have := w.fits
  omega

theorem length_payload_lt (w : WireMessage lib) : w.payload.bytes.length < maxSize :=
  Nat.lt_of_lt_of_le (length_bytes_lt w.payload) w.length_inner_le

theorem fields_bytes (w : WireMessage lib) :
    fields w.bytes = messageFields w.payload.kind w.stamp (payloadFields w.payload) :=
  fields_encodeDoc (valid_messageFields w.isStamp w.length_inner_le)

theorem fields_data (w : WireMessage lib) :
    fields (encodeDoc (payloadFields w.payload)) = payloadFields w.payload :=
  fields_encodeDoc (valid_payloadFields w.length_payload_lt)

end WireMessage

def smallPing : WireMessage .lenient := ⟨.int64 12937, .ping [7], .int64 _, by decide, rfl⟩

end Vespa
