import Vespa.Wire

/-!
# The message writer (`event.c`)

`WriteMessage` and the four payload writers. They append to a BSON
document and ignore whether the append succeeded; they read the payload
through the pointers and lengths of the message object, so each can leave
defined behaviour when those describe no buffer.

`writeMessage_eq` reduces the whole writer to its payload writer, for
messages that fit; `writePayload_of_payload?` says what each payload
writer makes of a payload whose pointers are good. The topic is the odd
one out: it is written as a C string, not by its length.
-/

namespace Vespa

open Bson

/-! ## The writers -/

/-- `BSON_APPEND_BINARY` of an array field, whose length parameter is a
`uint32_t`. -/
def appendBinary (B : List Element) (key : List UInt8) (data dataLen : Word) :
    Except Halt (List Element) := do
  let len ← dataLen.toInt
  let bytes ← data.read (len.setWidth 32).toNat
  return bsonAppend B key (.binary subtypeBinary bytes)

/-- `WriteEvent`: `BSON_APPEND_UTF8` takes the length from `strlen`. -/
def writeEvent (p : Event) (B : List Element) : Except Halt (List Element) := do
  let topic ← p.topic.cstr
  return bsonAppend B topicKey (.utf8 topic)

def writePing (p : Ping) (B : List Element) : Except Halt (List Element) :=
  appendBinary B digestKey p.digest p.digestLen

def writePong (p : Pong) (B : List Element) : Except Halt (List Element) :=
  appendBinary B digestKey p.digest p.digestLen

/-- `WriteError`: `BSON_APPEND_INT32` narrows the 64-bit code. -/
def writeError (p : Error) (B : List Element) : Except Halt (List Element) := do
  let code ← p.code.toInt
  let B := bsonAppend B codeKey (.int32 (code.setWidth 32))
  appendBinary B messageKey p.message p.messageLen

def writePayload (p : Message) : Kind → List Element → Except Halt (List Element)
  | .ping => writePing p.ping
  | .pong => writePong p.pong
  | .event => writeEvent p.event
  | .error => writeError p.error

def writeMessage (p : Message) (B : List Element) : Except Halt (List Element) := do
  let B := bsonAppend B kindKey (.int32 p.kind)
  let B := bsonAppend B timestampKey (.int64 p.timestamp)
  match Kind.ofCode? p.kind with
  | some k =>
    let data ← writePayload p k []
    return bsonAppend B dataKey (.document (encodeDoc data))
  | none => throw (.exit 1)

/-! ## What they write -/

theorem length_envelope (c : BitVec 32) (t : BitVec 64) :
    (encodeDoc [⟨kindKey, .int32 c⟩, ⟨timestampKey, .int64 t⟩]).length = 34 := by
  have hkind := length_element kindKey (.int32 c)
  have hstamp := length_element timestampKey (.int64 t)
  have h4 : kindKey.length = 4 := rfl
  have h9 : timestampKey.length = 9 := rfl
  simp only [Value.type, length_int32, h4] at hkind
  simp only [Value.type, length_int64, h9] at hstamp
  rw [length_encodeDoc]
  simp only [packed, List.flatMap_cons, List.flatMap_nil, List.length_append,
    List.length_nil]
  omega

/-- The writer, for a message of kind `k`: the envelope, then whatever the
payload writer made. -/
theorem writeMessage_kind {m : Message} {k : Kind} (hk : m.kind = k.code) :
    writeMessage m [] = (writePayload m k []).map fun data =>
      bsonAppend [⟨kindKey, .int32 k.code⟩, ⟨timestampKey, .int64 m.timestamp⟩]
        dataKey (.document (encodeDoc data)) := by
  have henv := length_envelope k.code m.timestamp
  have hfit : 34 ≤ maxSize := by decide
  have hone := length_encodeDoc_le_append [⟨kindKey, .int32 k.code⟩]
    [⟨timestampKey, .int64 m.timestamp⟩]
  simp only [List.cons_append, List.nil_append] at hone
  have h1 : bsonAppend [] kindKey (.int32 k.code) = [⟨kindKey, .int32 k.code⟩] :=
    bsonAppend_of_fits (by simp only [List.nil_append]; omega)
  have h2 : bsonAppend [⟨kindKey, .int32 k.code⟩] timestampKey (.int64 m.timestamp)
      = [⟨kindKey, .int32 k.code⟩, ⟨timestampKey, .int64 m.timestamp⟩] :=
    bsonAppend_of_fits (by simp only [List.cons_append, List.nil_append]; omega)
  simp only [writeMessage, hk, Kind.ofCode?_code, h1, h2]
  cases writePayload m k [] <;> simp only [bind, Except.bind, pure, Except.pure, Except.map]

/-- **The writer on messages that fit** emits the format's document around what
the payload writer made. -/
theorem writeMessage_eq {m : Message} {k : Kind} {data : List Element}
    (hk : m.kind = k.code) (hdata : writePayload m k [] = .ok data)
    (hfits : (encodeDoc (messageFields k (.int64 m.timestamp) data)).length ≤ maxSize) :
    writeMessage m [] = .ok (messageFields k (.int64 m.timestamp) data) := by
  have happ : bsonAppend [⟨kindKey, .int32 k.code⟩, ⟨timestampKey, .int64 m.timestamp⟩]
      dataKey (.document (encodeDoc data)) = messageFields k (.int64 m.timestamp) data :=
    bsonAppend_of_fits hfits
  rw [writeMessage_kind hk, hdata]
  simp only [Except.map, happ]

theorem appendBinary_of_bytes? {B : List Element} {key : List UInt8} {data len : Word}
    {bs : List UInt8} (h : Word.bytes? data len = some bs)
    (hfits : (encodeDoc (B ++ [⟨key, .binary subtypeBinary bs⟩])).length ≤ maxSize) :
    appendBinary B key data len = .ok (B ++ [⟨key, .binary subtypeBinary bs⟩]) := by
  obtain ⟨buf, n, rfl, rfl, hn, rfl⟩ := Word.bytes?_eq_some.mp h
  have hlen : (buf.take n.toNat).length = n.toNat := List.length_take_of_le hn
  have hsmall : n.toNat < 2 ^ 32 := by
    have hel := length_element key (.binary subtypeBinary (buf.take n.toNat))
    simp only [Value.type, length_binary, hlen] at hel
    rw [length_encodeDoc] at hfits
    simp only [packed, List.flatMap_append, List.flatMap_cons, List.flatMap_nil,
      List.length_append, List.length_nil, maxSize] at hfits
    omega
  have hwidth : (n.setWidth 32).toNat = n.toNat := by
    rw [BitVec.toNat_setWidth, Nat.mod_eq_of_lt hsmall]
  simp only [appendBinary, Word.toInt, Word.read, bind, Except.bind, hwidth, if_pos hn,
    bsonAppend_of_fits hfits, pure, Except.pure]

/-- **The payload writers on good payloads**, topics apart: the fields of the
format, with the bytes the length describes. -/
theorem writePayload_of_payload? {m : Message} {p : Payload} (h : m.payload? = some p)
    (hkind : p.kind ≠ .event) (hfits : (encodeDoc (payloadFields p)).length ≤ maxSize) :
    writePayload m p.kind [] = .ok (payloadFields p) := by
  unfold Message.payload? at h
  split at h
  case h_5 => cases h
  case h_1 =>
    obtain ⟨t, -, rfl⟩ := Option.map_eq_some_iff.mp h
    exact absurd rfl hkind
  case h_2 =>
    split at h
    · rename_i code hcode
      obtain ⟨msg, hmsg, rfl⟩ := Option.map_eq_some_iff.mp h
      have hB : bsonAppend [] codeKey (.int32 (code.setWidth 32))
          = [⟨codeKey, .int32 (code.setWidth 32)⟩] := by
        refine bsonAppend_of_fits (Nat.le_trans ?_ hfits)
        exact length_encodeDoc_le_append [⟨codeKey, .int32 (code.setWidth 32)⟩]
          [⟨messageKey, .binary subtypeBinary msg⟩]
      have happ : appendBinary [⟨codeKey, .int32 (code.setWidth 32)⟩] messageKey
          m.error.message m.error.messageLen = .ok (payloadFields (.error code msg)) :=
        appendBinary_of_bytes? hmsg hfits
      show writeError m.error [] = _
      simp only [writeError, hcode, Word.toInt, bind, Except.bind, hB, happ]
    · cases h
  case h_3 | h_4 =>
    obtain ⟨d, hd, rfl⟩ := Option.map_eq_some_iff.mp h
    exact appendBinary_of_bytes? (B := []) hd hfits

theorem writePayload_event (m : Message) :
    writePayload m .event [] = m.word0.cstr.map fun s => bsonAppend [] topicKey (.utf8 s) := by
  show writeEvent m.event [] = _
  simp only [writeEvent, Message.event]
  cases m.word0.cstr <;> simp only [bind, Except.bind, pure, Except.pure, Except.map]

end Vespa
