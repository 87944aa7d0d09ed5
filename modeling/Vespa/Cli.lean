import Vespa.EventRead

/-!
# The command-line client (`main.go`, `message.go`)

The Go side of the format: the two documents the client writes, and the
reader that frames and decodes what comes back. Go's BSON package lies
outside the repository. What it writes for the four types the client's
structs use is its documented encoding, and is part of the definitions; what
it does with a document it is asked to decode is a parameter, `GoBson`, of
which only this is known: a document made of exactly the fields of the
struct, each of a type the field decodes from, decodes to their values.

`Agrees` is the question between the two programs: the C reader takes the
client's document for the message the client meant.
-/

namespace Vespa

open Bson

/-! ## Go values -/

/-- `time.Time`: seconds since the epoch, and nanoseconds into the second. -/
structure GoTime where
  sec : Int
  nsec : Nat
  nsec_lt : nsec < 1000000000
deriving DecidableEq, Repr

/-- Milliseconds since the epoch, in the 64 bits of a BSON datetime. -/
def GoTime.millis (t : GoTime) : BitVec 64 := BitVec.ofInt 64 (t.sec * 1000 + t.nsec / 1000000)

/-- The encoding of a `[]byte`: binary data of subtype 0, null for nil. -/
def goBytes : Option (List UInt8) → Value
  | some bs => .binary subtypeBinary bs
  | none => .null

/-- The zero `time.Time`: the start of the year 1. -/
def GoTime.zero : GoTime := ⟨-62135596800, 0, Nat.zero_lt_succ _⟩

/-! ## Writing -/

/-- The document `bson.Marshal` makes of the client's anonymous structs. -/
def goDocument (k : Kind) (t : GoTime) (data : List Element) : List UInt8 :=
  encodeDoc (messageFields k (.dateTime t.millis) data)

def sendPing (t : GoTime) (digest : Option (List UInt8)) : List UInt8 :=
  goDocument .ping t [⟨digestKey, goBytes digest⟩]

def sendEvent (t : GoTime) (topic : List UInt8) : List UInt8 :=
  goDocument .event t [⟨topicKey, .utf8 topic⟩]

/-! ## Reading -/

/-- `ipc.Message`. -/
structure GoMessage where
  kind : BitVec 32
  timestamp : GoTime
  data : List UInt8
deriving DecidableEq, Repr

structure PongPayload where
  digest : Option (List UInt8)
deriving DecidableEq, Repr

/-- `bson.Unmarshal` into the two structs the client decodes. -/
structure GoBson where
  unmarshalMessage : List UInt8 → Option GoMessage
  unmarshalPong : List UInt8 → Option PongPayload
  /-- `time.Time` decodes from an int64, milliseconds like a datetime's. -/
  timeOfInt64 : BitVec 64 → GoTime
  unmarshalMessage_fields : ∀ (k : Kind) (t : BitVec 64) (data : List Element),
    (encodeDoc (messageFields k (.int64 t) data)).length ≤ maxSize →
    unmarshalMessage (encodeDoc (messageFields k (.int64 t) data))
      = some ⟨k.code, timeOfInt64 t, encodeDoc data⟩
  unmarshalPong_fields : ∀ digest : List UInt8,
    (encodeDoc [⟨digestKey, .binary subtypeBinary digest⟩]).length ≤ maxSize →
    unmarshalPong (encodeDoc [⟨digestKey, .binary subtypeBinary digest⟩]) = some ⟨some digest⟩

def GoTime.ofMillis (t : BitVec 64) : GoTime where
  sec := t.toInt / 1000
  nsec := (t.toInt % 1000).toNat * 1000000
  nsec_lt := by omega

def decodeField (m : GoMessage) (e : Element) : Option GoMessage :=
  if e.key = kindKey then
    match e.value with
    | .int32 k => some { m with kind := k }
    | _ => none
  else if e.key = timestampKey then
    match e.value with
    | .int64 t | .dateTime t => some { m with timestamp := .ofMillis t }
    | _ => none
  else if e.key = dataKey then
    (iterDocument e.value).map fun raw => { m with data := raw }
  else some m

def decodePongField (p : PongPayload) (e : Element) : Option PongPayload :=
  if e.key = digestKey then
    match e.value with
    | .binary _ d => some { p with digest := some d }
    | .null => some { p with digest := none }
    | _ => none
  else some p

/-- `bson.Unmarshal`, field by field from the struct's zero value, when the document
is whole. -/
def unmarshalFields {α : Type} (field : α → Element → Option α) (zero : α) (doc : List UInt8) :
    Option α :=
  if headerOK doc && (iterate doc).2.isEmpty then (fields doc).foldlM field zero else none

theorem unmarshalFields_encodeDoc {α : Type} {field : α → Element → Option α} {zero : α}
    {es : List Element} (hvalid : ∀ e ∈ es, e.Valid) (hfits : (encodeDoc es).length ≤ maxSize) :
    unmarshalFields field zero (encodeDoc es) = es.foldlM field zero := by
  simp [unmarshalFields, headerOK_encodeDoc hfits, fields, iterate_encodeDoc hvalid]

theorem unmarshalMessage_plain (k : Kind) (t : BitVec 64) (data : List Element)
    (hfits : (encodeDoc (messageFields k (.int64 t) data)).length ≤ maxSize) :
    unmarshalFields decodeField ⟨0, .zero, []⟩ (encodeDoc (messageFields k (.int64 t) data))
      = some ⟨k.code, .ofMillis t, encodeDoc data⟩ := by
  have hlen := length_messageFields k (IsStamp.int64 t) data
  have hinner : (encodeDoc data).length ≤ maxSize := by omega
  rw [unmarshalFields_encodeDoc (valid_messageFields (.int64 t) hinner) hfits]
  simp [messageFields, decodeField, timestampKey_ne, dataKey_ne, iterDocument]

theorem unmarshalPong_plain (digest : List UInt8)
    (hfits : (encodeDoc [⟨digestKey, .binary subtypeBinary digest⟩]).length ≤ maxSize) :
    unmarshalFields decodePongField ⟨none⟩ (encodeDoc [⟨digestKey, .binary subtypeBinary digest⟩])
      = some ⟨some digest⟩ := by
  have hlen := length_digestFields digest
  have hvalid : ∀ e ∈ ([⟨digestKey, .binary subtypeBinary digest⟩] : List Element), e.Valid :=
    valid_payloadFields (p := .pong digest) (by
      simp only [Payload.bytes]
      omega)
  rw [unmarshalFields_encodeDoc hvalid hfits]
  simp [decodePongField]

/-- A package that decodes field by field and skips what it does not know. -/
def GoBson.plain : GoBson where
  unmarshalMessage := unmarshalFields decodeField ⟨0, .zero, []⟩
  unmarshalPong := unmarshalFields decodePongField ⟨none⟩
  timeOfInt64 := .ofMillis
  unmarshalMessage_fields := unmarshalMessage_plain
  unmarshalPong_fields := unmarshalPong_plain

/-- The errors of the client, one for each message it formats. -/
inductive GoError where
  | document -- invalid bson document
  | size (length : Nat) -- invalid bson document size
  | short -- failed to read full bson document
  | unmarshal -- failed to unmarshal bson document
  | response (err : GoError) -- failed to read response
  | kind (k : BitVec 32) -- invalid response message
  | pong -- failed to unmarshal pong
  | digest (sent received : Option (List UInt8)) -- pong digest does not equal ping
deriving DecidableEq, Repr

/-- `io.ReadFull` on what is left of a stream: all the bytes, or an error and the
stream at its end. -/
def readFull (n : Nat) (conn : List UInt8) : Option (List UInt8) × List UInt8 :=
  if n ≤ conn.length then (some (conn.take n), conn.drop n) else (none, [])

/-- `readMessage`. -/
def goReadMessage (G : GoBson) (conn : List UInt8) : Except GoError GoMessage × List UInt8 :=
  match readFull 4 conn with
  | (none, conn) => (.error .document, conn)
  | (some lengthBytes, conn) =>
    let length := leNat lengthBytes
    if length < 5 then (.error (.size length), conn)
    else
      match readFull (length - 4) conn with
      | (none, conn) => (.error .short, conn)
      | (some rest, conn) =>
        match G.unmarshalMessage (lengthBytes ++ rest) with
        | none => (.error .unmarshal, conn)
        | some m => (.ok m, conn)

def decodePong (G : GoBson) (conn : List UInt8) : Except GoError PongPayload × List UInt8 :=
  match goReadMessage G conn with
  | (.error err, conn) => (.error (.response err), conn)
  | (.ok m, conn) =>
    if m.kind ≠ Kind.pong.code then (.error (.kind m.kind), conn)
    else
      match G.unmarshalPong m.data with
      | none => (.error .pong, conn)
      | some payload => (.ok payload, conn)

/-- `ping`, after `sendPing`: `bytes.Equal` takes nil for empty. -/
def pingReply (G : GoBson) (digest : Option (List UInt8)) (conn : List UInt8) :
    Except GoError (Option (List UInt8)) × List UInt8 :=
  match decodePong G conn with
  | (.error err, conn) => (.error err, conn)
  | (.ok pong, conn) =>
    if digest.getD [] ≠ pong.digest.getD [] then (.error (.digest digest pong.digest), conn)
    else (.ok pong.digest, conn)

/-! ## One document off the stream -/

/-- **Framing.** A document at the head of the stream is read whole, and nothing
after it. -/
theorem goReadMessage_append (G : GoBson) {doc : List UInt8} (rest : List UInt8)
    (h5 : 5 ≤ doc.length) (hlead : leNat (doc.take 4) = doc.length) :
    goReadMessage G (doc ++ rest)
      = ((G.unmarshalMessage doc).elim (.error .unmarshal) .ok, rest) := by
  have hhead : readFull 4 (doc ++ rest) = (some (doc.take 4), doc.drop 4 ++ rest) := by
    rw [readFull, if_pos (by simp only [List.length_append]; omega),
      List.take_append_of_le_length (by omega), List.drop_append_of_le_length (by omega)]
  have hdrop : (doc.drop 4).length = doc.length - 4 := List.length_drop
  have hbody : readFull (doc.length - 4) (doc.drop 4 ++ rest) = (some (doc.drop 4), rest) := by
    rw [readFull, if_pos (by simp only [List.length_append]; omega), ← hdrop,
      List.take_left, List.drop_left]
  have hsize : ¬doc.length < 5 := by omega
  simp only [goReadMessage, hhead, hlead, if_neg hsize, hbody, List.take_append_drop]
  cases G.unmarshalMessage doc <;> rfl

/-- **A pong off the stream.** The document `WriteMessage` emits for a pong is
decoded to its digest. -/
theorem decodePong_append (G : GoBson) {t : BitVec 64} {digest : List UInt8}
    (rest : List UInt8)
    (hfits : (encodeDoc (messageFields .pong (.int64 t) (payloadFields (.pong digest)))).length
      ≤ maxSize) :
    decodePong G (encodeDoc (messageFields .pong (.int64 t) (payloadFields (.pong digest)))
      ++ rest) = (.ok ⟨some digest⟩, rest) := by
  have hhead := headerOK_iff.mp (headerOK_encodeDoc hfits)
  have hlen := length_messageFields .pong (IsStamp.int64 t) (payloadFields (.pong digest))
  have hmessage : G.unmarshalMessage
      (encodeDoc (messageFields .pong (.int64 t) (payloadFields (.pong digest))))
      = some ⟨Kind.pong.code, G.timeOfInt64 t, encodeDoc (payloadFields (.pong digest))⟩ :=
    G.unmarshalMessage_fields .pong t (payloadFields (.pong digest)) hfits
  have hpong : G.unmarshalPong (encodeDoc (payloadFields (.pong digest)))
      = some ⟨some digest⟩ :=
    G.unmarshalPong_fields digest (by
      simp only [payloadFields] at hlen hfits ⊢
      omega)
  simp only [decodePong, goReadMessage_append G rest hhead.1 hhead.2.2.1, hmessage,
    Option.elim_some, hpong, ne_eq, not_true_eq_false, if_false]

/-! ## Agreement with the C reader -/

/-- The C reader accepts `doc` and makes the message `d` of it, in any memory. -/
def Agrees (lib : Libbson) (doc : List UInt8) (d : Decoded) : Prop :=
  ∀ prior, ∃ r, readMessageFromBytes lib doc (Reader.start prior) = .ok (true, r)
    ∧ r.msg.view? = some d

theorem agrees_goDocument_iff {lib : Libbson} (t : GoTime) {p : Payload}
    (hkind : p.kind = .ping ∨ p.kind = .event) :
    Agrees lib (goDocument p.kind t (payloadFields p)) ⟨t.millis, p⟩ ↔
      t.millis = 0 ∧ p.texts.all lib.textOK = true
        ∧ (goDocument p.kind t (payloadFields p)).length ≤ maxSize := by
  constructor
  · intro h
    obtain ⟨r, hr, hview⟩ := h blank
    have hvalid := (of_readMessageFromBytes hr).1
    have hsize : (goDocument p.kind t (payloadFields p)).length ≤ maxSize :=
      (headerOK_iff.mp (of_bsonValidate hvalid).1).2.1
    have htext : p.texts.all lib.textOK = true := by
      rw [← bsonValidate_messageFields (.dateTime t.millis) hsize]
      exact hvalid
    let w : WireMessage lib := ⟨.dateTime t.millis, p, .dateTime _, hsize, htext⟩
    have hread := (readMessageFromBytes_wire w (Reader.start blank)).symm.trans hr
    obtain ⟨-, rfl⟩ := Prod.mk.inj (Except.ok.inj hread)
    rw [view?_wire w hkind] at hview
    -- `bson_iter_int64` makes 0 of a datetime
    have hzero : (0 : BitVec 64) = t.millis :=
      congrArg Decoded.timestamp (Option.some.inj hview)
    exact ⟨hzero.symm, htext, hsize⟩
  · rintro ⟨hzero, htext, hsize⟩ prior
    let w : WireMessage lib := ⟨.dateTime t.millis, p, .dateTime _, hsize, htext⟩
    refine ⟨_, readMessageFromBytes_wire w _, ?_⟩
    rw [view?_wire w hkind, hzero]
    rfl

/-- **The two sides agree for one millisecond.** A ping sent at `t`, over any
digest, is the message sent exactly when `t` is in the first millisecond of
the epoch and the document fits; an event, when also its topic passes
validation. At any other time the C side reads the timestamp 0. -/
theorem agrees_iff (lib : Libbson) (t : GoTime) :
    (∀ digest, Agrees lib (sendPing t (some digest)) ⟨t.millis, .ping digest⟩ ↔
      t.millis = 0 ∧ (sendPing t (some digest)).length ≤ maxSize)
    ∧ (∀ topic, Agrees lib (sendEvent t topic) ⟨t.millis, .event topic⟩ ↔
      t.millis = 0 ∧ lib.textOK topic = true ∧ (sendEvent t topic).length ≤ maxSize) := by
  refine ⟨fun digest => ?_, fun topic => ?_⟩
  · have hkind : (Payload.ping digest).kind = .ping := rfl
    have h := @agrees_goDocument_iff lib t (.ping digest) (.inl hkind)
    simp only [Payload.texts, List.all_nil, true_and] at h
    exact h
  · have hkind : (Payload.event topic).kind = .event := rfl
    have h := @agrees_goDocument_iff lib t (.event topic) (.inr hkind)
    simp only [Payload.texts, List.all_cons, List.all_nil, Bool.and_true] at h
    exact h

theorem ping_timestamp_lost :
    ¬∀ (lib : Libbson) (t : GoTime) (digest : List UInt8),
      Agrees lib (sendPing t (some digest)) ⟨t.millis, .ping digest⟩ := by
  intro h
  have hagrees := h .lenient ⟨1750000000, 0, by decide⟩ [7]
  have hzero := ((agrees_goDocument_iff (p := .ping [7]) _ (.inl rfl)).mp hagrees).1
  exact absurd hzero (by decide)

end Vespa
