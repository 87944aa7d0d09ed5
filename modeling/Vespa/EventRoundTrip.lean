import Vespa.EventWrite
import Vespa.EventRead

/-!
# Does reading undo writing?

`RoundTrips` is the law of the codec: a message written by `WriteMessage`
into a fresh document and read back by `ReadMessageFromBytes` is accepted
and comes out the same, whatever the memory it is read into held before.

The law holds for pings. It holds for events whose topic, as a C string, is
exactly the `topic_len` bytes: the writer measures with `strlen`, so a topic
with a NUL inside is cut short and one without a NUL after it is read past
its end. It fails for every pong and every error, whose readers are empty.
-/

namespace Vespa

open Bson

/-- Writing `m` and reading it back gives the message `d`, in any memory. -/
def RoundTrips (lib : Libbson) (m : Message) (d : Decoded) : Prop :=
  ∀ prior : Message, ∃ doc r, writeMessage m [] = .ok doc
    ∧ readMessageFromBytes lib (encodeDoc doc) (Reader.start prior) = .ok (true, r)
    ∧ r.msg.view? = some d

def Decoded.Fits (d : Decoded) : Prop :=
  (encodeDoc (messageFields d.payload.kind (.int64 d.timestamp)
    (payloadFields d.payload))).length ≤ maxSize

instance (d : Decoded) : Decidable d.Fits := Nat.decLe _ _

/-- The topic's bytes contain no NUL and a NUL follows them in memory. -/
def CString (w : Word) (topic : List UInt8) : Prop :=
  ∃ rest, w = .ptr (topic ++ 0 :: rest) ∧ 0 ∉ topic

/-- The messages that survive. -/
def Survives (lib : Libbson) (m : Message) : Payload → Prop
  | .ping _ => True
  | .event topic => CString m.event.topic topic ∧ lib.textOK topic = true
  | .pong _ => False
  | .error _ _ => False

/-! ## What the reader leaves behind -/

theorem cstr_eq_ok {w : Word} {s : List UInt8} : w.cstr = .ok s ↔ CString w s := by
  cases w with
  | int v => simp [Word.cstr, CString]
  | ptr buf =>
      simp only [Word.cstr, CString, Word.ptr.injEq]
      cases h : Codec.takeCString buf with
      | none =>
          constructor
          · intro h'; cases h'
          · rintro ⟨rest, rfl, hs⟩
            have : Codec.takeCString (s ++ 0 :: rest) = some (s, rest) :=
              Codec.takeCString_eq_some.mpr ⟨hs, by simp⟩
            rw [this] at h
            cases h
      | some p =>
          obtain ⟨s', rest⟩ := p
          obtain ⟨hs', hbuf⟩ := Codec.takeCString_eq_some.mp h
          simp only [Except.ok.injEq]
          constructor
          · rintro rfl
            exact ⟨rest, by simpa using hbuf, hs'⟩
          · rintro ⟨rest', rfl, hs⟩
            have happ : s ++ 0 :: rest' = (s ++ [0]) ++ rest' := by simp
            have := Codec.takeCString_eq_some.mpr ⟨hs, happ⟩
            rw [this] at h
            exact (congrArg Prod.fst (Option.some.inj h)).symm

theorem view?_of_envelope (k : Kind) (t : BitVec 64) :
    ((Reader.start blank).run [.kind k.code, .timestamp t]).msg.view? = none := by
  cases k <;> rfl

/-! ## The four kinds -/

theorem Decoded.Fits.inner {d : Decoded} (h : d.Fits) :
    (encodeDoc (payloadFields d.payload)).length ≤ maxSize := by
  have hlen := length_messageFields d.payload.kind (IsStamp.int64 d.timestamp)
    (payloadFields d.payload)
  unfold Decoded.Fits at h
  omega

theorem writeMessage_of_view? {m : Message} {d : Decoded} (hview : m.view? = some d)
    (hfits : d.Fits) (hkind : d.payload.kind ≠ .event) :
    writeMessage m [] = .ok (messageFields d.payload.kind (.int64 d.timestamp)
      (payloadFields d.payload)) := by
  obtain ⟨hk, ht⟩ := Message.kind_of_view? hview
  obtain ⟨p, hp, rfl⟩ := Option.map_eq_some_iff.mp hview
  have hdata := writePayload_of_payload? hp hkind hfits.inner
  exact writeMessage_eq hk hdata hfits

theorem roundTrips_ping {lib : Libbson} {m : Message} {t : BitVec 64} {digest : List UInt8}
    (hview : m.view? = some ⟨t, .ping digest⟩) (hfits : Decoded.Fits ⟨t, .ping digest⟩) :
    RoundTrips lib m ⟨t, .ping digest⟩ := by
  let w : WireMessage lib := ⟨.int64 t, .ping digest, .int64 t, hfits, rfl⟩
  intro prior
  exact ⟨_, _, writeMessage_of_view? hview hfits (by simp [Payload.kind]),
    readMessageFromBytes_wire w _, view?_wire w (.inl rfl) _⟩

/-- A kind whose reader is empty never round-trips. -/
theorem not_roundTrips_stub {lib : Libbson} {m : Message} {d : Decoded}
    (hview : m.view? = some d) (hfits : d.Fits)
    (hkind : d.payload.kind = .pong ∨ d.payload.kind = .error) :
    ¬RoundTrips lib m d := by
  intro h
  obtain ⟨doc, r, hw, hr, hv⟩ := h blank
  have hne : d.payload.kind ≠ .event := by rcases hkind with h | h <;> simp [h]
  have htext : d.payload.texts.all lib.textOK = true := by
    rcases d with ⟨t, _ | _ | _ | _⟩ <;> first | rfl | (rcases hkind with h | h <;> cases h)
  let w : WireMessage lib := ⟨.int64 d.timestamp, d.payload, .int64 _, hfits, htext⟩
  rw [writeMessage_of_view? hview hfits hne] at hw
  obtain rfl := Except.ok.inj hw
  have hread := (readMessageFromBytes_wire w (Reader.start blank)).symm.trans hr
  obtain ⟨-, rfl⟩ := Prod.mk.inj (Except.ok.inj hread)
  have hstores : messageStores w.payload.kind w.stamp (payloadFields w.payload)
      = [.kind d.payload.kind.code, .timestamp d.timestamp] := by
    simp only [messageStores, w, iterInt64]
    rcases hkind with h | h <;> rw [h] <;> rfl
  rw [hstores, view?_of_envelope] at hv
  cases hv

/-- What `WriteMessage` emits for an event: the append of the topic or of `data`
fails silently when the document would grow too large. -/
theorem writeMessage_event_cases {m : Message} {doc : List Element}
    (hk : m.kind = Kind.event.code) (h : writeMessage m [] = .ok doc) :
    ∃ s, m.event.topic.cstr = .ok s ∧
      (doc = [⟨kindKey, .int32 Kind.event.code⟩, ⟨timestampKey, .int64 m.timestamp⟩]
        ∨ doc = messageFields .event (.int64 m.timestamp) []
        ∨ (doc = messageFields .event (.int64 m.timestamp) (payloadFields (.event s))
            ∧ (encodeDoc doc).length ≤ maxSize)) := by
  rw [writeMessage_kind hk, writePayload_event] at h
  cases hs : m.word0.cstr with
  | error e => rw [hs] at h; cases h
  | ok s =>
      rw [hs] at h
      replace h := Except.ok.inj h
      dsimp only at h
      refine ⟨s, hs, ?_⟩
      rcases bsonAppend_cases [] topicKey (.utf8 s) with ⟨h1, -⟩ | h1 <;> rw [h1] at h
      · rcases bsonAppend_cases _ dataKey (.document (encodeDoc ([] ++ [⟨topicKey, .utf8 s⟩])))
          with ⟨h2, hfit⟩ | h2 <;> rw [h2] at h
        · exact .inr (.inr ⟨h.symm, h ▸ hfit⟩)
        · exact .inl h.symm
      · rcases bsonAppend_cases _ dataKey (.document (encodeDoc []))
          with ⟨h2, -⟩ | h2 <;> rw [h2] at h
        · exact .inr (.inl h.symm)
        · exact .inl h.symm

theorem view?_of_no_payload {lib : Libbson} {k : Kind} {t : BitVec 64} {doc : List Element}
    {r : Reader}
    (hdoc : doc = [⟨kindKey, .int32 k.code⟩, ⟨timestampKey, .int64 t⟩]
      ∨ doc = messageFields k (.int64 t) [])
    (hr : readMessageFromBytes lib (encodeDoc doc) (Reader.start blank) = .ok (true, r)) :
    r.msg.view? = none := by
  obtain ⟨-, hrun⟩ := of_readMessageFromBytes hr
  have hempty : (encodeDoc []).length ≤ maxSize := by decide
  have hvalid := valid_messageFields (k := k) (IsStamp.int64 t) hempty
  have hfields : fields (encodeDoc doc) = doc := by
    refine fields_encodeDoc fun e he => hvalid e ?_
    rcases hdoc with rfl | rfl
    · exact List.mem_append_left [⟨dataKey, .document (encodeDoc [])⟩] he
    · exact he
  have hres : readFields lib doc (Reader.start blank)
      = .ok ((Reader.start blank).run [.kind k.code, .timestamp t]) := by
    rcases hdoc with rfl | rfl
    · simp only [readFields, if_true, if_neg timestampKey_ne, iterInt32, iterInt64,
        Reader.run_cons, Reader.run_nil]
    · rw [readFields_messageFields (headerOK_encodeDoc hempty) (fields_encodeDoc (by simp))]
      cases k <;> rfl
  rw [hfields, hres] at hrun
  obtain rfl := Except.ok.inj hrun
  exact view?_of_envelope k t

theorem roundTrips_event_iff {lib : Libbson} {m : Message} {t : BitVec 64}
    {topic : List UInt8} (hview : m.view? = some ⟨t, .event topic⟩)
    (hfits : Decoded.Fits ⟨t, .event topic⟩) :
    RoundTrips lib m ⟨t, .event topic⟩ ↔
      CString m.event.topic topic ∧ lib.textOK topic = true := by
  obtain ⟨hk, rfl⟩ := Message.kind_of_view? hview
  constructor
  · intro h
    obtain ⟨doc, r, hw, hr, hv⟩ := h blank
    obtain ⟨s, hs, hdoc⟩ := writeMessage_event_cases hk hw
    rcases hdoc with hdoc | hdoc | ⟨rfl, hfit⟩
    · rw [view?_of_no_payload (.inl hdoc) hr] at hv; cases hv
    · rw [view?_of_no_payload (.inr hdoc) hr] at hv; cases hv
    · have htext : Payload.texts (.event s) |>.all lib.textOK := by
        rw [← bsonValidate_messageFields (IsStamp.int64 m.timestamp) hfit]
        exact (of_readMessageFromBytes hr).1
      let w : WireMessage lib := ⟨.int64 m.timestamp, .event s, .int64 _, hfit, htext⟩
      have hread := (readMessageFromBytes_wire w (Reader.start blank)).symm.trans hr
      obtain ⟨-, rfl⟩ := Prod.mk.inj (Except.ok.inj hread)
      rw [view?_wire w (.inr rfl)] at hv
      obtain rfl : s = topic := by simpa [WireMessage.decoded, w, iterInt64] using hv
      exact ⟨cstr_eq_ok.mp hs, by simpa [Payload.texts] using htext⟩
  · rintro ⟨hc, htext⟩ prior
    let w : WireMessage lib := ⟨.int64 m.timestamp, .event topic, .int64 _, hfits, by
      simp [Payload.texts, htext]⟩
    have hdata : writePayload m .event [] = .ok (payloadFields (.event topic)) := by
      have happ : bsonAppend [] topicKey (.utf8 topic) = [⟨topicKey, .utf8 topic⟩] :=
        bsonAppend_of_fits hfits.inner
      rw [writePayload_event, show m.word0.cstr = .ok topic from cstr_eq_ok.mpr hc]
      simp only [Except.map, happ]
      rfl
    exact ⟨_, _, writeMessage_eq hk hdata hfits, readMessageFromBytes_wire w _,
      view?_wire w (.inr rfl) _⟩

/-! ## The law of the codec -/

/-- **Decode undoes encode** exactly for the messages that `Survives` names:
every ping, and every event whose topic is a C string of `topic_len` bytes
that validation lets pass; no pong and no error. -/
theorem roundTrips_iff {lib : Libbson} {m : Message} {d : Decoded}
    (hview : m.view? = some d) (hfits : d.Fits) :
    RoundTrips lib m d ↔ Survives lib m d.payload := by
  obtain ⟨t, payload⟩ := d
  cases payload with
  | ping digest => exact iff_of_true (roundTrips_ping hview hfits) trivial
  | event topic => exact roundTrips_event_iff hview hfits
  | pong digest => exact iff_of_false (not_roundTrips_stub hview hfits (.inl rfl)) id
  | error code msg => exact iff_of_false (not_roundTrips_stub hview hfits (.inr rfl)) id

theorem roundTrips_iff_ping :
    RoundTrips .lenient ⟨Kind.ping.code, 12937, .ptr [1, 2, 3, 4], .int 4, .int 0⟩
      ⟨12937, .ping [1, 2, 3, 4]⟩ :=
  (roundTrips_iff (by decide) (by decide +kernel)).mpr trivial

theorem pong_does_not_round_trip :
    ¬∀ (lib : Libbson) (m : Message) (d : Decoded),
      m.view? = some d → d.Fits → RoundTrips lib m d := by
  intro h
  exact not_roundTrips_stub (by decide) (by decide +kernel) (.inl rfl)
    (h .lenient ⟨Kind.pong.code, 12937, .ptr [7], .int 1, .int 0⟩ ⟨12937, .pong [7]⟩
      (by decide) (by decide +kernel))

end Vespa
