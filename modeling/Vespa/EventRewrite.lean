import Vespa.Dispatch
import Vespa.EventRoundTrip

/-!
# Does writing undo reading?

`RoundTrips` writes first. The law here is the other one, for a program that
passes on what it read: a document read into a `Message` and written from it
comes out as the same bytes, whatever memory it was read into.

It holds for pings of the C side. A ping of the command line comes out with its
timestamp gone and of another type. An event cannot be passed on at all: the
reader allocates the bytes of the topic and no NUL behind them, and the writer
looks for one. Of pongs and errors the payload is left behind by the reader, and
the writer takes it from the memory the message was read into.
-/

namespace Vespa

open Bson

variable {lib : Libbson}

/-- Reading `w` and writing what was read gives its bytes, in any memory. -/
def Rewrites (w : WireMessage lib) : Prop :=
  ∀ prior, ∃ doc, writeMessage (w.read prior) [] = .ok doc ∧ encodeDoc doc = w.bytes

/-! ## Pings -/

theorem encodeDoc_messageFields_inj {k : Kind} {stamp stamp' : Value} (hs : IsStamp stamp)
    (hs' : IsStamp stamp') {data : List Element} (hdata : (encodeDoc data).length ≤ maxSize)
    (h : encodeDoc (messageFields k stamp data) = encodeDoc (messageFields k stamp' data)) :
    stamp = stamp' := by
  have hfields := congrArg fields h
  rw [fields_encodeDoc (valid_messageFields hs hdata),
    fields_encodeDoc (valid_messageFields hs' hdata)] at hfields
  simpa [messageFields] using hfields

theorem rewrites_ping_iff {w : WireMessage lib} (hkind : w.payload.kind = .ping) :
    Rewrites w ↔ ∃ t, w.stamp = .int64 t := by
  have hlen := length_messageFields w.payload.kind w.isStamp (payloadFields w.payload)
  have hlen' := length_messageFields w.payload.kind (IsStamp.int64 (iterInt64 w.stamp))
    (payloadFields w.payload)
  have hfits : w.decoded.Fits := by
    have hw := w.fits
    show (encodeDoc (messageFields w.payload.kind (.int64 (iterInt64 w.stamp))
      (payloadFields w.payload))).length ≤ maxSize
    omega
  have hwrite : ∀ prior, writeMessage (w.read prior) []
      = .ok (messageFields w.payload.kind (.int64 (iterInt64 w.stamp)) (payloadFields w.payload)) :=
    fun prior => writeMessage_of_view? (w.view?_read (.inl hkind) prior) hfits
      (by rw [WireMessage.decoded, hkind]; exact fun h => by cases h)
  constructor
  · intro h
    obtain ⟨doc, hdoc, hbytes⟩ := h blank
    rw [hwrite] at hdoc
    obtain rfl := Except.ok.inj hdoc
    exact ⟨_, (encodeDoc_messageFields_inj (.int64 _) w.isStamp w.length_inner_le hbytes).symm⟩
  · rintro ⟨t, ht⟩ prior
    refine ⟨_, hwrite prior, ?_⟩
    rw [WireMessage.bytes, ht]
    rfl

/-! ## Events -/

/-- An event is read with the bytes of its topic and nothing behind them. -/
theorem word0_read_event {w : WireMessage lib} {topic : List UInt8}
    (hw : w.payload = .event topic) (prior : Message) : (w.read prior).word0 = .ptr topic := by
  rw [WireMessage.read, hw, Reader.run_msg]
  simp only [messageStores, Payload.kind, payloadFields, payloadStores, if_true,
    List.filterMap_cons, List.filterMap_nil, iterUtf8, List.foldl_cons, List.foldl_nil]
  rfl

theorem cstr_eq_error_iff {topic : List UInt8} :
    (Word.ptr topic).cstr = .error .undefined ↔ 0 ∉ topic := by
  unfold Word.cstr
  dsimp only
  cases h : Codec.takeCString topic with
  | some p =>
      obtain ⟨s, rest⟩ := p
      obtain ⟨-, rfl⟩ := Codec.takeCString_eq_some.mp h
      simp
  | none =>
      refine iff_of_true rfl fun hmem => ?_
      obtain ⟨s, rest, rfl, hs⟩ := List.eq_append_cons_of_mem hmem
      have hfound : Codec.takeCString (s ++ 0 :: rest) = some (s, rest) :=
        Codec.takeCString_eq_some.mpr ⟨hs, by simp⟩
      rw [hfound] at h
      cases h

theorem rewrite_event_iff {w : WireMessage lib} {topic : List UInt8}
    (hw : w.payload = .event topic) (prior : Message) :
    writeMessage (w.read prior) [] = .error .undefined ↔ 0 ∉ topic := by
  have hkind : (w.read prior).kind = Kind.event.code := by rw [w.kind_read, hw]; rfl
  rw [writeMessage_kind hkind, writePayload_event, word0_read_event hw prior, ← cstr_eq_error_iff]
  cases (Word.ptr topic).cstr with
  | error e => simp [Except.map]
  | ok s => simp [Except.map]

/-- A topic with a NUL inside is cut there, so the document gets shorter. -/
theorem not_rewrites_event {w : WireMessage lib} {topic : List UInt8}
    (hw : w.payload = .event topic) : ¬Rewrites w := by
  intro h
  obtain ⟨doc, hdoc, hbytes⟩ := h blank
  have hkind : (w.read blank).kind = Kind.event.code := by rw [w.kind_read, hw]; rfl
  obtain ⟨s, hs, hcases⟩ := writeMessage_event_cases hkind hdoc
  have hword : (w.read blank).event.topic = .ptr topic := word0_read_event hw blank
  rw [hword] at hs
  obtain ⟨rest, hbuf, -⟩ := cstr_eq_ok.mp hs
  have hshorter : s.length < topic.length := by
    rw [Word.ptr.inj hbuf]
    simp
  have hlen := length_messageFields w.payload.kind w.isStamp (payloadFields w.payload)
  have htopic := length_topicFields topic
  have hfields : payloadFields w.payload = [⟨topicKey, .utf8 topic⟩] := by rw [hw]; rfl
  have hsame : (encodeDoc doc).length = topic.length + 57 := by
    rw [hbytes, WireMessage.bytes, hlen, hfields, htopic]
  rcases hcases with rfl | rfl | ⟨rfl, -⟩
  · rw [length_envelope] at hsame
    omega
  · rw [length_messageFields .event (IsStamp.int64 _)] at hsame
    have hempty : (encodeDoc []).length = 5 := rfl
    omega
  · have hshort := length_topicFields s
    have hlen' := length_messageFields .event (IsStamp.int64 (w.read blank).timestamp)
      (payloadFields (.event s))
    simp only [payloadFields] at hlen' hsame
    omega

/-! ## Pongs and errors -/

/-- Memory whose payload words are no integers. -/
def pointers : Message := ⟨kInvalidMessage, 0, .ptr [], .ptr [], .ptr []⟩

theorem not_rewrites_stub {w : WireMessage lib}
    (hkind : w.payload.kind = .pong ∨ w.payload.kind = .error) : ¬Rewrites w := by
  intro h
  obtain ⟨doc, hdoc, -⟩ := h pointers
  have hread : w.read pointers
      = { pointers with kind := w.payload.kind.code, timestamp := iterInt64 w.stamp } := by
    rw [WireMessage.read, Reader.run_msg]
    rcases hkind with hk | hk <;> rw [hk] <;> rfl
  have hcode : (w.read pointers).kind = w.payload.kind.code := w.kind_read pointers
  rw [writeMessage_kind hcode, hread] at hdoc
  rcases hkind with hk | hk <;> rw [hk] at hdoc <;> cases hdoc

/-! ## The law -/

/-- **Encode undoes decode** exactly for the pings whose timestamp is an int64, as the C
side writes it. For events the writer leaves defined behaviour exactly when the
topic has no NUL inside, which is every ordinary topic. -/
theorem rewrites_iff (w : WireMessage lib) :
    (Rewrites w ↔ w.payload.kind = .ping ∧ ∃ t, w.stamp = .int64 t)
      ∧ ∀ topic, w.payload = .event topic → ∀ prior,
        writeMessage (w.read prior) [] = .error .undefined ↔ 0 ∉ topic := by
  refine ⟨?_, fun topic hw prior => rewrite_event_iff hw prior⟩
  cases hw : w.payload with
  | ping digest =>
      have hkind : w.payload.kind = .ping := by rw [hw]; rfl
      rw [rewrites_ping_iff hkind]
      exact (and_iff_right rfl).symm
  | event topic => exact iff_of_false (not_rewrites_event hw) fun h => by cases h.1
  | pong digest =>
      exact iff_of_false (not_rewrites_stub (.inl (by rw [hw]; rfl))) fun h => by cases h.1
  | error code message =>
      exact iff_of_false (not_rewrites_stub (.inr (by rw [hw]; rfl))) fun h => by cases h.1

theorem small_event_not_rewritten : ∃ w : WireMessage .lenient, w.payload = .event [104, 105]
    ∧ ∀ prior, writeMessage (w.read prior) [] = .error .undefined := by
  let w : WireMessage .lenient := ⟨.int64 1337, .event [104, 105], .int64 _, by decide, rfl⟩
  exact ⟨w, rfl, fun prior => ((rewrites_iff w).2 _ rfl prior).mpr (by decide)⟩

end Vespa
