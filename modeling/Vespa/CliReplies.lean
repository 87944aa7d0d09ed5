import Vespa.CliStream
import Vespa.EventRoundTrip
import Vespa.Server

/-!
# What the client makes of the server's writes

The C side writes what its messages say, one document for each
`IpcServerClientWrite`, and the transport cuts the bytes as it likes. The
client's reader gives the messages back: kind, time and payload document of
every kind, also of the two that the C side cannot read itself.

`decodePong` waits for a pong and takes whatever comes first. Other messages
are refused by their kind, one at a time, so that a client stays in step with
the stream even when it does not like what it reads.
-/

namespace Vespa

open Bson

/-! ## Messages that can be written -/

/-- A message object that describes a message which fits. The topic of an event is the
C string that `WriteEvent` takes it for. -/
structure Sendable where
  msg : Message
  means : Decoded
  view : msg.view? = some means
  fits : means.Fits
  topic : ∀ t, means.payload = .event t → CString msg.event.topic t

def Decoded.doc (d : Decoded) : List UInt8 :=
  encodeDoc (messageFields d.payload.kind (.int64 d.timestamp) (payloadFields d.payload))

/-- **The writer's document of a message** is the format's, for every kind. -/
theorem Sendable.write (m : Sendable) :
    writeMessage m.msg [] = .ok (messageFields m.means.payload.kind (.int64 m.means.timestamp)
      (payloadFields m.means.payload)) := by
  by_cases hkind : m.means.payload.kind = .event
  · obtain ⟨hk, ht⟩ := Message.kind_of_view? m.view
    cases hpayload : m.means.payload with
    | event t =>
        have hcstr : m.msg.word0.cstr = .ok t := cstr_eq_ok.mpr (m.topic t hpayload)
        have hfits := m.fits
        have hinner := m.fits.inner
        rw [Decoded.Fits, hpayload, ← ht] at hfits
        rw [hpayload] at hinner hk
        have happ : bsonAppend [] topicKey (.utf8 t) = [⟨topicKey, .utf8 t⟩] :=
          bsonAppend_of_fits hinner
        have hdata : writePayload m.msg .event [] = .ok (payloadFields (.event t)) := by
          rw [writePayload_event, hcstr]
          simp only [Except.map, happ]
          rfl
        rw [← ht]
        exact writeMessage_eq hk hdata hfits
    | ping d | pong d | error code msg =>
        rw [hpayload] at hkind
        cases hkind
  · exact writeMessage_of_view? m.view m.fits hkind

/-- Successive calls of `IpcServerClientWrite` on one client. -/
def clientWrites {ε : Type} (c : ClientId) : List Message → Server ε → Except Halt (Server ε)
  | [], s => .ok s
  | m :: ms, s =>
    match (ipcServerClientWrite c m s).2 with
    | .error e => .error e
    | .ok (_, s) => clientWrites c ms s

/-- **The writes of a server** queue one document for each message, in order. -/
theorem clientWrites_eq {ε : Type} {c : ClientId} (ms : List Sendable) {s : Server ε}
    {ws : List (List UInt8)} (hc : s.clients c = some ⟨.reading, ws⟩) (hup : s.broken c = false) :
    clientWrites c (ms.map Sendable.msg) s
      = .ok (s.setClient c (some ⟨.reading, ws ++ ms.map fun m => m.means.doc⟩)) := by
  induction ms generalizing s ws with
  | nil =>
      have hsame : s.setClient c (some ⟨.reading, ws ++ []⟩) = s := by
        rw [List.append_nil, ← hc, Server.setClient, Function.update_eq_self]
      exact congrArg Except.ok hsame.symm
  | cons m ms ih =>
      have hwrite : (ipcServerClientWrite c m.msg s).2
          = .ok (true, s.setClient c (some ⟨.reading, ws ++ [m.means.doc]⟩)) := by
        simp only [ipcServerClientWrite, writeMessageToStream, m.write, uvWrite_open hc hup]
        rfl
      have hrest := ih (s := s.setClient c (some ⟨.reading, ws ++ [m.means.doc]⟩))
        (Server.setClient_self ..) hup
      rw [List.map_cons, clientWrites, hwrite]
      dsimp only
      rw [hrest]
      simp only [Server.setClient, Function.update_idem, List.map_cons, List.append_assoc,
        List.singleton_append]

/-! ## Reading them -/

section
variable (G : GoBson)

/-- What `readMessage` makes of a message. -/
def Decoded.goMessage (d : Decoded) : GoMessage :=
  ⟨d.payload.kind.code, G.timeOfInt64 d.timestamp, encodeDoc (payloadFields d.payload)⟩

/-- What `decodePong` makes of a payload: it refuses the other kinds. -/
def Payload.asPong : Payload → Except GoError PongPayload
  | .pong digest => .ok ⟨some digest⟩
  | .event _ => .error (.kind Kind.event.code)
  | .error _ _ => .error (.kind Kind.error.code)
  | .ping _ => .error (.kind Kind.ping.code)

/-- `decodePong`, on the reads of a connection. -/
def goConnDecodePong (conn : Pieces UInt8) : Except GoError PongPayload × Pieces UInt8 :=
  match goConnReadMessage G conn with
  | (.error err, conn) => (.error (.response err), conn)
  | (.ok m, conn) =>
    if m.kind ≠ Kind.pong.code then (.error (.kind m.kind), conn)
    else
      match G.unmarshalPong m.data with
      | none => (.error .pong, conn)
      | some payload => (.ok payload, conn)

theorem goConnDecodePong_refines : Refines (goConnDecodePong G) (decodePong G) := by
  intro conn
  obtain ⟨hresult, hleft⟩ := goConnReadMessage_refines G conn
  unfold goConnDecodePong decodePong
  have hwhole : goReadMessage G conn.flatten
      = ((goConnReadMessage G conn).1, (goConnReadMessage G conn).2.flatten) := by
    rw [hresult, hleft]
  rw [hwhole]
  rcases goConnReadMessage G conn with ⟨res, rest⟩
  cases res with
  | error err => exact ⟨rfl, rfl⟩
  | ok m =>
      dsimp only
      split_ifs
      · exact ⟨rfl, rfl⟩
      · cases G.unmarshalPong m.data <;> exact ⟨rfl, rfl⟩

/-- A message the server wrote, as a document the client can frame. -/
def Sendable.goDocument (m : Sendable) : GoDocument G :=
  .ofFields G m.means.payload.kind m.means.timestamp (payloadFields m.means.payload) m.fits

theorem Sendable.takes (m : Sendable) :
    Takes (goReadMessage G) m.means.doc (.ok (m.means.goMessage G)) :=
  (m.goDocument G).takes

theorem Sendable.takes_pong (m : Sendable) :
    Takes (decodePong G) m.means.doc m.means.payload.asPong := by
  intro rest
  unfold decodePong
  rw [m.takes G rest]
  dsimp only [Decoded.goMessage]
  cases hpayload : m.means.payload with
  | pong digest =>
      have hinner := m.fits.inner
      rw [hpayload] at hinner
      have hpong : G.unmarshalPong (encodeDoc (payloadFields (.pong digest)))
          = some ⟨some digest⟩ := G.unmarshalPong_fields digest hinner
      have hkind : (Payload.pong digest).kind.code = Kind.pong.code := rfl
      simp only [hkind, ne_eq, not_true_eq_false, if_false, hpong, Payload.asPong]
  | event t | ping d | error code msg =>
      rw [if_pos (by simp only [Payload.kind]; decide)]
      rfl

end

/-- **The client reads what the server writes.** Any messages written to a client one after
another, of any kinds, and the bytes cut into reads in any way: the `k`-th call of
`readMessage` returns the `k`-th message and leaves those after it, and the
`k`-th of `decodePong` its digest, if it is a pong, and otherwise an error that
names its kind. The client has not closed its end. -/
theorem client_reads_writes (G : GoBson) {ε : Type} {c : ClientId} {s : Server ε}
    (hc : s.clients c = some ⟨.reading, []⟩) (hup : s.broken c = false) (ms : List Sendable) :
    ∃ s', clientWrites c (ms.map Sendable.msg) s = .ok s'
      ∧ s'.clients c = some ⟨.reading, ms.map fun m => m.means.doc⟩
      ∧ (∀ d, d ≠ c → s'.clients d = s.clients d)
      ∧ ∀ (conn : Pieces UInt8) (rest : List UInt8),
        conn.flatten = (ms.map fun m => m.means.doc).flatten ++ rest →
        ∀ (k : Nat) (hk : k < ms.length),
          (call (goConnReadMessage G) k conn).1 = .ok (ms[k].means.goMessage G)
          ∧ (call (goConnReadMessage G) k conn).2.flatten
            = ((ms.map fun m => m.means.doc).drop (k + 1)).flatten ++ rest
          ∧ (call (goConnDecodePong G) k conn).1 = ms[k].means.payload.asPong := by
  refine ⟨_, clientWrites_eq ms hc hup, Server.setClient_self ..,
    fun d hd => Server.setClient_of_ne _ hd _, fun conn rest hconn k hk => ?_⟩
  have hflat : ∀ ms : List Sendable, (ms.map fun m => m.means.doc).flatten
      = ms.flatMap fun m => m.means.doc := fun _ => List.flatMap_def.symm
  obtain ⟨hread, hleft⟩ := (goConnReadMessage_refines G).call k conn
  obtain ⟨hpong, -⟩ := (goConnDecodePong_refines G).call k conn
  rw [hread, hleft, hpong, hconn, hflat, ← List.map_drop, hflat,
    call_of_takes (Sendable.takes G) rest ms k hk,
    call_of_takes (Sendable.takes_pong G) rest ms k hk]
  exact ⟨rfl, rfl, rfl⟩

/-- An event and a pong, as the hive's program has them in memory. -/
def eventThenPong : List Sendable :=
  [⟨⟨Kind.event.code, 1337, .ptr [97, 0], .int 1, .int 0⟩, ⟨1337, .event [97]⟩, rfl, by decide,
      fun t ht => by obtain rfl := Payload.event.inj ht; exact ⟨[], rfl, by decide⟩⟩,
    ⟨⟨Kind.pong.code, 12937, .ptr [7], .int 1, .int 0⟩, ⟨12937, .pong [7]⟩, rfl, by decide,
      fun _ ht => by cases ht⟩]

/-- A server with one client, on which nothing is queued. -/
def oneReader : Server Unit := ⟨fun _ => some ⟨.reading, []⟩, 1, fun _ => false, ()⟩

theorem pong_read_behind_event : ∃ s', clientWrites 0 (eventThenPong.map Sendable.msg) oneReader
      = .ok s'
    ∧ s'.clients 0
      = some ⟨.reading, [Decoded.doc ⟨1337, .event [97]⟩, Decoded.doc ⟨12937, .pong [7]⟩]⟩
    ∧ (call (goConnDecodePong .plain) 1
        [Decoded.doc ⟨1337, .event [97]⟩ ++ Decoded.doc ⟨12937, .pong [7]⟩]).1
      = .ok ⟨some [7]⟩ := by
  obtain ⟨s', hwrites, hqueued, -, hreads⟩ :=
    client_reads_writes .plain (c := 0) (s := oneReader) rfl rfl eventThenPong
  exact ⟨s', hwrites, hqueued, (hreads _ [] (by simp [eventThenPong]) 1 (by decide)).2.2⟩

end Vespa
