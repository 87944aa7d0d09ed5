import Vespa.Dispatch
import Vespa.EventRoundTrip
import Vespa.EventProvenance

/-!
# The hive (`cmd/hive/main.c`)

The server program: an `IpcServer` whose `OnPing` answers with a pong over the
ping's own digest pointer, and whose `OnEvent` copies the topic and prints it.

Its state is the allocator's future, one `Malloc` for each allocation whose
outcome or contents the handlers look at: the memory of a pong, which is not
cleared, and the string of a topic, the one that is checked for NULL.
-/

namespace Vespa

open Bson

/-! ## The handlers -/

/-- An allocation: what the memory holds, and whether there was any. -/
structure Malloc where
  contents : Message
  succeeds : Bool
deriving DecidableEq, Repr

abbrev Allocator := Nat → Malloc

def Allocator.next (a : Allocator) : Allocator := fun n => a (n + 1)

/-- `DigestToStr`; `none` is NULL. -/
def digestToStr (mem : Malloc) (bytes nbytes : Word) : Except Halt (Option (List UInt8)) := do
  let n ← nbytes.toInt
  if !mem.succeeds then
    return none
  return some (← bytes.read n.toNat)

def hiveOnEvent : Handler Allocator := fun _ msg s =>
  let mem := s.app 0
  let s := { s with app := s.app.next }
  match digestToStr mem msg.event.topic msg.event.topicLen with
  | .error e => ([], .error e)
  | .ok none => ([], .ok (false, s))
  | .ok (some _) => ([.alloc .digestStr, .free .digestStr], .ok (true, s))

def hiveOnPing : Handler Allocator := fun client message s =>
  let bytes := message.ping.digest
  let nbytes := message.ping.digestLen
  let mem := s.app 0
  let s := { s with app := s.app.next }
  let pong := initPongMessage mem.contents bytes nbytes
  let (effects, res) := ipcServerClientWrite client pong s
  (.alloc .pong :: effects, res)

def hive : Handlers Allocator := ⟨some hiveOnPing, some hiveOnEvent⟩

/-! ## What they do with a payload -/

/-- The first two words of the union are a pointer and a length that fit. -/
def Message.HasBytes (m : Message) (d : List UInt8) : Prop :=
  Word.bytes? m.word0 m.word1 = some d

def pongFields (digest : List UInt8) : List Element :=
  messageFields .pong (.int64 12937) (payloadFields (.pong digest))

/-- A pong over bytes in memory can always be written; what the document holds
depends on whether it fits. -/
theorem writeMessage_pong {m : Message} {d : List UInt8} (hd : m.HasBytes d) (mem : Message) :
    ∃ doc, writeMessage (initPongMessage mem m.ping.digest m.ping.digestLen) [] = .ok doc
      ∧ ((encodeDoc (pongFields d)).length ≤ maxSize → doc = pongFields d) := by
  obtain ⟨buf, n, h0, h1, hn, rfl⟩ := Word.bytes?_eq_some.mp hd
  have hkind : (initPongMessage mem m.ping.digest m.ping.digestLen).kind = Kind.pong.code := rfl
  have hlow : (n.setWidth 32).toNat ≤ buf.length := by
    refine Nat.le_trans ?_ hn
    rw [BitVec.toNat_setWidth]
    exact Nat.mod_le _ _
  have hdata : writePayload (initPongMessage mem m.ping.digest m.ping.digestLen) .pong []
      = .ok (bsonAppend [] digestKey
          (.binary subtypeBinary (buf.take (n.setWidth 32).toNat))) := by
    show appendBinary [] digestKey m.word0 m.word1 = _
    rw [h0, h1]
    simp only [appendBinary, Word.toInt, Word.read, bind, Except.bind, if_pos hlow, pure,
      Except.pure]
  refine ⟨_, by rw [writeMessage_kind hkind, hdata]; rfl, fun hfits => ?_⟩
  -- a document that fits holds the whole digest
  have hview : (initPongMessage mem m.ping.digest m.ping.digestLen).view?
      = some ⟨12937, .pong (buf.take n.toNat)⟩ := by
    have hb : Word.bytes? m.ping.digest m.ping.digestLen = some (buf.take n.toNat) := hd
    simp only [Message.view?, Message.payload?, hkind, Kind.ofCode?_code]
    show (Option.map Payload.pong (Word.bytes? m.ping.digest m.ping.digestLen)).map _ = _
    rw [hb]
    rfl
  have hwrite := writeMessage_of_view? hview hfits (by simp [Payload.kind])
  rw [writeMessage_kind hkind, hdata] at hwrite
  exact Except.ok.inj hwrite

/-- **`OnPing` on a payload in memory** queues one document on the client the
ping came from, if it can be written to. -/
theorem hive_run_ping {c : ClientId} {m : Message} {s : Server Allocator} {d : List UInt8}
    {ws : List (List UInt8)} (hd : m.HasBytes d) (hc : s.clients c = some ⟨.reading, ws⟩)
    (hup : s.broken c = false) :
    ∃ doc, hive.run .ping c m s = .ok (true,
        { s with app := s.app.next }.setClient c (some ⟨.reading, ws ++ [encodeDoc doc]⟩))
      ∧ ((encodeDoc (pongFields d)).length ≤ maxSize → doc = pongFields d) := by
  obtain ⟨doc, hwrite, hfits⟩ := writeMessage_pong hd (s.app 0).contents
  refine ⟨doc, ?_, hfits⟩
  have hqueued := uvWrite_open (s := { s with app := s.app.next }) hc hup (encodeDoc doc)
  show (hiveOnPing c m s).2 = _
  simp only [hiveOnPing, ipcServerClientWrite, writeMessageToStream, hwrite, hqueued]
  rfl

/-- **`OnPing` of a client that hung up** ends the hive, whatever the message. -/
theorem hive_run_ping_broken {c : ClientId} {m : Message} {s : Server Allocator}
    {ws : List (List UInt8)} (hc : s.clients c = some ⟨.reading, ws⟩) (hup : s.broken c = true) :
    ∃ halt, hive.run .ping c m s = .error halt := by
  show ∃ halt, (hiveOnPing c m s).2 = _
  simp only [hiveOnPing, ipcServerClientWrite, writeMessageToStream]
  cases hwrite : writeMessage (initPongMessage (s.app 0).contents m.ping.digest
    m.ping.digestLen) [] with
  | error e => exact ⟨e, rfl⟩
  | ok doc =>
      have hkilled := uvWrite_broken (s := { s with app := s.app.next }) hc hup (encodeDoc doc)
      simp only [hkilled]
      exact ⟨.sigpipe, rfl⟩

/-- **`OnEvent` on a payload in memory** touches no client. -/
theorem hive_run_event {c : ClientId} {m : Message} {s : Server Allocator} {d : List UInt8}
    (hd : m.HasBytes d) :
    hive.run .event c m s = .ok ((s.app 0).succeeds, { s with app := s.app.next }) := by
  obtain ⟨buf, n, h0, h1, hn, rfl⟩ := Word.bytes?_eq_some.mp hd
  show (hiveOnEvent c m s).2 = _
  cases hok : (s.app 0).succeeds with
  | true =>
      simp only [hiveOnEvent, digestToStr, Message.event, h0, h1, Word.toInt, Word.read, hok,
        bind, Except.bind, Bool.not_true, Bool.false_eq_true, if_false, if_pos hn, pure,
        Except.pure]
  | false =>
      simp only [hiveOnEvent, digestToStr, Message.event, h1, Word.toInt, hok, bind,
        Except.bind, Bool.not_false, if_true, pure, Except.pure]

/-- **A ping document** delivered to the hive queues its pong. -/
theorem onRead_hive_ping {lib : Libbson} {c : ClientId} {s : Server Allocator}
    {ws : List (List UInt8)} {digest : List UInt8} (w : WireMessage lib)
    (hw : w.payload = .ping digest) (hc : s.clients c = some ⟨.reading, ws⟩)
    (hup : s.broken c = false) (prior : Message)
    (hfits : (encodeDoc (pongFields digest)).length ≤ maxSize) :
    (onRead lib hive c (.data w.bytes prior) s).result
      = .ok ({ s with app := s.app.next }.setClient c
          (some ⟨.reading, ws ++ [encodeDoc (pongFields digest)]⟩)) := by
  have hview := w.view?_read (.inl (by rw [hw]; rfl)) prior
  have hbytes : (w.read prior).HasBytes digest := by
    obtain ⟨p, hp, hd⟩ := Option.map_eq_some_iff.mp hview
    have hpay : p = .ping digest := (congrArg Decoded.payload hd).trans hw
    subst hpay
    have hk : (w.read prior).kind = Kind.ping.code := by rw [w.kind_read, hw]; rfl
    simpa [Message.HasBytes, Message.payload?, hk, Message.ping] using hp
  obtain ⟨doc, hrun, hdoc⟩ := hive_run_ping hbytes hc hup
  rw [(onRead_wire hive c w prior s).2, hw]
  simp only [Payload.kind, hrun, endsWith, hdoc hfits]

end Vespa
