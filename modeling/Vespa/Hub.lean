import Vespa.Echo
import Vespa.Framing
import Vespa.IpcClient
import Vespa.ServerLedger

/-!
# The hub: every client of the hive at once

`Echo` has clients that ping and stay. Here a client is any program that sends
what the hive has handlers for: pings and events, from the command line or from
`client.c`. It may hang up at any time, its accept may fail, and a write to it
may fail halfway, after which nothing more reaches it. What is on the way is a
stream of bytes, and libuv reads as much of it at once as it likes.

`Account` has the books of one client: what it sent is what the hive has handled
and what is on the way, the calls of the handlers are those of what was
handled, and what reached the client, with what is queued for it, are the pongs
of the pings among it. A client's events touch no books but its own. The hive
lives through a read of exactly the next request only (`deliver_returns_iff`),
so that as long as it lives its reads are its clients' requests.
-/

namespace Vespa

open Bson

variable {lib : Libbson}

/-! ## Requests -/

/-- A message the hive has a handler for. -/
structure Request (lib : Libbson) extends WireMessage lib where
  asks : payload.kind = .ping ∨ payload.kind = .event

namespace Request

/-- The document of `sendPing`. -/
def ping (lib : Libbson) (t : GoTime) (digest : List UInt8)
    (hfits : (sendPing t (some digest)).length ≤ maxSize) : Request lib where
  stamp := .dateTime t.millis
  payload := .ping digest
  isStamp := .dateTime t.millis
  fits := hfits
  textOK := rfl
  asks := .inl rfl

/-- The document of `sendEvent`. -/
def publish (t : GoTime) (topic : List UInt8) (hfits : (sendEvent t topic).length ≤ maxSize)
    (htext : [topic].all lib.textOK = true) : Request lib where
  stamp := .dateTime t.millis
  payload := .event topic
  isStamp := .dateTime t.millis
  fits := hfits
  textOK := htext
  asks := .inr rfl

/-- The document of `on_connect`. -/
def hello (lib : Libbson) : Request lib := ⟨helloEvent lib, .inr rfl⟩

end Request

def Payload.digest? : Payload → Option (List UInt8)
  | .ping digest => some digest
  | .event _ => none
  | .pong _ => none
  | .error _ _ => none

/-- The documents the hive owes for a request: a pong for a ping. -/
def Request.replies (r : Request lib) : List (List UInt8) := (r.payload.digest?.map pongDoc).toList

/-! ## The system -/

/-- A client's end of its connection: the bytes the hive has not read, the requests it
sent, the bytes that reached it, whether it hung up, and whether a write to it
failed. -/
structure Peer (lib : Libbson) where
  wire : List UInt8
  sent : List (Request lib)
  received : List UInt8
  hungUp : Bool
  writeFailed : Bool

def Peer.new (lib : Libbson) (accepted : Bool) : Peer lib := ⟨[], [], [], !accepted, false⟩

/-- The hive, its clients, and the calls of its handlers so far. -/
structure Hub (lib : Libbson) where
  hive : Server Allocator
  peer : ClientId → Peer lib
  calls : List Call

namespace Hub

def callsOf (s : Hub lib) (c : ClientId) : List Call := s.calls.filter fun call => call.client = c

/-- What is queued for a client. -/
def queued (s : Hub lib) (c : ClientId) : List (List UInt8) :=
  (s.hive.clients c).elim [] Client.writes

/-- The requests of a client the hive has called a handler for. -/
def handled (s : Hub lib) (c : ClientId) : List (Request lib) :=
  (s.peer c).sent.take (s.callsOf c).length

/-- The requests of a client that are on the way. -/
def waiting (s : Hub lib) (c : ClientId) : List (Request lib) :=
  (s.peer c).sent.drop (s.callsOf c).length

/-- The hub after an event on the connection of `c`. -/
def after (s : Hub lib) (c : ClientId) (h : Server Allocator) (p : Peer lib)
    (calls : List Call) : Hub lib := ⟨h, Function.update s.peer c p, s.calls ++ calls⟩

end Hub

/-- What can happen. `deliver` is a read of some bytes, `ended` one that brings the end of
the stream, or an error; a failed write got `partway`. A client that hangs up may
leave bytes behind that wait for room; then the pipe breaks when libuv goes on
writing them. -/
inductive HubEvent (lib : Libbson) where
  | connect (status : Int) (accepted : Bool)
  | send (c : ClientId) (r : Request lib)
  | hangUp (c : ClientId) (waiting : Bool)
  | deliver (c : ClientId) (n : Nat) (prior : Message)
  | again (c : ClientId)
  | ended (c : ClientId) (eof buffered : Bool)
  | written (c : ClientId) (status : Int) (partway : Nat)
  | closed (c : ClientId)
  | brokenPipe (c : ClientId)

namespace HubEvent

/-- The client an event is about. -/
def client (s : Hub lib) : HubEvent lib → ClientId
  | .connect _ _ => s.hive.nextId
  | .send c _ => c
  | .hangUp c _ => c
  | .deliver c _ _ => c
  | .again c => c
  | .ended c _ _ => c
  | .written c _ _ => c
  | .closed c => c
  | .brokenPipe c => c

/-- What the clients and the pipes allow. A stream ends behind its last byte. -/
def allowed (s : Hub lib) : HubEvent lib → Bool
  | .send c _ => (s.hive.clients c).isSome && !(s.peer c).hungUp
  | .hangUp c waiting =>
    (s.hive.clients c).isSome && !(s.peer c).hungUp && !(waiting && (s.queued c).isEmpty)
  | .deliver c n _ => 0 < n && n ≤ (s.peer c).wire.length && n ≤ suggestedSize
  | .ended c eof _ => !eof || ((s.peer c).hungUp && (s.peer c).wire.isEmpty)
  | .written c status _ => status < 0 || !(s.peer c).writeFailed
  | .brokenPipe c => (s.peer c).hungUp && !s.hive.broken c
  | .connect _ _ => true
  | .again _ => true
  | .closed _ => true

/-- The hive's part in an event. -/
def loop? (s : Hub lib) : HubEvent lib → Option LoopEvent
  | .connect status accepted => some (.connection status accepted)
  | .send _ _ => none
  | .hangUp c waiting => if waiting then none else some (.hangUp c)
  | .deliver c n prior => some (.read c (.data ((s.peer c).wire.take n) prior))
  | .again c => some (.read c .again)
  | .ended c eof buffered => some (.read c (.ended eof buffered))
  | .written c status _ => some (.written c status)
  | .closed c => some (.closed c)
  | .brokenPipe c => some (.brokenPipe c)

/-- The client's end after an event. -/
def peer (s : Hub lib) : HubEvent lib → Peer lib
  | .connect _ accepted => .new lib accepted
  | .send c r =>
    { s.peer c with wire := (s.peer c).wire ++ r.bytes, sent := (s.peer c).sent ++ [r] }
  | .hangUp c _ => { s.peer c with hungUp := true }
  | .deliver c n _ => { s.peer c with wire := (s.peer c).wire.drop n }
  | .written c status partway =>
    let p := s.peer c
    let doc := (s.queued c).headD []
    if status < 0 then
      { p with
        received := p.received ++ if p.writeFailed then [] else doc.take partway
        writeFailed := true }
    else { p with received := p.received ++ doc }
  | .again c => s.peer c
  | .ended c _ _ => s.peer c
  | .closed c => s.peer c
  | .brokenPipe c => s.peer c

end HubEvent

def hubStep (s : Hub lib) (e : HubEvent lib) : Option (Hub lib) :=
  if e.allowed s then
    match e.loop? s with
    | none => some (s.after (e.client s) s.hive (e.peer s) [])
    | some l => ((serverMachine lib hive).step s.hive l).map fun h =>
        s.after (e.client s) h (e.peer s) (callback lib hive s.hive l).calls
  else none

def hubMachine (lib : Libbson) : Machine (Hub lib) (HubEvent lib) where
  init s := (∀ c, s.hive.clients c = none) ∧ (∀ c, s.hive.broken c = false)
    ∧ (∀ c, s.peer c = .new lib false) ∧ s.calls = []
  step := hubStep

/-! ## The books of a client -/

/-- A call of a handler that did right by a request: with the message it spells, on the
client's own connection, and returning; for a ping, true. -/
structure Answered (c : ClientId) (call : Call) (r : Request lib) : Prop where
  kind : call.kind = r.payload.kind
  client : call.client = c
  message : call.message.view? = some r.decoded
  returned : ∃ b, call.returned = some b
  ping : r.payload.kind = .ping → call.returned = some true

/-- The books of one client, whose requests were handled or are waiting. -/
structure Account (s : Hub lib) (c : ClientId) (handled waiting : List (Request lib)) :
    Prop where
  sent : (s.peer c).sent = handled ++ waiting
  wire : (s.peer c).wire = waiting.flatMap fun r => r.bytes
  calls : List.Forall₂ (Answered c) (s.callsOf c) handled
  whole : (s.peer c).writeFailed = false →
    (s.peer c).received ++ (s.queued c).flatten = (handled.flatMap Request.replies).flatten
  cut : (s.peer c).received <+: (handled.flatMap Request.replies).flatten
  up : s.hive.broken c = true → (s.peer c).hungUp = true

/-- Every client has its books, and those to come have them empty. -/
structure Hub.Inv (s : Hub lib) : Prop where
  account : ∀ c, ∃ handled waiting, Account s c handled waiting
  fresh : s.hive.Fresh
  unused : ∀ c, s.hive.nextId ≤ c → (s.peer c).sent = [] ∧ s.hive.broken c = false

/-! ## One request -/

/-- A request is read into a message whose payload is in memory. -/
theorem Request.hasBytes_read (r : Request lib) (prior : Message) :
    (r.read prior).HasBytes r.payload.bytes := by
  have hview := r.view?_read r.asks prior
  obtain ⟨p, hp, hd⟩ := Option.map_eq_some_iff.mp hview
  obtain rfl : p = r.payload := congrArg Decoded.payload hd
  have hk := r.kind_read prior
  rw [Message.HasBytes]
  cases hpay : r.payload with
  | ping digest =>
      rw [hpay] at hp hk
      simpa [Message.payload?, hk, Payload.kind, Message.ping, Payload.bytes] using hp
  | event topic =>
      rw [hpay] at hp hk
      simpa [Message.payload?, hk, Payload.kind, Message.event, Payload.bytes] using hp
  | pong digest => rcases r.asks with h | h <;> rw [hpay] at h <;> cases h
  | error code message => rcases r.asks with h | h <;> rw [hpay] at h <;> cases h

/-- The pong of a ping that fits, fits. -/
theorem Request.fits_pong (r : Request lib) {digest : List UInt8}
    (hr : r.payload = .ping digest) : (pongDoc digest).length ≤ maxSize := by
  have hfits := r.fits
  have hping := length_messageFields r.payload.kind r.isStamp (payloadFields r.payload)
  have hpong := length_messageFields .pong (IsStamp.int64 12937) (payloadFields (.pong digest))
  have hsame : payloadFields r.payload = payloadFields (.pong digest) := by rw [hr]; rfl
  rw [hsame] at hping hfits
  show (encodeDoc (messageFields .pong (.int64 12937) (payloadFields (.pong digest)))).length ≤ _
  omega

/-- A request can be handled: the pong of a ping can be written. -/
def Request.Answerable (r : Request lib) (h : Server Allocator) (c : ClientId) : Prop :=
  r.payload.kind = .ping → h.broken c = false

/-- **What the hive does with a request**: one call of its handler, and its reply at the
end of the client's queue. -/
theorem onRead_request (r : Request lib) {c : ClientId} {h : Server Allocator}
    {ws : List (List UInt8)} (hc : h.clients c = some ⟨.reading, ws⟩)
    (hup : r.Answerable h c) (prior : Message) :
    ∃ call, Answered c call r
      ∧ (onRead lib hive c (.data r.bytes prior) h).calls = [call]
      ∧ (onRead lib hive c (.data r.bytes prior) h).result
        = .ok ({ h with app := h.app.next }.setClient c
          (some ⟨.reading, ws ++ r.replies⟩)) := by
  obtain ⟨hcalls, hresult⟩ := onRead_wire hive c r.toWireMessage prior h
  have hview := r.view?_read r.asks prior
  rw [Handlers.calls_eq] at hcalls
  cases hr : r.payload with
  | ping digest =>
      have hk : r.payload.kind = .ping := by rw [hr]; rfl
      have hfits := r.fits_pong hr
      have hbytes := r.hasBytes_read prior
      rw [hr] at hbytes
      obtain ⟨doc, hrun, hdoc⟩ := hive_run_ping hbytes hc (hup hk)
      rw [hk] at hcalls hresult
      refine ⟨_, ⟨hk.symm, rfl, hview, ⟨true, ?_⟩, fun _ => ?_⟩, hcalls, ?_⟩
      · rw [hrun]; rfl
      · rw [hrun]; rfl
      · rw [hresult, hrun, endsWith, hdoc hfits, Request.replies, hr]
        rfl
  | event topic =>
      have hk : r.payload.kind = .event := by rw [hr]; rfl
      have hrun := hive_run_event (c := c) (s := h) (r.hasBytes_read prior)
      rw [hk] at hcalls hresult
      refine ⟨_, ⟨hk.symm, rfl, hview, ⟨(h.app 0).succeeds, ?_⟩, fun hping => ?_⟩, hcalls, ?_⟩
      · rw [hrun]; rfl
      · rw [hk] at hping
        cases hping
      · have hsame : Function.update h.clients c (some ⟨.reading, ws⟩) = h.clients := by
          rw [← hc, Function.update_eq_self]
        simp only [hresult, hrun, Except.map, Request.replies, hr, Payload.digest?,
          Option.map_none, Option.toList_none, List.append_nil, Server.setClient, hsame]
  | pong digest => rcases r.asks with h | h <;> rw [hr] at h <;> cases h
  | error code message => rcases r.asks with h | h <;> rw [hr] at h <;> cases h

/-- A ping whose client has gone ends the hive. -/
theorem answerable_of_onRead {r : Request lib} {c : ClientId} {h h' : Server Allocator}
    {ws : List (List UInt8)} {prior : Message} (hc : h.clients c = some ⟨.reading, ws⟩)
    (hresult : (onRead lib hive c (.data r.bytes prior) h).result = .ok h') :
    r.Answerable h c := by
  intro hk
  cases hup : h.broken c with
  | false => rfl
  | true =>
      obtain ⟨halt, hkilled⟩ := hive_run_ping_broken (m := r.read prior) hc hup
      rw [(onRead_wire hive c r.toWireMessage prior h).2, hk, hkilled] at hresult
      cases hresult

/-! ## One read -/

section
variable {s s' : Hub lib} {c : ClientId} {handled waiting : List (Request lib)}

theorem Account.handled_eq (h : Account s c handled waiting) : s.handled c = handled := by
  rw [Hub.handled, h.sent, h.calls.length_eq, List.take_left]

theorem Account.waiting_eq (h : Account s c handled waiting) : s.waiting c = waiting := by
  rw [Hub.waiting, h.sent, h.calls.length_eq, List.drop_left]

theorem Account.waiting_eq_nil (h : Account s c handled waiting) (hwire : (s.peer c).wire = []) :
    waiting = [] := by
  cases waiting with
  | nil => rfl
  | cons r rs =>
      rw [h.wire, List.flatMap_cons] at hwire
      exact absurd (List.append_eq_nil_iff.mp hwire).1 r.bytes_ne_nil

/-- The read takes just what the client sent next, and the hive can answer it. -/
def Hub.ReadsNext (s : Hub lib) (c : ClientId) (n : Nat) : Prop :=
  ∃ r, (s.waiting c).head? = some r ∧ n = r.bytes.length ∧ r.Answerable s.hive c

/-- A read that cuts a request, or joins two, is refused. -/
theorem Account.whole_of_valid (h : Account s c handled waiting) {n : Nat} (hpos : 0 < n)
    (hn : n ≤ (s.peer c).wire.length)
    (hvalid : bsonValidate lib ((s.peer c).wire.take n) = true) :
    ∃ r rs, waiting = r :: rs ∧ n = r.bytes.length ∧ (s.peer c).wire.take n = r.bytes := by
  rw [h.wire] at hn hvalid ⊢
  cases waiting with
  | nil => exact absurd hn (Nat.not_le.mpr hpos)
  | cons r rs =>
      have hlength := List.length_take_of_le hn
      rw [List.flatMap_cons] at hvalid hlength ⊢
      by_cases hcut : n = r.bytes.length
      · exact ⟨r, rs, rfl, hcut, by rw [hcut, List.take_left]⟩
      · have hrefused := not_bsonValidate_of_cut r.toWireMessage (List.take_append_drop n _)
          (hlength.trans_ne hcut)
        rw [hrefused] at hvalid
        cases hvalid

/-- **What a read must be for the hive to live**: exactly the next request, cut off from
those behind it, and no ping of a client that has gone. -/
theorem Account.deliver_returns_iff (h : Account s c handled waiting) {ws : List (List UInt8)}
    (hc : s.hive.clients c = some ⟨.reading, ws⟩) {n : Nat} (hpos : 0 < n)
    (hn : n ≤ (s.peer c).wire.length) (prior : Message) :
    (∃ h', (callback lib hive s.hive (.read c (.data ((s.peer c).wire.take n) prior))).result
        = .ok h') ↔ s.ReadsNext c n := by
  rw [Hub.ReadsNext, h.waiting_eq]
  constructor
  · rintro ⟨h', hresult⟩
    have hvalid : bsonValidate lib ((s.peer c).wire.take n) = true := by
      by_contra hrefused
      have hexit : (onRead lib hive c (.data ((s.peer c).wire.take n) prior) s.hive).result
          = .error (.exit 1) := (onRead_of_refused (Bool.eq_false_iff.mpr hrefused)).2
      cases hexit.symm.trans hresult
    obtain ⟨r, rs, rfl, hlength, htake⟩ := h.whole_of_valid hpos hn hvalid
    rw [htake] at hresult
    exact ⟨r, rfl, hlength, answerable_of_onRead hc hresult⟩
  · rintro ⟨r, hr, rfl, hup⟩
    obtain ⟨rs, rfl⟩ := List.head?_eq_some_iff.mp hr
    rw [h.wire, List.flatMap_cons, List.take_left]
    obtain ⟨call, -, -, hresult⟩ := onRead_request r hc hup prior
    exact ⟨_, hresult⟩

/-! ## The courses of a step -/

/-- Handlers are called for data. -/
theorem calls_of_not_data {e : LoopEvent} (he : e.isData = false) (h : Server Allocator) :
    (callback lib hive h e).calls = [] := by
  cases e with
  | connection status accepted =>
      cases accepted <;> simp [callback, onNewConnection, closeClient, Outcome.calls]
  | read c nread =>
      cases nread with
      | data chunk prior => cases he
      | again => rfl
      | ended eof buffered => cases hc : h.clients c <;> cases buffered <;>
          simp [callback, onRead, closeClient, finished, hc, Outcome.calls, allocBuffer,
            freeBuffer, ReadResult.buffered]
  | written c status =>
      simp only [callback, onWrite, Outcome.calls]
      split_ifs <;> simp
  | closed c => simp [callback, onCloseClient, Outcome.calls]
  | hangUp c => rfl
  | brokenPipe c => rfl

/-- An event of the hub, with the state it leads to. -/
inductive HubCourse (s : Hub lib) : HubEvent lib → Hub lib → Prop where
  | connected {status : Int} {accepted : Bool} (phase : Phase) :
      HubCourse s (.connect status accepted) (s.after s.hive.nextId
        { s.hive.setClient s.hive.nextId (some ⟨phase, []⟩) with nextId := s.hive.nextId + 1 }
        (.new lib accepted) [])
  | sent {c : ClientId} {r : Request lib} {cl : Client} (hc : s.hive.clients c = some cl)
      (hup : (s.peer c).hungUp = false) :
      HubCourse s (.send c r) (s.after c s.hive
        { s.peer c with wire := (s.peer c).wire ++ r.bytes, sent := (s.peer c).sent ++ [r] } [])
  | hungUp {c : ClientId} {waiting : Bool} {cl : Client} (broken : ClientId → Bool)
      (hc : s.hive.clients c = some cl) (hup : (s.peer c).hungUp = false)
      (hothers : ∀ d, d ≠ c → broken d = s.hive.broken d) :
      HubCourse s (.hangUp c waiting)
        (s.after c { s.hive with broken := broken } { s.peer c with hungUp := true } [])
  | delivered {c : ClientId} {n : Nat} {prior : Message} {handled : List (Request lib)}
      {r : Request lib} {rs : List (Request lib)} {ws : List (List UInt8)} {call : Call}
      (hc : s.hive.clients c = some ⟨.reading, ws⟩) (haccount : Account s c handled (r :: rs))
      (hn : n = r.bytes.length) (hanswered : Answered c call r) :
      HubCourse s (.deliver c n prior) (s.after c
        ({ s.hive with app := s.hive.app.next }.setClient c (some ⟨.reading, ws ++ r.replies⟩))
        { s.peer c with wire := (s.peer c).wire.drop n } [call])
  | again {c : ClientId} {ws : List (List UInt8)} (hc : s.hive.clients c = some ⟨.reading, ws⟩) :
      HubCourse s (.again c) (s.after c s.hive (s.peer c) [])
  | ended {c : ClientId} {eof buffered : Bool} {ws : List (List UInt8)}
      (hc : s.hive.clients c = some ⟨.reading, ws⟩)
      (heof : eof = true → (s.peer c).wire = []) : HubCourse s (.ended c eof buffered)
        (s.after c (s.hive.setClient c (some ⟨.closing, ws⟩)) (s.peer c) [])
  | written {c : ClientId} {status : Int} {partway : Nat} {phase : Phase} {doc : List UInt8}
      {ws : List (List UInt8)} (hc : s.hive.clients c = some ⟨phase, doc :: ws⟩)
      (hfailed : (s.peer c).writeFailed = false) :
      HubCourse s (.written c status partway) (s.after c
        (s.hive.setClient c (some ⟨phase, ws⟩))
        { s.peer c with received := (s.peer c).received ++ doc } [])
  | writeFailed {c : ClientId} {status : Int} {partway : Nat} {phase : Phase} {doc : List UInt8}
      {ws : List (List UInt8)} (hc : s.hive.clients c = some ⟨phase, doc :: ws⟩) :
      HubCourse s (.written c status partway) (s.after c
        (s.hive.setClient c (some ⟨phase, ws⟩))
        { s.peer c with
          received := (s.peer c).received
            ++ if (s.peer c).writeFailed then [] else doc.take partway
          writeFailed := true } [])
  | closed {c : ClientId} (hc : s.hive.clients c = some ⟨.closing, []⟩) :
      HubCourse s (.closed c) (s.after c (s.hive.setClient c none) (s.peer c) [])

theorem Hub.queued_eq {cl : Client} (hc : s.hive.clients c = some cl) : s.queued c = cl.writes := by
  rw [Hub.queued, hc]
  rfl

/-- A step of the hub is allowed, and has its part of the hive's. -/
theorem hubStep_eq_some {e : HubEvent lib} (h : hubStep s e = some s') :
    e.allowed s = true
      ∧ (e.loop? s = none ∧ s' = s.after (e.client s) s.hive (e.peer s) []
        ∨ ∃ l h', e.loop? s = some l ∧ (serverMachine lib hive).step s.hive l = some h'
          ∧ s' = s.after (e.client s) h' (e.peer s) (callback lib hive s.hive l).calls) := by
  unfold hubStep at h
  split_ifs at h with hallowed
  refine ⟨hallowed, ?_⟩
  cases hl : e.loop? s with
  | none =>
      rw [hl] at h
      exact .inl ⟨rfl, (Option.some.inj h).symm⟩
  | some l =>
      rw [hl] at h
      obtain ⟨h', hstep, rfl⟩ := Option.map_eq_some_iff.mp h
      exact .inr ⟨l, h', rfl, hstep, rfl⟩

theorem isSome_hubStep_iff {e : HubEvent lib} {l : LoopEvent} (hl : e.loop? s = some l) :
    (hubStep s e).isSome ↔ e.allowed s = true ∧ l.enabled s.hive = true
      ∧ ∃ h, (callback lib hive s.hive l).result = .ok h := by
  unfold hubStep
  split_ifs with hallowed
  · rw [and_iff_right hallowed, hl]
    simp only [serverMachine, Option.isSome_map]
    split_ifs with henabled
    · rw [and_iff_right henabled]
      cases (callback lib hive s.hive l).result <;> simp [Except.toOption]
    · simp [henabled]
  · simp [hallowed]

/-- What a callback without data leads to. -/
theorem course_of_hubStep {e : HubEvent lib} {l : LoopEvent} (h : hubStep s e = some s')
    (hl : e.loop? s = some l) (hdata : l.isData = false) :
    ∃ actions h', ServerStep lib hive s.hive l actions h'
      ∧ s' = s.after (e.client s) h' (e.peer s) [] := by
  obtain ⟨-, ⟨hnone, -⟩ | ⟨l', h', hl', hstep, rfl⟩⟩ := hubStep_eq_some h
  · rw [hl] at hnone
    cases hnone
  · obtain rfl := Option.some.inj (hl.symm.trans hl')
    exact ⟨_, h', (serverStep_of_step hstep).2, by rw [calls_of_not_data hdata]⟩

/-- The course of a hang-up: the pipe breaks at once, or when libuv writes on. -/
theorem hungUp_of_hubStep {waiting : Bool} (h : hubStep s (.hangUp c waiting) = some s') :
    HubCourse s (.hangUp c waiting) s' := by
  have hallowed := (hubStep_eq_some h).1
  simp only [HubEvent.allowed, Bool.and_eq_true, Option.isSome_iff_exists,
    Bool.not_eq_true'] at hallowed
  obtain ⟨⟨⟨cl, hc⟩, hup⟩, -⟩ := hallowed
  cases waiting with
  | true =>
      obtain ⟨-, ⟨-, rfl⟩ | ⟨l, -, hl, -⟩⟩ := hubStep_eq_some h
      · exact .hungUp s.hive.broken hc hup fun _ _ => rfl
      · cases hl
  | false =>
      obtain ⟨actions, h', hcourse, rfl⟩ := course_of_hubStep h rfl rfl
      cases hcourse with
      | hungUp => exact .hungUp _ hc hup fun d hd => Function.update_of_ne hd ..

/-- The course of a write: it was taken off the queue, and its document reached the
client as far as it got. -/
theorem written_of_hubStep {status : Int} {partway : Nat}
    (h : hubStep s (.written c status partway) = some s') :
    HubCourse s (.written c status partway) s' := by
  have hallowed := (hubStep_eq_some h).1
  obtain ⟨actions, h', hcourse, rfl⟩ := course_of_hubStep h rfl rfl
  cases hcourse with
  | written hc =>
      rename_i phase doc ws
      have hdoc : (s.queued c).headD [] = doc := by rw [Hub.queued_eq hc]; rfl
      by_cases hstatus : status < 0
      · simp only [HubEvent.peer, hdoc, if_pos hstatus]
        exact .writeFailed hc
      · simp only [HubEvent.allowed, decide_eq_false hstatus, Bool.false_or,
          Bool.not_eq_true'] at hallowed
        simp only [HubEvent.peer, hdoc, if_neg hstatus]
        exact .written hc hallowed

/-- The course of a read: it was exactly the next request. -/
theorem delivered_of_hubStep (haccount : Account s c handled waiting) {n : Nat}
    {prior : Message} (h : hubStep s (.deliver c n prior) = some s') :
    HubCourse s (.deliver c n prior) s' := by
  have hsome : (hubStep s (.deliver c n prior)).isSome := Option.isSome_iff_exists.mpr ⟨s', h⟩
  obtain ⟨hallowed, henabled, hreturns⟩ := (isSome_hubStep_iff rfl).mp hsome
  simp only [HubEvent.allowed, Bool.and_eq_true, decide_eq_true_eq] at hallowed
  obtain ⟨⟨hpos, hn⟩, -⟩ := hallowed
  obtain ⟨ws, hc⟩ := enabled_read henabled
  obtain ⟨r, hr, hlength, hup⟩ := (haccount.deliver_returns_iff hc hpos hn prior).mp hreturns
  rw [haccount.waiting_eq] at hr
  obtain ⟨rs, rfl⟩ := List.head?_eq_some_iff.mp hr
  obtain ⟨-, ⟨hnone, -⟩ | ⟨l, h', hl, hstep, rfl⟩⟩ := hubStep_eq_some h
  · cases hnone
  · obtain rfl := Option.some.inj hl
    have htake : (s.peer c).wire.take n = r.bytes := by
      rw [haccount.wire, List.flatMap_cons, hlength, List.take_left]
    obtain ⟨call, hanswered, hcalls, hresult⟩ := onRead_request r hc hup prior
    simp only [serverMachine, htake, callback, hresult] at hstep
    split_ifs at hstep
    obtain rfl := Option.some.inj hstep
    have hcalls' : (callback lib hive s.hive
        (.read c (.data ((s.peer c).wire.take n) prior))).calls = [call] := by
      rw [htake]
      exact hcalls
    rw [hcalls']
    exact .delivered hc haccount hlength hanswered

/-- **The courses of a step.** -/
theorem Hub.Inv.course (hs : s.Inv) {e : HubEvent lib} (h : hubStep s e = some s') :
    HubCourse s e s' := by
  cases e with
  | connect status accepted =>
      obtain ⟨actions, h', hcourse, rfl⟩ := course_of_hubStep h rfl rfl
      cases hcourse with
      | accepted => exact .connected .reading
      | refused => exact .connected .closing
  | send c r =>
      obtain ⟨hallowed, ⟨-, rfl⟩ | ⟨l, -, hl, -⟩⟩ := hubStep_eq_some h
      · simp only [HubEvent.allowed, Bool.and_eq_true, Option.isSome_iff_exists,
          Bool.not_eq_true'] at hallowed
        obtain ⟨⟨cl, hc⟩, hup⟩ := hallowed
        exact .sent hc hup
      · cases hl
  | hangUp c waiting => exact hungUp_of_hubStep h
  | deliver c n prior =>
      obtain ⟨handled, waiting, haccount⟩ := hs.account c
      exact delivered_of_hubStep haccount h
  | again c =>
      obtain ⟨actions, h', hcourse, rfl⟩ := course_of_hubStep h rfl rfl
      cases hcourse with
      | again hc => exact .again hc
  | ended c eof buffered =>
      have hallowed := (hubStep_eq_some h).1
      obtain ⟨actions, h', hcourse, rfl⟩ := course_of_hubStep h rfl rfl
      cases hcourse with
      | ended hc =>
          refine .ended hc fun heof => ?_
          rw [heof] at hallowed
          simp only [HubEvent.allowed, Bool.not_true, Bool.false_or, Bool.and_eq_true,
            List.isEmpty_iff] at hallowed
          exact hallowed.2
  | written c status partway => exact written_of_hubStep h
  | closed c =>
      obtain ⟨actions, h', hcourse, rfl⟩ := course_of_hubStep h rfl rfl
      cases hcourse with
      | closed hc => exact .closed hc
  | brokenPipe c =>
      obtain ⟨actions, h', hcourse, rfl⟩ := course_of_hubStep h rfl rfl
      cases hcourse

/-! ## The books stay in order -/

theorem Account.congr (h : Account s c handled waiting) (hpeer : s'.peer c = s.peer c)
    (hcalls : s'.callsOf c = s.callsOf c) (hqueued : s'.queued c = s.queued c)
    (hbroken : s'.hive.broken c = s.hive.broken c) : Account s' c handled waiting where
  sent := by rw [hpeer, h.sent]
  wire := by rw [hpeer, h.wire]
  calls := by
    rw [hcalls]
    exact h.calls
  whole := by
    rw [hpeer, hqueued]
    exact h.whole
  cut := by
    rw [hpeer]
    exact h.cut
  up := by
    rw [hpeer, hbroken]
    exact h.up

section
variable {h : Server Allocator} {p : Peer lib} {calls : List Call}

theorem Hub.peer_after : (s.after c h p calls).peer c = p := Function.update_self ..

theorem Hub.peer_after_of_ne {d : ClientId} (hd : d ≠ c) :
    (s.after c h p calls).peer d = s.peer d := Function.update_of_ne hd ..

theorem Hub.callsOf_after (hcalls : ∀ call ∈ calls, call.client = c) :
    (s.after c h p calls).callsOf c = s.callsOf c ++ calls := by
  have hall : calls.filter (fun call => call.client = c) = calls :=
    List.filter_eq_self.mpr fun call hcall => decide_eq_true (hcalls call hcall)
  rw [Hub.callsOf, Hub.after, List.filter_append, hall]
  rfl

theorem Hub.callsOf_after_of_ne {d : ClientId} (hd : d ≠ c)
    (hcalls : ∀ call ∈ calls, call.client = c) :
    (s.after c h p calls).callsOf d = s.callsOf d := by
  have hnone : calls.filter (fun call => call.client = d) = [] :=
    List.filter_eq_nil_iff.mpr fun call hcall h =>
      hd ((of_decide_eq_true h).symm.trans (hcalls call hcall))
  rw [Hub.callsOf, Hub.after, List.filter_append, hnone, List.append_nil]
  rfl

/-- **An event touches no books but its client's.** -/
theorem Hub.Inv.book (hs : s.Inv) (handled waiting : List (Request lib))
    (hothers : ∀ d, d ≠ c → h.clients d = s.hive.clients d)
    (hpipes : ∀ d, d ≠ c → h.broken d = s.hive.broken d)
    (hid : s.hive.nextId ≤ h.nextId) (hlt : c < h.nextId)
    (hcalls : ∀ call ∈ calls, call.client = c)
    (haccount : Account (s.after c h p calls) c handled waiting) :
    (s.after c h p calls).Inv where
  account d := by
    by_cases hd : d = c
    · subst hd
      exact ⟨handled, waiting, haccount⟩
    · obtain ⟨handled', waiting', hold⟩ := hs.account d
      have hqueued : (s.after c h p calls).queued d = s.queued d :=
        congrArg (fun cl => Option.elim cl [] Client.writes) (hothers d hd)
      exact ⟨handled', waiting', hold.congr (Hub.peer_after_of_ne hd)
        (Hub.callsOf_after_of_ne hd hcalls) hqueued (hpipes d hd)⟩
  fresh d hd := by
    have hne : d ≠ c := (hlt.trans_le hd).ne'
    exact (hothers d hne).trans (hs.fresh d (hid.trans hd))
  unused d hd := by
    have hne : d ≠ c := (hlt.trans_le hd).ne'
    rw [Hub.peer_after_of_ne hne]
    exact ⟨(hs.unused d (hid.trans hd)).1, (hpipes d hne).trans (hs.unused d (hid.trans hd)).2⟩

/-- An event that is no delivery keeps a client's books if it keeps what reached the
client and what is queued together, or breaks the connection within them. -/
theorem Hub.Inv.transmit (hs : s.Inv) {cl : Client} (hc : s.hive.clients c = some cl)
    (cl' : Option Client) (hclients : h.clients = Function.update s.hive.clients c cl')
    (hid : h.nextId = s.hive.nextId)
    (hpipes : ∀ d, d ≠ c → h.broken d = s.hive.broken d)
    (hup : p.hungUp = true ∨ h.broken = s.hive.broken ∧ p.hungUp = (s.peer c).hungUp)
    (hsent : p.sent = (s.peer c).sent) (hwire : p.wire = (s.peer c).wire)
    (hwhole : p.writeFailed = false → (s.peer c).writeFailed = false
      ∧ p.received ++ (cl'.elim [] Client.writes).flatten
        = (s.peer c).received ++ cl.writes.flatten)
    (hcut : p.received <+: (s.peer c).received
      ∨ (s.peer c).writeFailed = false
        ∧ p.received <+: (s.peer c).received ++ cl.writes.flatten) :
    (s.after c h p []).Inv := by
  obtain ⟨handled, waiting, hold⟩ := hs.account c
  have hstream := hold.whole
  rw [Hub.queued_eq hc] at hstream
  refine hs.book handled waiting (fun d hd => ?_) hpipes (Nat.le_of_eq hid.symm)
    (hid ▸ hs.fresh.lt_nextId hc) (by simp) ⟨?_, ?_, ?_, fun hfailed => ?_, ?_, fun hbroken => ?_⟩
  · rw [hclients, Function.update_of_ne hd]
  · rw [Hub.peer_after, hsent, hold.sent]
  · rw [Hub.peer_after, hwire, hold.wire]
  · rw [Hub.callsOf_after (by simp), List.append_nil]
    exact hold.calls
  · rw [Hub.peer_after] at hfailed ⊢
    obtain ⟨hold_failed, hsame⟩ := hwhole hfailed
    have hqueued : (s.after c h p []).queued c = cl'.elim [] Client.writes := by
      rw [Hub.queued, Hub.after, hclients, Function.update_self]
    rw [← hstream hold_failed, ← hsame, hqueued]
  · rw [Hub.peer_after]
    rcases hcut with hcut | ⟨hfailed, hcut⟩
    · exact hcut.trans hold.cut
    · exact hstream hfailed ▸ hcut
  · rw [Hub.peer_after]
    rcases hup with hup | ⟨hsame, hup⟩
    · exact hup
    · have hbroken' : h.broken c = true := hbroken
      rw [hsame] at hbroken'
      exact hup.trans (hold.up hbroken')

end

/-- A new client's books are empty. -/
theorem Hub.Inv.connected (hs : s.Inv) (phase : Phase) (accepted : Bool) :
    (s.after s.hive.nextId
      { s.hive.setClient s.hive.nextId (some ⟨phase, []⟩) with nextId := s.hive.nextId + 1 }
      (.new lib accepted) []).Inv := by
  obtain ⟨handled, waiting, hold⟩ := hs.account s.hive.nextId
  obtain ⟨hsent, hbroken⟩ := hs.unused _ (Nat.le_refl _)
  have hempty : handled = [] := by
    rw [hold.sent] at hsent
    exact (List.append_eq_nil_iff.mp hsent).1
  subst hempty
  have hnone : s.callsOf s.hive.nextId = [] := List.forall₂_nil_right_iff.mp hold.calls
  refine hs.book [] [] (fun d hd => Server.setClient_of_ne _ hd _) (fun _ _ => rfl)
    (Nat.le_succ _) (Nat.lt_succ_self _) (by simp) ⟨?_, ?_, ?_, fun _ => ?_, ?_, fun hup => ?_⟩
  · rw [Hub.peer_after]
    rfl
  · rw [Hub.peer_after]
    rfl
  · rw [Hub.callsOf_after (by simp), hnone]
    exact .nil
  · have hqueued := Hub.queued_eq (s := s.after s.hive.nextId
      { s.hive.setClient s.hive.nextId (some ⟨phase, []⟩) with nextId := s.hive.nextId + 1 }
      (.new lib accepted) []) (c := s.hive.nextId) (Server.setClient_self ..)
    rw [hqueued, Hub.peer_after]
    rfl
  · rw [Hub.peer_after]
    exact List.nil_prefix
  · have hup' : s.hive.broken s.hive.nextId = true := hup
    rw [hbroken] at hup'
    cases hup'

theorem Hub.Inv.sent (hs : s.Inv) {cl : Client} (hc : s.hive.clients c = some cl)
    (r : Request lib) : (s.after c s.hive
      { s.peer c with wire := (s.peer c).wire ++ r.bytes, sent := (s.peer c).sent ++ [r] }
      []).Inv := by
  obtain ⟨handled, waiting, hold⟩ := hs.account c
  refine hs.book handled (waiting ++ [r]) (fun _ _ => rfl) (fun _ _ => rfl) (Nat.le_refl _)
    (hs.fresh.lt_nextId hc) (by simp) ⟨?_, ?_, ?_, ?_, ?_, ?_⟩
  · simp only [Hub.peer_after, hold.sent, List.append_assoc]
  · simp only [Hub.peer_after, hold.wire, List.flatMap_append, List.flatMap_singleton]
  · rw [Hub.callsOf_after (by simp), List.append_nil]
    exact hold.calls
  · rw [Hub.peer_after]
    exact hold.whole
  · rw [Hub.peer_after]
    exact hold.cut
  · rw [Hub.peer_after]
    exact hold.up

/-- The request that was read goes over to those that were handled. -/
theorem Hub.Inv.delivered (hs : s.Inv) {r : Request lib} {rs : List (Request lib)}
    {ws : List (List UInt8)} {call : Call} (hc : s.hive.clients c = some ⟨.reading, ws⟩)
    (hold : Account s c handled (r :: rs)) (hanswered : Answered c call r) :
    (s.after c
      ({ s.hive with app := s.hive.app.next }.setClient c (some ⟨.reading, ws ++ r.replies⟩))
      { s.peer c with wire := (s.peer c).wire.drop r.bytes.length } [call]).Inv := by
  have hcalls : ∀ k ∈ [call], k.client = c := by simp [hanswered.client]
  have hstream : ((handled ++ [r]).flatMap Request.replies).flatten
      = (handled.flatMap Request.replies).flatten ++ r.replies.flatten := by simp
  refine hs.book (handled ++ [r]) rs (fun d hd => Server.setClient_of_ne _ hd _)
    (fun _ _ => rfl) (Nat.le_refl _) (hs.fresh.lt_nextId hc) hcalls
    ⟨?_, ?_, ?_, fun hfailed => ?_, ?_, ?_⟩
  · simp only [Hub.peer_after, hold.sent, List.append_assoc, List.singleton_append]
  · simp only [Hub.peer_after, hold.wire, List.flatMap_cons, List.drop_left]
  · rw [Hub.callsOf_after hcalls]
    exact List.rel_append hold.calls (.cons hanswered .nil)
  · rw [Hub.queued_eq (Server.setClient_self ..), hstream]
    rw [Hub.peer_after] at hfailed ⊢
    rw [← hold.whole hfailed, Hub.queued_eq hc, List.flatten_append, List.append_assoc]
  · rw [hstream, Hub.peer_after]
    exact hold.cut.trans (List.prefix_append _ _)
  · rw [Hub.peer_after]
    exact hold.up

theorem inv_hub_step {e : HubEvent lib} (hs : s.Inv) (h : HubCourse s e s') : s'.Inv := by
  cases h with
  | connected phase => exact hs.connected phase _
  | sent hc _ => exact hs.sent hc _
  | hungUp broken hc _ hothers =>
      exact hs.transmit hc (some _) (by rw [← hc, Function.update_eq_self]) rfl hothers
        (.inl rfl) rfl rfl (fun hfailed => ⟨hfailed, rfl⟩) (.inl (List.prefix_refl _))
  | delivered hc haccount hn hanswered =>
      subst hn
      exact hs.delivered hc haccount hanswered
  | again hc =>
      exact hs.transmit hc (some _) (by rw [← hc, Function.update_eq_self]) rfl (fun _ _ => rfl)
        (.inr ⟨rfl, rfl⟩) rfl rfl (fun hfailed => ⟨hfailed, rfl⟩) (.inl (List.prefix_refl _))
  | ended hc _ | closed hc =>
      exact hs.transmit hc _ rfl rfl (fun _ _ => rfl) (.inr ⟨rfl, rfl⟩) rfl rfl
        (fun hfailed => ⟨hfailed, rfl⟩) (.inl (List.prefix_refl _))
  | written hc hfailed =>
      refine hs.transmit hc _ rfl rfl (fun _ _ => rfl) (.inr ⟨rfl, rfl⟩) rfl rfl
        (fun hwhole => ⟨hwhole, by simp⟩) (.inr ⟨hfailed, ?_⟩)
      simp only [List.flatten_cons, ← List.append_assoc]
      exact List.prefix_append _ _
  | @writeFailed c _ partway _ doc _ hc =>
      refine hs.transmit hc _ rfl rfl (fun _ _ => rfl) (.inr ⟨rfl, rfl⟩) rfl rfl
        (fun hwhole => by cases hwhole) ?_
      -- of a write that fails no more arrives than its document
      cases hfailed : (s.peer c).writeFailed with
      | true => exact .inl (by simp)
      | false =>
          refine .inr ⟨rfl, ?_⟩
          simp only [Bool.false_eq_true, if_false, List.flatten_cons]
          exact (List.prefix_append_right_inj _).mpr
            ((List.take_prefix _ _).trans (List.prefix_append _ _))

end

/-- **Every client's books are in order in every run.** -/
theorem hub_invariant (lib : Libbson) : (hubMachine lib).Invariant Hub.Inv where
  init s hs := by
    obtain ⟨hclients, hpipes, hpeers, hcalls⟩ := hs
    have hqueued : ∀ c, s.queued c = [] := fun c => by rw [Hub.queued, hclients]; rfl
    refine ⟨fun c => ⟨[], [], ?_, ?_, ?_, fun _ => ?_, ?_, fun hup => ?_⟩, fun c _ => hclients c,
      fun c _ => ⟨?_, hpipes c⟩⟩
    · rw [hpeers]; rfl
    · rw [hpeers]; rfl
    · rw [Hub.callsOf, hcalls]; exact .nil
    · rw [hpeers, hqueued]; rfl
    · rw [hpeers]; exact List.nil_prefix
    · rw [hpipes] at hup; cases hup
    · rw [hpeers]; rfl
  step s e s' hs h := inv_hub_step hs (hs.course h)

end Vespa
