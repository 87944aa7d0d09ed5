import Vespa.EventRoundTrip
import Vespa.Ledger

/-!
# The C client (`client.c`)

An `IpcClient` runs inside a libuv loop of its own: it connects, sends one event
from its connect callback, and logs whatever happens afterwards. Its state is
what libuv keeps for the handle, where the connection stands and the queued
writes. A run may stop short by a signal, as when the hive is gone before the
event is written.

What it sends is fixed; what it keeps is not. No callback frees the topic, the
buffer of a read, or the request of a write that failed, so a client that is
sent anything grows for as long as it runs.
-/

namespace Vespa

open Bson Ledger

/-! ## The client -/

/-- Where the connection stands: `uv_pipe_connect` pending, failed, being read, or
at its end. -/
inductive Connection where
  | connecting
  | failed
  | reading
  | ended
deriving DecidableEq, Repr

structure IpcClient where
  connection : Connection
  writes : List (List UInt8)
deriving DecidableEq, Repr

/-- What the callbacks allocate: the topic `strdup` copies, a `write_req_t`, the buffer
of `AllocBuffer`. -/
inductive ClientObject where
  | topic
  | writeReq
  | readBuffer
deriving DecidableEq, Repr

inductive ClientEffect where
  | alloc (o : ClientObject)
  | free (o : ClientObject)
  | write (doc : List UInt8)
deriving DecidableEq, Repr

def helloTopic : List UInt8 := ascii "Hello World"

/-- `IpcClientInit`, without its name for the handle. -/
def ipcClientInit : IpcClient := ⟨.connecting, []⟩

/-- `on_connect`; `prior` is what the stack holds where it has its `Message`. -/
def onConnect (prior : Message) (status : Int) (client : IpcClient) :
    List ClientEffect × Except Halt IpcClient :=
  if status < 0 then ([], .ok { client with connection := .failed })
  else
    let topic : Word := .ptr (helloTopic ++ [0])
    let m := initEventMessage prior topic (.int (BitVec.ofNat 64 helloTopic.length))
    match writeMessage m [] with
    | .error e => ([.alloc .topic, .alloc .writeReq], .error e)
    | .ok doc =>
      ([.alloc .topic, .alloc .writeReq, .write (encodeDoc doc)],
        .ok ⟨.reading, client.writes ++ [encodeDoc doc]⟩)

/-- `on_write`: after a failed write the request is left where it is. -/
def clientOnWrite (status : Int) (client : IpcClient) : List ClientEffect × IpcClient :=
  let client := { client with writes := client.writes.tail }
  if status < 0 then ([], client) else ([.free .writeReq], client)

/-- `OnRead` of the client, with the buffer libuv allocated before it, if it did. It looks
at nothing; libuv stops the reads after a negative `nread`. -/
def clientOnRead (nread : Int) (buffered : Bool) (client : IpcClient) :
    List ClientEffect × IpcClient :=
  (if buffered then [.alloc .readBuffer] else [],
    if nread < 0 then { client with connection := .ended } else client)

/-! ## Runs -/

inductive ClientEvent where
  | connected (status : Int) (prior : Message)
  | read (nread : Int) (buffered : Bool)
  | written (status : Int)
deriving DecidableEq, Repr

/-- When libuv makes a callback. Only the end of the stream, or an error, may come without
a buffer. -/
def ClientEvent.enabled (client : IpcClient) : ClientEvent → Bool
  | .connected _ _ => client.connection == .connecting
  | .read nread buffered => client.connection == .reading && (buffered || nread < 0)
  | .written _ => !client.writes.isEmpty

def clientCallback (client : IpcClient) : ClientEvent → List ClientEffect × Except Halt IpcClient
  | .connected status prior => onConnect prior status client
  | .read nread buffered =>
    ((clientOnRead nread buffered client).1, .ok (clientOnRead nread buffered client).2)
  | .written status => ((clientOnWrite status client).1, .ok (clientOnWrite status client).2)

def clientMachine : Machine IpcClient ClientEvent where
  init client := client = ipcClientInit
  step client e := if e.enabled client then (clientCallback client e).2.toOption else none

def ClientEffect.doc? : ClientEffect → Option (List UInt8)
  | .write doc => some doc
  | .alloc _ => none
  | .free _ => none

def ClientEffect.entry? : ClientEffect → Option (Entry ClientObject)
  | .alloc o => some (.add o)
  | .free o => some (.remove o)
  | .write _ => none

/-- The documents a callback hands to `uv_write`. -/
def clientDocs (client : IpcClient) (e : ClientEvent) : List (List UInt8) :=
  (clientCallback client e).1.filterMap ClientEffect.doc?

def clientEntries (client : IpcClient) (e : ClientEvent) : List (Entry ClientObject) :=
  (clientCallback client e).1.filterMap ClientEffect.entry?

def ClientEvent.connects : ClientEvent → Bool
  | .connected status _ => 0 ≤ status
  | .read _ _ => false
  | .written _ => false

/-- What a callback leaves behind for good. -/
def clientLeaves : ClientEvent → List ClientObject
  | .connected status _ => if status < 0 then [] else [.topic]
  | .read _ buffered => if buffered then [.readBuffer] else []
  | .written status => if status < 0 then [.writeReq] else []

/-- A queued write has its request. -/
def IpcClient.inFlight (client : IpcClient) : ClientObject → Nat
  | .writeReq => client.writes.length
  | .topic => 0
  | .readBuffer => 0

/-! ## The one document -/

def helloFields : List Element :=
  messageFields .event (.int64 1337) (payloadFields (.event helloTopic))

theorem length_helloFields : (encodeDoc helloFields).length = 68 := by
  rw [helloFields, length_messageFields .event (.int64 1337) (payloadFields (.event helloTopic))]
  exact congrArg (· + 40) (length_topicFields helloTopic)

theorem ascii_helloTopic : ∀ b ∈ helloTopic, b < 128 := by decide +kernel

/-- The event of `on_connect` as a document of the format. -/
def helloEvent (lib : Libbson) : WireMessage lib where
  stamp := .int64 1337
  payload := .event helloTopic
  isStamp := .int64 1337
  fits := length_helloFields.trans_le (of_decide_eq_true rfl)
  textOK := by
    have htext := lib.textOK_ascii helloTopic ascii_helloTopic
    simp [Payload.texts, htext]

/-- **What `on_connect` writes**, whatever the stack held. -/
theorem writeMessage_hello (prior : Message) :
    writeMessage (initEventMessage prior (.ptr (helloTopic ++ [0]))
      (.int (BitVec.ofNat 64 helloTopic.length))) [] = .ok helloFields := by
  have hcstr : Word.cstr (.ptr (helloTopic ++ [0])) = .ok helloTopic :=
    cstr_eq_ok.mpr ⟨[], rfl, by decide⟩
  have hfits : (encodeDoc helloFields).length ≤ maxSize :=
    length_helloFields.trans_le (of_decide_eq_true rfl)
  have hdata : writePayload (initEventMessage prior (.ptr (helloTopic ++ [0]))
      (.int (BitVec.ofNat 64 helloTopic.length))) .event []
        = .ok (payloadFields (.event helloTopic)) := by
    have happ : bsonAppend [] topicKey (.utf8 helloTopic) = [⟨topicKey, .utf8 helloTopic⟩] :=
      bsonAppend_of_fits ((length_topicFields helloTopic).trans_le (of_decide_eq_true rfl))
    rw [writePayload_event]
    show (Word.cstr (.ptr (helloTopic ++ [0]))).map _ = _
    rw [hcstr]
    simp only [Except.map, happ]
    rfl
  exact writeMessage_eq rfl hdata hfits

/-! ## The courses of a step -/

/-- An event of the client: what it did, and its state after it. -/
inductive ClientStep (client : IpcClient) :
    ClientEvent → List ClientEffect → IpcClient → Prop where
  | refused {status : Int} {prior : Message} (hpending : client.connection = .connecting)
      (hstatus : status < 0) : ClientStep client (.connected status prior) []
        { client with connection := .failed }
  | connected {status : Int} {prior : Message} (hpending : client.connection = .connecting)
      (hstatus : 0 ≤ status) : ClientStep client (.connected status prior)
        [.alloc .topic, .alloc .writeReq, .write (encodeDoc helloFields)]
        ⟨.reading, client.writes ++ [encodeDoc helloFields]⟩
  | read {nread : Int} {buffered : Bool} {connection : Connection}
      (hreading : client.connection = .reading)
      (hconnection : connection = .reading ∨ connection = .ended) :
      ClientStep client (.read nread buffered) (if buffered then [.alloc .readBuffer] else [])
        { client with connection := connection }
  | writeFailed {status : Int} {doc : List UInt8} {ws : List (List UInt8)}
      (hwrites : client.writes = doc :: ws) (hstatus : status < 0) :
      ClientStep client (.written status) [] { client with writes := ws }
  | written {status : Int} {doc : List UInt8} {ws : List (List UInt8)}
      (hwrites : client.writes = doc :: ws) (hstatus : 0 ≤ status) :
      ClientStep client (.written status) [.free .writeReq] { client with writes := ws }

theorem clientStep_of_step {client client' : IpcClient} {e : ClientEvent}
    (h : clientMachine.step client e = some client') :
    ClientStep client e (clientCallback client e).1 client' := by
  simp only [clientMachine] at h
  split_ifs at h with henabled
  cases e with
  | connected status prior =>
      have hpending : client.connection = .connecting := beq_iff_eq.mp henabled
      by_cases hstatus : status < 0
      · simp only [clientCallback, onConnect, if_pos hstatus] at h ⊢
        obtain rfl := Option.some.inj h
        exact .refused hpending hstatus
      · simp only [clientCallback, onConnect, if_neg hstatus, writeMessage_hello] at h ⊢
        obtain rfl := Option.some.inj h
        exact .connected hpending (by omega)
  | read nread buffered =>
      have hreading : client.connection = .reading :=
        beq_iff_eq.mp ((Bool.and_eq_true ..).mp henabled).1
      simp only [clientCallback, clientOnRead] at h ⊢
      obtain rfl := Option.some.inj h
      by_cases hend : nread < 0
      · rw [if_pos hend]
        exact .read hreading (.inr rfl)
      · rw [if_neg hend]
        obtain ⟨connection, ws⟩ := client
        exact .read hreading (.inl hreading)
  | written status =>
      cases hwrites : client.writes with
      | nil => simp [ClientEvent.enabled, hwrites] at henabled
      | cons doc ws =>
          simp only [clientCallback, clientOnWrite, hwrites, List.tail_cons] at h ⊢
          split_ifs at h ⊢ with hstatus
          · obtain rfl := Option.some.inj h
            exact .writeFailed hwrites hstatus
          · obtain rfl := Option.some.inj h
            exact .written hwrites (by omega)

/-! ## A run of the client -/

theorem connects_eq_false {status : Int} {prior : Message} (hstatus : status < 0) :
    (ClientEvent.connected status prior).connects = false := by
  simp only [ClientEvent.connects, decide_eq_false_iff_not]
  omega

/-- What one event writes: the document, when it connects. -/
theorem clientDocs_of_step {client client' : IpcClient} {e : ClientEvent}
    (h : clientMachine.step client e = some client') :
    clientDocs client e = if e.connects then [encodeDoc helloFields] else [] := by
  have hcourse := clientStep_of_step h
  unfold clientDocs
  generalize (clientCallback client e).1 = effects at hcourse
  cases hcourse with
  | refused _ hstatus => rw [connects_eq_false hstatus]; rfl
  | connected _ hstatus => simp only [ClientEvent.connects, decide_eq_true hstatus]; rfl
  | @read _ buffered => cases buffered <;> rfl
  | writeFailed | written => rfl

/-- The connects still to come. -/
def IpcClient.pending (client : IpcClient) : Nat :=
  if client.connection = .connecting then 1 else 0

theorem pending_step {client client' : IpcClient} {e : ClientEvent}
    (h : clientMachine.step client e = some client') :
    [e].countP ClientEvent.connects + client'.pending ≤ client.pending := by
  have hcourse := clientStep_of_step h
  generalize (clientCallback client e).1 = effects at hcourse
  cases hcourse with
  | refused hpending hstatus =>
      simp [connects_eq_false hstatus, IpcClient.pending]
  | connected hpending hstatus =>
      simp [ClientEvent.connects, hstatus, IpcClient.pending, hpending]
  | read hreading hconnection =>
      rcases hconnection with rfl | rfl <;>
        simp [ClientEvent.connects, IpcClient.pending]
  | writeFailed | written => simp [ClientEvent.connects, IpcClient.pending]

theorem pending_exec {es : List ClientEvent} {client client' : IpcClient}
    (h : clientMachine.exec client es = some client') :
    es.countP ClientEvent.connects + client'.pending ≤ client.pending := by
  have hrun := Machine.exec_countP (p := ClientEvent.connects) (n := 0)
    (Q := fun n c => n + c.pending ≤ client.pending) (fun n c e c' _ hc hstep => ?_)
    (Nat.zero_add _).le h
  · simpa only [Nat.zero_add] using hrun
  · have hone := pending_step hstep
    omega

theorem clientDocs_of_exec {es : List ClientEvent} {client client' : IpcClient}
    (h : clientMachine.exec client es = some client') :
    clientMachine.trace clientDocs client es
      = List.replicate (es.countP ClientEvent.connects) (encodeDoc helloFields) := by
  induction es generalizing client with
  | nil => rfl
  | cons e es ih =>
      obtain ⟨client₁, hstep, hrest⟩ := Option.bind_eq_some_iff.mp h
      rw [Machine.trace_cons_of_step hstep, clientDocs_of_step hstep, ih hrest, List.countP_cons,
        Nat.add_comm, List.replicate_add]
      split_ifs <;> rfl

theorem entries_connected : [ClientEffect.alloc .topic, .alloc .writeReq,
    .write (encodeDoc helloFields)].filterMap ClientEffect.entry?
      = [.add .topic, .add .writeReq] := rfl

/-- **One event on the client's heap.** -/
theorem client_step {client client' : IpcClient} {e : ClientEvent}
    (h : clientMachine.step client e = some client') :
    (∀ l : Multiset ClientObject, (∀ o, client.inFlight o ≤ l.count o) →
        (postAll l (clientEntries client e)).isSome)
      ∧ ∀ o, (clientEntries client e).count (.add o) + client.inFlight o
        = (clientEntries client e).count (.remove o) + client'.inFlight o
          + (clientLeaves e).count o := by
  have hcourse := clientStep_of_step h
  unfold clientEntries
  generalize (clientCallback client e).1 = effects at hcourse
  cases hcourse with
  | refused _ hstatus =>
      refine ⟨fun l _ => rfl, fun o => ?_⟩
      rw [clientLeaves, if_pos hstatus]
      cases o <;> rfl
  | connected _ hstatus =>
      refine ⟨fun l _ => rfl, fun o => ?_⟩
      rw [clientLeaves, if_neg (Int.not_lt.mpr hstatus), entries_connected]
      cases o <;> simp [IpcClient.inFlight, Nat.add_comm]
  | @read _ buffered =>
      rw [clientLeaves]
      cases buffered with
      | false => exact ⟨fun l _ => rfl, fun o => rfl⟩
      | true =>
          refine ⟨fun l _ => rfl, fun o => ?_⟩
          cases o <;> simp [ClientEffect.entry?, IpcClient.inFlight]
  | writeFailed hwrites hstatus =>
      refine ⟨fun l _ => rfl, fun o => ?_⟩
      rw [clientLeaves, if_pos hstatus]
      cases o <;> simp [IpcClient.inFlight, hwrites]
  | written hwrites hstatus =>
      refine ⟨fun l hl => ?_, fun o => ?_⟩
      · have hpos := hl .writeReq
        rw [IpcClient.inFlight, hwrites] at hpos
        have hmem : ClientObject.writeReq ∈ l :=
          Multiset.count_pos.mp (Nat.lt_of_lt_of_le (Nat.succ_pos _) hpos)
        simp only [ClientEffect.entry?, List.filterMap_cons, List.filterMap_nil,
          postAll_remove hmem]
        rfl
      · rw [clientLeaves, if_neg (Int.not_lt.mpr hstatus)]
        cases o <;> simp [ClientEffect.entry?, IpcClient.inFlight, hwrites, Nat.add_comm]

/-- **A run of the C client.** It hands `uv_write` one document if it connected, the
event of its topic, and none otherwise; nothing is freed that was not
allocated; and it holds a request for each queued write and has lost for good
what its events left: the topic, the buffer of every read that had one, the
request of every write that failed. -/
theorem client_run {es : List ClientEvent} {client client' : IpcClient}
    (hinit : clientMachine.init client) (h : clientMachine.exec client es = some client') :
    (clientMachine.trace clientDocs client es
          = List.replicate (es.countP ClientEvent.connects) (encodeDoc helloFields)
        ∧ es.countP ClientEvent.connects ≤ 1)
      ∧ ∃ l, postAll 0 (clientMachine.trace clientEntries client es) = some l
        ∧ ∀ o, l.count o = client'.inFlight o + (es.flatMap clientLeaves).count o := by
  obtain rfl : client = ipcClientInit := hinit
  refine ⟨⟨clientDocs_of_exec h, ?_⟩, ?_⟩
  · have hpending := pending_exec h
    have hone : ipcClientInit.pending = 1 := rfl
    omega
  · have hzero : ∀ o, ipcClientInit.inFlight o = 0 := fun o => by cases o <;> rfl
    obtain ⟨l, hl, hcount⟩ := Machine.accounts (l := 0) (P := fun _ => True)
      (fun _ => clientLeaves) (fun _ _ _ _ _ => trivial)
      (fun _ _ _ l _ hstep => (client_step hstep).1 l)
      (fun _ _ _ o _ hstep => (client_step hstep).2 o) trivial h
      (fun o => by rw [hzero]; exact Nat.zero_le _)
    refine ⟨l, hl, fun o => ?_⟩
    have := hcount o
    rw [hzero, Machine.trace_eq_flatMap h, Multiset.count_zero] at this
    omega

theorem client_run_connected : ∃ client', clientMachine.exec ipcClientInit
      [.connected 0 blank, .written 0, .read 5 true, .read (-4095) false] = some client'
    ∧ clientMachine.trace clientDocs ipcClientInit
      [.connected 0 blank, .written 0, .read 5 true, .read (-4095) false]
        = [encodeDoc helloFields] := by
  obtain ⟨client', h⟩ : ∃ client', clientMachine.exec ipcClientInit
      [.connected 0 blank, .written 0, .read 5 true, .read (-4095) false] = some client' := by
    refine Option.isSome_iff_exists.mp ?_
    decide +kernel
  exact ⟨client', h, (client_run rfl h).1.1⟩

end Vespa
