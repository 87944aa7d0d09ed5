import Vespa.EventWrite
import Vespa.EventRead

/-!
# The IPC server (`server.c`)

The server runs inside one libuv loop: everything it does happens in a
callback, and a callback runs to its end before the next one starts. A
callback is a function from the server's state to an `Outcome`, the actions
it took and how it ended: with a new state, or with the end of the process.

Per client the state has what libuv keeps for the connection: whether it
is being read or closing, and the queued writes; and whether the pipe is
broken, so that a write ends the process. The handlers `OnPing` and
`OnEvent` are arbitrary functions, over a state `ε` of the application's
own; either may be unset.

Actions are recorded for what they say about the code: which heap objects
a callback creates and releases, which handlers it calls. Nothing branches
on them. The build is the release one, without `VESPA_DEBUG`; `malloc` fails
only where the code looks at its result.
-/

namespace Vespa

open Bson

abbrev ClientId := Nat

/-! ## State -/

/-- Where a connection stands: after `uv_read_start`, or after `uv_close`. -/
inductive Phase where
  | reading
  | closing
deriving DecidableEq, Repr

/-- An `IpcServerClient`: its connection and the documents queued on it. -/
structure Client where
  phase : Phase
  writes : List (List UInt8)
deriving DecidableEq, Repr

/-- `broken` has the connections whose other end is closed, at least for reading, with
nothing written earlier still waiting for room there. -/
structure Server (ε : Type) where
  clients : ClientId → Option Client
  nextId : ClientId
  broken : ClientId → Bool
  app : ε

namespace Server

variable {ε : Type}

def setClient (s : Server ε) (c : ClientId) (cl : Option Client) : Server ε :=
  { s with clients := Function.update s.clients c cl }

@[simp] theorem setClient_self (s : Server ε) (c : ClientId) (cl : Option Client) :
    (s.setClient c cl).clients c = cl := Function.update_self ..

@[simp] theorem setClient_of_ne (s : Server ε) {c d : ClientId} (h : d ≠ c)
    (cl : Option Client) : (s.setClient c cl).clients d = s.clients d :=
  Function.update_of_ne h ..

@[simp] theorem setClient_broken (s : Server ε) (c : ClientId) (cl : Option Client) :
    (s.setClient c cl).broken = s.broken := rfl

end Server

/-! ## Actions -/

/-- What the code allocates: an `IpcServerClient`, the buffer of `AllocBuffer`, the
`Message` of `OnRead`, a digest or topic copied by a payload reader, the
`Message` and the string of the hive's two handlers, a `write_req_t`. -/
inductive HeapObject where
  | client (c : ClientId)
  | readBuffer
  | message
  | payload
  | pong
  | digestStr
  | writeReq (c : ClientId)
deriving DecidableEq, Repr

/-- An effect of the code on the heap or on a handle. -/
inductive Effect where
  | alloc (o : HeapObject)
  | free (o : HeapObject)
  | readStart (c : ClientId)
  | write (c : ClientId) (doc : List UInt8)
  | close (c : ClientId)
deriving DecidableEq, Repr

/-- A finished call of a handler; `none` when the process ended inside it. -/
structure Call where
  kind : Kind
  client : ClientId
  message : Message
  returned : Option Bool
deriving DecidableEq, Repr

inductive Action where
  | effect (e : Effect)
  | call (c : Call)
deriving DecidableEq, Repr

def Action.call? : Action → Option Call
  | .call c => some c
  | .effect _ => none

/-- The course of a callback: what it did and how it ended. -/
structure Outcome (ε : Type) where
  actions : List Action
  result : Except Halt (Server ε)

def Outcome.calls {ε : Type} (o : Outcome ε) : List Call := o.actions.filterMap Action.call?

/-! ## Handlers -/

/-- A message handler: its effects, and what it returns or how the process ended
in it. -/
abbrev Handler (ε : Type) :=
  ClientId → Message → Server ε → List Effect × Except Halt (Bool × Server ε)

structure Handlers (ε : Type) where
  OnPing : Option (Handler ε)
  OnEvent : Option (Handler ε)

/-- `if (server->On…) success = server->On…(c, message);`, with `success` true
before. -/
def callHandler {ε : Type} (f : Option (Handler ε)) (k : Kind) (c : ClientId) (m : Message)
    (s : Server ε) : List Action × Except Halt (Bool × Server ε) :=
  match f with
  | none => ([], .ok (true, s))
  | some f =>
    let (effects, res) := f c m s
    (effects.map .effect ++ [.call ⟨k, c, m, res.toOption.map Prod.fst⟩], res)

/-! ## Reading -/

/-- The size libuv suggests for a read buffer. -/
def suggestedSize : Nat := 65536

/-- What a read callback is called with: a positive `nread`, with what the memory of
the new `Message` holds; zero; or the end of the stream or an error, which may come
without a buffer. -/
inductive ReadResult where
  | data (chunk : List UInt8) (prior : Message)
  | again
  | ended (eof : Bool) (buffered : Bool)
deriving DecidableEq, Repr

/-- `AllocBuffer` is called before a read, but not for the end of a stream that libuv
noticed otherwise. -/
def ReadResult.buffered : ReadResult → Bool
  | .data _ _ => true
  | .again => true
  | .ended _ buffered => buffered

def allocBuffer (buffered : Bool) : List Action :=
  if buffered then [.effect (.alloc .readBuffer)] else []

/-- `FreeBuffer` does nothing to an empty buffer. -/
def freeBuffer (buffered : Bool) : List Action :=
  if buffered then [.effect (.free .readBuffer)] else []

/-- The heap objects of the payload readers: a buffer for each assignment. -/
def payloadAllocs (log : List Store) : List Action :=
  (log.filter fun s => s.reader?.isSome).map fun _ => .effect (.alloc .payload)

section
variable {ε : Type}

def dispatch (h : Handlers ε) (c : ClientId) (m : Message) (s : Server ε) :
    List Action × Except Halt (Bool × Server ε) :=
  match Kind.ofCode? m.kind with
  | some .ping => callHandler h.OnPing .ping c m s
  | some .event =>
    -- this case assigns a `success` of its own; the one tested below stays true
    let (actions, res) := callHandler h.OnEvent .event c m s
    (actions, res.map fun (_, s) => (true, s))
  | _ => ([], .ok (false, s))

def finished (buffered success : Bool) (s : Server ε) : Outcome ε :=
  if success then ⟨freeBuffer buffered, .ok s⟩ else ⟨[], .error (.exit 1)⟩

def andFinished (p : List Action × Except Halt (Bool × Server ε)) : Outcome ε :=
  match p.2 with
  | .error e => ⟨p.1, .error e⟩
  | .ok (success, s) =>
    ⟨p.1 ++ (finished true success s).actions, (finished true success s).result⟩

def closeClient (c : ClientId) (s : Server ε) : List Effect × Server ε :=
  match s.clients c with
  | some cl => ([.close c], s.setClient c (some { cl with phase := .closing }))
  | none => ([.close c], s)

def onRead (lib : Libbson) (h : Handlers ε) (c : ClientId) (nread : ReadResult)
    (s : Server ε) : Outcome ε :=
  match nread with
  | .data chunk prior =>
    match readMessageFromBytes lib chunk (Reader.start prior) with
    | .error e => ⟨[.effect (.alloc .message)], .error e⟩
    | .ok (false, _) => ⟨[.effect (.alloc .message)], .error (.exit 1)⟩
    | .ok (true, r) =>
      let o := andFinished (dispatch h c r.msg s)
      ⟨.effect (.alloc .message) :: payloadAllocs r.log ++ o.actions, o.result⟩
  | .again => finished true true s
  | .ended _ buffered =>
    let (effects, s) := closeClient c s
    let o := finished buffered true s
    ⟨effects.map .effect ++ o.actions, o.result⟩

/-! ## Writing -/

/-- `uv_write`, which writes at once what it can: into a broken pipe not without the
signal. A closing handle refuses the request. -/
def uvWrite (c : ClientId) (doc : List UInt8) (s : Server ε) : Except Halt (Server ε) :=
  match s.clients c with
  | some ⟨.reading, writes⟩ =>
    if s.broken c then .error .sigpipe
    else .ok (s.setClient c (some ⟨.reading, writes ++ [doc]⟩))
  | some ⟨.closing, _⟩ => .ok s
  | none => .error .undefined

theorem uvWrite_open {c : ClientId} {s : Server ε} {ws : List (List UInt8)}
    (hc : s.clients c = some ⟨.reading, ws⟩) (hup : s.broken c = false) (doc : List UInt8) :
    uvWrite c doc s = .ok (s.setClient c (some ⟨.reading, ws ++ [doc]⟩)) := by
  simp only [uvWrite, hc, hup, Bool.false_eq_true, if_false]

theorem uvWrite_broken {c : ClientId} {s : Server ε} {ws : List (List UInt8)}
    (hc : s.clients c = some ⟨.reading, ws⟩) (hup : s.broken c = true) (doc : List UInt8) :
    uvWrite c doc s = .error .sigpipe := by
  simp only [uvWrite, hc, hup, if_true]

def writeMessageToStream (c : ClientId) (m : Message) (s : Server ε) :
    List Effect × Except Halt (Server ε) :=
  match writeMessage m [] with
  | .error e => ([.alloc (.writeReq c)], .error e)
  | .ok doc => ([.alloc (.writeReq c), .write c (encodeDoc doc)], uvWrite c (encodeDoc doc) s)

def ipcServerClientWrite (c : ClientId) (m : Message) (s : Server ε) :
    List Effect × Except Halt (Bool × Server ε) :=
  let (effects, res) := writeMessageToStream c m s
  (effects, res.map fun s => (true, s))

/-- `OnWrite`: after a failed write the request is left where it is. -/
def onWrite (c : ClientId) (status : Int) (s : Server ε) : Outcome ε :=
  if status < 0 then ⟨[], .ok s⟩ else ⟨[.effect (.free (.writeReq c))], .ok s⟩

/-! ## Connections -/

/-- `OnNewConnection`, with `Accept`: a bad status is logged, and the accept is
tried all the same. What is logged is not that status: `CHECK_UV(status, …)`
declares a `status` of its own and initialises it with itself, so whatever that
holds is compared with `UV_OK` and printed. Nothing else depends on it. -/
def onNewConnection (accepted : Bool) (s : Server ε) : Outcome ε :=
  let c := s.nextId
  let s := { s.setClient c (some ⟨.reading, []⟩) with nextId := c + 1 }
  if accepted then ⟨[.effect (.alloc (.client c)), .effect (.readStart c)], .ok s⟩
  else
    let (effects, s) := closeClient c s
    ⟨.effect (.alloc (.client c)) :: effects.map .effect, .ok s⟩

def onCloseClient (c : ClientId) (s : Server ε) : Outcome ε :=
  ⟨[.effect (.free (.client c))], .ok (s.setClient c none)⟩

/-! ## The loop -/

/-- What happens to the server. The last two are no callbacks: the other end of a
connection, made or still to be accepted, is closed and breaks the pipe; and libuv,
writing on what had waited for room, finds that end closed. -/
inductive LoopEvent where
  | connection (status : Int) (accepted : Bool)
  | read (c : ClientId) (nread : ReadResult)
  | written (c : ClientId) (status : Int)
  | closed (c : ClientId)
  | hangUp (c : ClientId)
  | brokenPipe (c : ClientId)
deriving DecidableEq, Repr

/-- When libuv makes a callback: it reads from a connection being read, completes,
fails or cancels the oldest write, and reports a handle closed after its last
write. A write that was done before the close completes after it. No connection is
pending when the status reports an error. -/
def LoopEvent.enabled (s : Server ε) : LoopEvent → Bool
  | .connection status accepted => !accepted || 0 ≤ status
  | .read c nread =>
    match s.clients c, nread with
    | some ⟨.reading, _⟩, .data chunk _ => !chunk.isEmpty
    | some ⟨.reading, _⟩, _ => true
    | _, _ => false
  | .written c _ =>
    match s.clients c with
    | some ⟨_, _ :: _⟩ => true
    | _ => false
  | .closed c =>
    match s.clients c with
    | some ⟨.closing, []⟩ => true
    | _ => false
  | .hangUp _ => true
  | .brokenPipe c =>
    match s.clients c with
    | some ⟨.reading, _ :: _⟩ => true
    | _ => false

/-- libuv takes the oldest write off the queue before it reports it. -/
def popWrite (c : ClientId) (s : Server ε) : Server ε :=
  match s.clients c with
  | some ⟨p, _ :: ws⟩ => s.setClient c (some ⟨p, ws⟩)
  | _ => s

/-- The callback of an event, or what else comes of it. -/
def callback (lib : Libbson) (h : Handlers ε) (s : Server ε) : LoopEvent → Outcome ε
  | .connection _ accepted => onNewConnection accepted s
  | .read c nread =>
    let o := onRead lib h c nread s
    ⟨allocBuffer nread.buffered ++ o.actions, o.result⟩
  | .written c status => onWrite c status (popWrite c s)
  | .closed c => onCloseClient c s
  | .hangUp c => ⟨[], .ok { s with broken := Function.update s.broken c true }⟩
  | .brokenPipe _ => ⟨[], .error .sigpipe⟩

/-- The server as long as its process lives, from no clients. -/
def serverMachine (lib : Libbson) (h : Handlers ε) : Machine (Server ε) LoopEvent where
  init s := ∀ c, s.clients c = none
  step s e := if e.enabled s then (callback lib h s e).result.toOption else none

/-! ## Callbacks on one connection -/

/-- Successive reads of data on one connection; the process ends in the first
that fails. -/
def onReads (lib : Libbson) (h : Handlers ε) (c : ClientId) :
    List (List UInt8 × Message) → Server ε → List (Outcome ε)
  | [], _ => []
  | (chunk, prior) :: reads, s =>
    let o := onRead lib h c (.data chunk prior) s
    o :: match o.result with
      | .ok s' => onReads lib h c reads s'
      | .error _ => []

/-! ## What a read of data comes to -/

@[simp] theorem call?_effect (e : Effect) : Action.call? (.effect e) = none := rfl

@[simp] theorem call?_call (c : Call) : Action.call? (.call c) = some c := rfl

@[simp] theorem filterMap_call?_effects (es : List Effect) :
    (es.map Action.effect).filterMap Action.call? = [] := by
  simp [List.filterMap_map, Function.comp_def]

@[simp] theorem filterMap_call?_payloadAllocs (log : List Store) :
    (payloadAllocs log).filterMap Action.call? = [] := by
  simp only [payloadAllocs, List.filterMap_map, List.filterMap_eq_nil_iff]
  exact fun _ _ => rfl

@[simp] theorem calls_andFinished (p : List Action × Except Halt (Bool × Server ε)) :
    (andFinished p).actions.filterMap Action.call? = p.1.filterMap Action.call? := by
  unfold andFinished
  split
  · rfl
  · unfold finished
    split_ifs <;> simp [freeBuffer]

theorem calls_onRead_of_read {lib : Libbson} {h : Handlers ε} {c : ClientId}
    {chunk : List UInt8} {prior : Message} {r : Reader} {s : Server ε}
    (hr : readMessageFromBytes lib chunk (Reader.start prior) = .ok (true, r)) :
    (onRead lib h c (.data chunk prior) s).calls
      = (dispatch h c r.msg s).1.filterMap Action.call? := by
  simp only [onRead, hr, Outcome.calls, List.cons_append, List.filterMap_cons, call?_effect,
    List.filterMap_append, filterMap_call?_payloadAllocs, calls_andFinished, List.nil_append]

theorem result_onRead_of_read {lib : Libbson} {h : Handlers ε} {c : ClientId}
    {chunk : List UInt8} {prior : Message} {r : Reader} {s : Server ε}
    (hr : readMessageFromBytes lib chunk (Reader.start prior) = .ok (true, r)) :
    (onRead lib h c (.data chunk prior) s).result
      = (andFinished (dispatch h c r.msg s)).result := by
  simp only [onRead, hr]

/-- **Bytes that are refused end the process**, without a call. -/
theorem onRead_of_refused {lib : Libbson} {h : Handlers ε} {c : ClientId}
    {chunk : List UInt8} {prior : Message} {s : Server ε}
    (hr : bsonValidate lib chunk = false) :
    (onRead lib h c (.data chunk prior) s).calls = []
      ∧ (onRead lib h c (.data chunk prior) s).result = .error (.exit 1) := by
  have hread : readMessageFromBytes lib chunk (Reader.start prior)
      = .ok (false, Reader.start prior) := by
    rw [readMessageFromBytes_eq, hr]
    rfl
  simp only [onRead, hread, and_true]
  rfl

end

end Vespa
