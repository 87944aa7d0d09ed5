import Vespa.Wire

/-!
# The message reader (`event.c`, `ReadMessageFromBytes` in `common.h`)

`ReadMessage` loops over the fields of a document and assigns the members
of a `Message` one by one, in whatever order the fields come; the payload
reader it calls for a `data` field is chosen by the kind the message holds
*at that moment*.

The state of the loop is a `Reader`: the message, and next to it the log
of the assignments made to it so far, labelled by the function that made
them. The log is an observer only: nothing branches on it, and
`Reader.run_msg` says the message is the log applied to what the memory
held before. What a call leaves uninitialised, and whose assignment a
member holds, is then a question about the log.
-/

namespace Vespa

open Bson

/-! ## Assignments -/

/-- A group of assignments the reader makes for one field. `ReadPing` and
`ReadEvent` set a length member and point `digest` or `topic` at a fresh buffer. -/
inductive Store where
  | kind (c : BitVec 32)
  | timestamp (t : BitVec 64)
  | digest (data : List UInt8)
  | topic (data : List UInt8)
deriving DecidableEq, Repr

def Store.reader? : Store → Option Kind
  | .digest _ => some .ping
  | .topic _ => some .event
  | _ => none

def Store.apply (m : Message) : Store → Message
  | .kind c => { m with kind := c }
  | .timestamp t => { m with timestamp := t }
  | .digest data => m.setPing ⟨.ptr data, .int (BitVec.ofNat 64 data.length)⟩
  | .topic data => m.setEvent ⟨.ptr data, .int (BitVec.ofNat 64 data.length)⟩

structure Reader where
  msg : Message
  log : List Store
deriving DecidableEq, Repr

namespace Reader

def start (prior : Message) : Reader := ⟨prior, []⟩

@[simp] theorem start_msg (prior : Message) : (start prior).msg = prior := rfl

def store (r : Reader) (s : Store) : Reader := ⟨s.apply r.msg, r.log ++ [s]⟩

def run (r : Reader) (ss : List Store) : Reader := ss.foldl store r

@[simp] theorem run_nil (r : Reader) : r.run [] = r := rfl

@[simp] theorem run_cons (r : Reader) (s : Store) (ss : List Store) :
    r.run (s :: ss) = (r.store s).run ss := rfl

theorem run_append (r : Reader) (ss ts : List Store) :
    r.run (ss ++ ts) = (r.run ss).run ts := List.foldl_append

theorem run_log (r : Reader) (ss : List Store) : (r.run ss).log = r.log ++ ss := by
  induction ss generalizing r with
  | nil => simp
  | cons s ss ih => simp [ih, store]

/-- The message is the log applied to the memory. -/
theorem run_msg (r : Reader) (ss : List Store) :
    (r.run ss).msg = ss.foldl Store.apply r.msg := by
  induction ss generalizing r with
  | nil => rfl
  | cons s ss ih => exact ih (r.store s)

end Reader

/-! ## The readers -/

def readPing (B : List UInt8) (r : Reader) : Reader :=
  (fields B).foldl (fun r e =>
    if e.key = digestKey then r.store (.digest (iterBinary e.value)) else r) r

/-- `ReadPong`, whose body is commented out. -/
def readPong (_ : List UInt8) (r : Reader) : Reader := r

def readEvent (B : List UInt8) (r : Reader) : Reader :=
  (fields B).foldl (fun r e =>
    if e.key = topicKey then r.store (.topic (iterUtf8 e.value)) else r) r

/-- `ReadError`, whose body is commented out. -/
def readError (_ : List UInt8) (r : Reader) : Reader := r

def readPayload : Kind → List UInt8 → Reader → Reader
  | .ping => readPing
  | .pong => readPong
  | .event => readEvent
  | .error => readError

/-- The `data` branch of `ReadMessage`; `none` is its early `return`. -/
def readData (lib : Libbson) (v : Value) (r : Reader) : Except Halt (Option Reader) := do
  let doc := iterDocument v
  if ← bsonInitStatic lib doc then
    match Kind.ofCode? r.msg.kind with
    | some k => return some (readPayload k (doc.getD []) r)
    | none => return none
  else
    return some r

def readFields (lib : Libbson) : List Element → Reader → Except Halt Reader
  | [], r => .ok r
  | e :: es, r =>
    if e.key = kindKey then
      readFields lib es (r.store (.kind (iterInt32 e.value)))
    else if e.key = timestampKey then
      readFields lib es (r.store (.timestamp (iterInt64 e.value)))
    else if e.key = dataKey then
      match readData lib e.value r with
      | .error h => .error h
      | .ok (some r') => readFields lib es r'
      | .ok none => .ok r
    else
      -- unknown keys are logged and skipped
      readFields lib es r

def readMessage (lib : Libbson) (B : List UInt8) (r : Reader) : Except Halt Reader :=
  readFields lib (fields B) r

def readMessageFromBytes (lib : Libbson) (bytes : List UInt8) (r : Reader) :
    Except Halt (Bool × Reader) := do
  if !(← bsonInitStatic lib (some bytes)) then
    return (false, r)
  if !bsonValidate lib bytes then
    return (false, r)
  let r ← readMessage lib bytes r
  return (true, r)

/-! ## One spec lemma for each reader -/

/-- The assignments a payload reader makes for a document. -/
def payloadStores : Kind → List Element → List Store
  | .ping, es => es.filterMap fun e =>
    if e.key = digestKey then some (.digest (iterBinary e.value)) else none
  | .event, es => es.filterMap fun e =>
    if e.key = topicKey then some (.topic (iterUtf8 e.value)) else none
  | .pong, _ => []
  | .error, _ => []

/-- A reader's loop over the fields with one key is the run of the assignments
it makes. -/
theorem foldl_store (key : List UInt8) (mk : Value → Store) (es : List Element) (r : Reader) :
    es.foldl (fun r e => if e.key = key then r.store (mk e.value) else r) r
      = r.run (es.filterMap fun e => if e.key = key then some (mk e.value) else none) := by
  induction es generalizing r with
  | nil => rfl
  | cons e es ih =>
      by_cases he : e.key = key
      · simp only [List.foldl_cons, if_pos he, List.filterMap_cons, ih, Reader.run_cons]
      · simp only [List.foldl_cons, if_neg he, List.filterMap_cons, ih]

theorem readPayload_eq (k : Kind) (B : List UInt8) (r : Reader) :
    readPayload k B r = r.run (payloadStores k (fields B)) := by
  cases k with
  | ping => exact foldl_store digestKey (fun v => .digest (iterBinary v)) (fields B) r
  | event => exact foldl_store topicKey (fun v => .topic (iterUtf8 v)) (fields B) r
  | pong | error => rfl

theorem reader?_payloadStores {k : Kind} {es : List Element} {s : Store}
    (h : s ∈ payloadStores k es) : s.reader? = some k := by
  cases k with
  | ping | event =>
      obtain ⟨e, -, he⟩ := List.mem_filterMap.mp h
      split at he
      · obtain rfl := Option.some.inj he
        rfl
      · cases he
  | pong | error => cases h

theorem kind_run_payloadStores {k : Kind} {ss : List Store} (r : Reader)
    (h : ∀ s ∈ ss, s.reader? = some k) : (r.run ss).msg.kind = r.msg.kind := by
  induction ss generalizing r with
  | nil => rfl
  | cons s ss ih =>
      rw [Reader.run_cons, ih (r.store s) fun s' hs' => h s' (List.mem_cons_of_mem _ hs')]
      cases s with
      | kind c | timestamp t => cases h _ List.mem_cons_self
      | digest d | topic t => rfl

theorem readData_document {lib : Libbson} {raw : List UInt8} {r : Reader} {k : Kind}
    (hraw : headerOK raw = true) (hk : r.msg.kind = k.code) :
    readData lib (.document raw) r = .ok (some (r.run (payloadStores k (fields raw)))) := by
  simp only [readData, iterDocument, bsonInitStatic, hraw, hk, Kind.ofCode?_code,
    bind, Except.bind, if_true, Option.getD_some, readPayload_eq]
  rfl

theorem readData_invalid {lib : Libbson} {raw : List UInt8} {r : Reader}
    (hraw : headerOK raw = true) (hk : Kind.ofCode? r.msg.kind = none) :
    readData lib (.document raw) r = .ok none := by
  simp only [readData, iterDocument, bsonInitStatic, hraw, hk, bind, Except.bind, if_true]
  rfl

theorem readData_other {lib : Libbson} {v : Value} {r : Reader} (hv : iterDocument v = none) :
    readData lib v r = if lib.nullAborts then .error .abort else .ok (some r) := by
  simp only [readData, hv, bsonInitStatic]
  cases lib.nullAborts <;> rfl

/-- The `data` turn of the loop. -/
theorem readFields_dataKey {lib : Libbson} {e : Element} (hkey : e.key = dataKey)
    (es : List Element) (r : Reader) :
    readFields lib (e :: es) r = match readData lib e.value r with
      | .error h => .error h
      | .ok (some r') => readFields lib es r'
      | .ok none => .ok r := by
  rw [readFields, if_neg (hkey ▸ dataKey_ne.1), if_neg (hkey ▸ dataKey_ne.2), if_pos hkey]

/-- **`ReadMessageFromBytes`** is validation, then the field loop. -/
theorem readMessageFromBytes_eq (lib : Libbson) (bytes : List UInt8) (r : Reader) :
    readMessageFromBytes lib bytes r =
      if bsonValidate lib bytes then
        (readFields lib (fields bytes) r).map fun r' => (true, r')
      else .ok (false, r) := by
  cases hv : bsonValidate lib bytes with
  | true =>
      have hhead := (of_bsonValidate hv).1
      simp only [readMessageFromBytes, bsonInitStatic, hhead, hv, readMessage, bind,
        Except.bind, Bool.not_true, Bool.false_eq_true, if_false, if_true, pure, Except.pure]
      cases readFields lib (fields bytes) r <;> rfl
  | false =>
      cases hhead : headerOK bytes <;>
        simp [readMessageFromBytes, bsonInitStatic, hhead, hv, bind, Except.bind, pure,
          Except.pure]

theorem of_readMessageFromBytes {lib : Libbson} {bytes : List UInt8} {r r' : Reader}
    (h : readMessageFromBytes lib bytes r = .ok (true, r')) :
    bsonValidate lib bytes = true ∧ readFields lib (fields bytes) r = .ok r' := by
  rw [readMessageFromBytes_eq] at h
  split at h
  · rename_i hv
    cases hr : readFields lib (fields bytes) r with
    | error e => rw [hr] at h; cases h
    | ok r'' =>
        rw [hr] at h
        obtain ⟨-, rfl⟩ := Prod.mk.inj (Except.ok.inj h)
        exact ⟨hv, rfl⟩
  · obtain ⟨h, -⟩ := Prod.mk.inj (Except.ok.inj h)
    cases h

/-! ## Reading the format's own documents -/

def messageStores (k : Kind) (stamp : Value) (data : List Element) : List Store :=
  .kind k.code :: .timestamp (iterInt64 stamp) :: payloadStores k data

theorem readFields_messageFields {lib : Libbson} {k : Kind} {stamp : Value}
    {data : List Element} (hdata : headerOK (encodeDoc data) = true)
    (hfields : fields (encodeDoc data) = data) (r : Reader) :
    readFields lib (messageFields k stamp data) r = .ok (r.run (messageStores k stamp data)) := by
  have hread : readData lib (.document (encodeDoc data))
      ((r.store (.kind k.code)).store (.timestamp (iterInt64 stamp)))
      = .ok (some (((r.store (.kind k.code)).store (.timestamp (iterInt64 stamp))).run
          (payloadStores k data))) := by
    rw [readData_document hdata rfl, hfields]
  simp only [messageFields, readFields, if_true, if_neg timestampKey_ne, if_neg dataKey_ne.1,
    if_neg dataKey_ne.2, iterInt32, hread, messageStores, Reader.run_cons]

/-- **Reading a well-formed message document** accepts it and makes exactly the
format's assignments, whatever the memory held. -/
theorem readMessageFromBytes_wire {lib : Libbson} (w : WireMessage lib) (r : Reader) :
    readMessageFromBytes lib w.bytes r = .ok (true,
      r.run (messageStores w.payload.kind w.stamp (payloadFields w.payload))) := by
  rw [readMessageFromBytes_eq, w.bsonValidate_bytes, w.fields_bytes,
    readFields_messageFields (headerOK_encodeDoc w.length_inner_le) w.fields_data]
  rfl

theorem view?_messageStores {stamp : Value} {p : Payload} (hlen : p.bytes.length < maxSize)
    (hkind : p.kind = .ping ∨ p.kind = .event) (r : Reader) :
    (r.run (messageStores p.kind stamp (payloadFields p))).msg.view?
      = some ⟨iterInt64 stamp, p⟩ := by
  have hlen : p.bytes.length < 2 ^ 64 := by
    simp only [maxSize] at hlen
    omega
  cases p with
  | ping d =>
      have hb : Word.bytes? (.ptr d) (.int (BitVec.ofNat 64 d.length)) = some d :=
        Word.bytes?_stored hlen
      simp only [Payload.kind, messageStores, payloadFields, payloadStores, if_true,
        List.filterMap_cons, List.filterMap_nil, iterBinary, Reader.run_msg, List.foldl_cons,
        List.foldl_nil, Store.apply, Message.view?, Message.payload?, Message.setPing,
        Message.ping, Kind.ofCode?_code, hb, Option.map_some]
  | event t =>
      have hb : Word.bytes? (.ptr t) (.int (BitVec.ofNat 64 t.length)) = some t :=
        Word.bytes?_stored hlen
      simp only [Payload.kind, messageStores, payloadFields, payloadStores, if_true,
        List.filterMap_cons, List.filterMap_nil, iterUtf8, Reader.run_msg, List.foldl_cons,
        List.foldl_nil, Store.apply, Message.view?, Message.payload?, Message.setEvent,
        Message.event, Kind.ofCode?_code, hb, Option.map_some]
  | pong d | error c msg => rcases hkind with h | h <;> cases h

/-- **A ping or event document reads back as its message**, in any memory. -/
theorem view?_wire {lib : Libbson} (w : WireMessage lib)
    (hkind : w.payload.kind = .ping ∨ w.payload.kind = .event) (r : Reader) :
    (r.run (messageStores w.payload.kind w.stamp (payloadFields w.payload))).msg.view?
      = some w.decoded :=
  view?_messageStores w.length_payload_lt hkind r

end Vespa
