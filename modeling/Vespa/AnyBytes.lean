import Vespa.HubService
import Vespa.Isolation

/-!
# The hive among clients that send anything

`Isolation` says which chunks the hive survives. Here is what it does with them,
over whole runs and for any clients. `asked` reads off a chunk the kind it ends
with and the payload that was read last, under whatever kind was in force then;
the hive calls the handler of the one with the other, and answers a ping with it.

So a document may name a kind twice, and a topic come back as a digest: the union
is read as its last kind. But nothing except the bytes of a chunk decides what is
done about it, not the memory its message is put into, nor the other clients; and
nothing but a pong written to a client that has gone ends the hive.
-/

namespace Vespa

open Bson

variable {lib : Libbson}

/-! ## What a chunk asks for -/

structure Ask where
  kind : Kind
  payload : List UInt8
deriving DecidableEq, Repr

/-- The kind in force at the end of a chunk, with the last payload of it. -/
def asked (chunk : List UInt8) : Option Ask :=
  (Kind.ofCode? (lastKind kInvalidMessage (fields chunk))).bind fun kind =>
    ((storesOf kInvalidMessage (fields chunk)).filterMap Store.data?).getLast?.map fun payload =>
      ⟨kind, payload⟩

/-- The documents the hive writes for it: a pong for a ping. -/
def Ask.replies (a : Ask) : List (List UInt8) :=
  if a.kind = .ping then [pongDoc a.payload] else []

/-! ## The sizes of what is read -/

theorem length_le_of_mem_fields {e : Element} {bs : List UInt8} (he : e ∈ fields bs) :
    ((valueOf e.value.type).encode e.value).length ≤ bs.length := by
  obtain ⟨before, after, hfields⟩ := List.append_of_mem he
  have hbody : body bs = (fields bs).flatMap element.encode ++ (iterate bs).2 :=
    (element.of_decodeMany bs.length (body bs)).2
  have hlength := congrArg List.length hbody
  rw [hfields, List.flatMap_append, List.flatMap_cons] at hlength
  simp only [body, List.length_append, List.length_dropLast, List.length_drop] at hlength
  have helement : (element.encode e).length = _ := length_element e.key e.value
  omega

theorem length_iterBinary_le (v : Value) :
    (iterBinary v).length ≤ ((valueOf v.type).encode v).length := by
  cases v with
  | binary sub d =>
      show d.length ≤ (Layout.binary.encode (sub, d)).length
      by_cases hsub : sub = subtypeBinaryDeprecated
      · simp [Layout.binary, Codec.dep, Layout.binaryHeader, Layout.binaryData, Codec.inj, hsub,
          Layout.counted, Codec.filter, Codec.bytes]
        omega
      · simp [Layout.binary, Codec.dep, Layout.binaryHeader, Layout.binaryData, Codec.inj, hsub,
          Codec.bytes]
  | _ => exact Nat.zero_le _

theorem length_iterUtf8_le (v : Value) :
    (iterUtf8 v).length ≤ ((valueOf v.type).encode v).length := by
  cases v with
  | utf8 s =>
      rw [Value.type, length_utf8]
      exact Nat.le_add_right ..
  | _ => exact Nat.zero_le _

theorem length_payloadStores_le {k : Kind} {raw : List UInt8} {s : Store}
    (hs : s ∈ payloadStores k (fields raw)) {d : List UInt8} (hd : s.data? = some d) :
    d.length ≤ raw.length := by
  cases k with
  | ping | event =>
      obtain ⟨e, he, hse⟩ := List.mem_filterMap.mp hs
      have hvalue := length_le_of_mem_fields he
      split at hse
      · obtain rfl := Option.some.inj hse
        obtain rfl := Option.some.inj hd
        first
          | exact (length_iterBinary_le _).trans hvalue
          | exact (length_iterUtf8_le _).trans hvalue
      · cases hse
  | pong | error => cases hs

/-- **A payload is no longer than the chunk it was read from.** -/
theorem length_storesOf_le {k : BitVec 32} {es : List Element} {chunk : List UInt8}
    (hes : ∀ e ∈ es, e ∈ fields chunk) {s : Store} (hs : s ∈ storesOf k es) {d : List UInt8}
    (hd : s.data? = some d) : d.length ≤ chunk.length := by
  induction es generalizing k with
  | nil => cases hs
  | cons e es ih =>
      rcases List.mem_append.mp hs with hs | hs
      · unfold fieldStores at hs
        split_ifs at hs
        · obtain rfl := List.mem_singleton.mp hs
          cases hd
        · obtain rfl := List.mem_singleton.mp hs
          cases hd
        · cases hdoc : dataDoc? e <;> cases hk : Kind.ofCode? k <;> simp only [hdoc, hk] at hs
          case some.some raw kind =>
            have hvalue := length_le_of_mem_fields (hes e List.mem_cons_self)
            rw [(dataDoc?_eq_some.mp hdoc).2, Value.type, length_document] at hvalue
            exact (length_payloadStores_le hs hd).trans hvalue
          all_goals cases hs
      · exact ih (fun e he => hes e (List.mem_cons_of_mem _ he)) hs

theorem length_pongDoc (d : List UInt8) : (pongDoc d).length = d.length + 58 := by
  show (encodeDoc (messageFields .pong (.int64 12937) (payloadFields (.pong d)))).length = _
  rw [length_messageFields _ (.int64 _)]
  have hdigest := length_digestFields d
  have hfields : payloadFields (.pong d) = [⟨digestKey, .binary subtypeBinary d⟩] := rfl
  rw [hfields]
  omega

/-! ## What a chunk leaves in memory -/

theorem Store.isSome_data? (s : Store) : s.data?.isSome = s.reader?.isSome := by
  cases s <;> rfl

/-- The payload words hold the data of the last payload assignment. -/
theorem hasBytes_of_getLast? {ss : List Store} {m : Message} {d : List UInt8}
    (hlen : ∀ s ∈ ss, ∀ d, s.data? = some d → d.length < 2 ^ 64)
    (hlast : (ss.filterMap Store.data?).getLast? = some d) :
    (ss.foldl Store.apply m).HasBytes d := by
  induction ss using List.reverseRecOn with
  | nil => cases hlast
  | append_singleton ss s ih =>
      rw [List.foldl_append, List.foldl_cons, List.foldl_nil]
      rw [List.filterMap_append, List.getLast?_append] at hlast
      have hprefix := fun s' hs' => hlen s' (List.mem_append_left _ hs')
      cases s with
      | kind c | timestamp t => exact ih hprefix hlast
      | digest d' | topic d' =>
          obtain rfl := Option.some.inj hlast
          exact Word.bytes?_stored (hlen _ List.mem_concat_self d' rfl)

/-- A harmless chunk asks for something. -/
theorem Harmless.asked {chunk : List UInt8} (h : Harmless lib chunk) :
    ∃ a, asked chunk = some a ∧ (a.kind = .ping ∨ a.kind = .event) := by
  have hsome : ((storesOf kInvalidMessage (fields chunk)).filterMap Store.data?) ≠ [] := by
    intro hnil
    refine h.payload (payloadKinds_eq_nil.mpr fun s hs => ?_)
    have hnone := List.filterMap_eq_nil_iff.mp hnil s hs
    have hsame := s.isSome_data?
    rw [hnone] at hsame
    exact Option.isNone_iff_eq_none.mp (by simpa using hsame.symm)
  obtain ⟨d, hd⟩ := Option.ne_none_iff_exists'.mp (mt List.getLast?_eq_none_iff.mp hsome)
  rcases h.kind with hk | hk
  · exact ⟨⟨.ping, d⟩, by simp [Vespa.asked, hk, hd, Kind.ofCode?_code], .inl rfl⟩
  · exact ⟨⟨.event, d⟩, by simp [Vespa.asked, hk, hd, Kind.ofCode?_code], .inr rfl⟩

section
variable {chunk : List UInt8} {a : Ask}

theorem of_asked (ha : asked chunk = some a) :
    lastKind kInvalidMessage (fields chunk) = a.kind.code
      ∧ ((storesOf kInvalidMessage (fields chunk)).filterMap Store.data?).getLast?
        = some a.payload := by
  obtain ⟨kind, hkind, ha⟩ := Option.bind_eq_some_iff.mp ha
  obtain ⟨payload, hpayload, rfl⟩ := Option.map_eq_some_iff.mp ha
  exact ⟨Kind.ofCode?_eq_some.mp hkind, hpayload⟩

theorem length_of_asked (ha : asked chunk = some a) : a.payload.length ≤ chunk.length := by
  obtain ⟨s, hs, hd⟩ := List.mem_filterMap.mp (List.mem_of_getLast? (of_asked ha).2)
  exact length_storesOf_le (fun _ he => he) hs hd

/-- The message of a harmless chunk, in any memory. -/
theorem message_of_asked (ha : asked chunk = some a) (prior : Message) :
    let r := (Reader.start prior).run (storesOf kInvalidMessage (fields chunk))
    r.msg.kind = a.kind.code ∧ r.msg.HasBytes a.payload := by
  obtain ⟨hlast, hpayload⟩ := of_asked ha
  refine ⟨(kind_run_storesOf ..).trans (lastKind_of_invalid hlast _), ?_⟩
  rw [Reader.run_msg]
  exact hasBytes_of_getLast? (fun s hs d => length_data?_storesOf hs) hpayload

end

/-! ## Requests -/

section
variable (r : Request lib)

theorem Request.storesOf_bytes : storesOf kInvalidMessage (fields r.bytes)
    = messageStores r.payload.kind r.stamp (payloadFields r.payload) := by
  rw [r.fields_bytes]
  have hdata := r.fields_data
  simp [messageFields, storesOf, fieldStores, inForce, dataDoc?, iterInt32, iterDocument,
    timestampKey_ne, dataKey_ne.1, dataKey_ne.2, Kind.ofCode?_code, messageStores, hdata]

theorem Request.lastKind_bytes :
    lastKind kInvalidMessage (fields r.bytes) = r.payload.kind.code := by
  rw [r.fields_bytes]
  simp [messageFields, lastKind, inForce, iterInt32, timestampKey_ne, dataKey_ne.1]

/-- **A request asks for what it says.** -/
theorem Request.asked_bytes : asked r.bytes = some ⟨r.payload.kind, r.payload.bytes⟩ := by
  have hstores : ((storesOf kInvalidMessage (fields r.bytes)).filterMap Store.data?).getLast?
      = some r.payload.bytes := by
    rw [r.storesOf_bytes]
    have hasks := r.asks
    cases hp : r.payload with
    | ping digest | event topic =>
        simp only [messageStores, payloadStores, payloadFields, Payload.kind, if_true,
          List.filterMap_cons]
        rfl
    | pong digest | error code message =>
        rw [hp] at hasks
        rcases hasks with h | h <;> cases h
  rw [asked, r.lastKind_bytes, Kind.ofCode?_code, hstores]
  rfl

/-- **Every request is harmless**; only the pipe of its client can be the end of the hive. -/
theorem Request.harmless : Harmless lib r.bytes where
  valid := r.bsonValidate_bytes
  goesThrough := by
    rw [r.fields_bytes]
    simp [messageFields, aborts, iterDocument, dataKey_ne.1.symm, dataKey_ne.2.symm]
  guarded := by
    rw [r.fields_bytes]
    simp [messageFields, Vespa.guarded, dataDoc?, inForce, iterInt32, dataKey_ne.1.symm,
      dataKey_ne.2.symm, timestampKey_ne, Kind.ofCode?_code]
  kind := by
    rw [r.lastKind_bytes]
    exact r.asks.imp (congrArg Kind.code) (congrArg Kind.code)
  payload hnone := by
    have hread := payloadKinds_eq_nil.mp hnone
    obtain ⟨s, hs, hd⟩ := List.mem_filterMap.mp
      (List.mem_of_getLast? (of_asked r.asked_bytes).2)
    have hsome := s.isSome_data?
    rw [hd, hread s hs] at hsome
    cases hsome

end

/-! ## What the hive does about it -/

def Action.written? : Action → Option (ClientId × List UInt8)
  | .effect (.write c doc) => some (c, doc)
  | _ => none

/-- The documents a callback writes, with the clients it writes them to. -/
def Outcome.written {ε : Type} (o : Outcome ε) : List (ClientId × List UInt8) :=
  o.actions.filterMap Action.written?

@[simp] theorem written?_payloadAllocs (log : List Store) :
    (payloadAllocs log).filterMap Action.written? = [] := by
  simp only [payloadAllocs, List.filterMap_map, List.filterMap_eq_nil_iff]
  exact fun _ _ => rfl

/-- The call of a handler that a client's chunk asks for. -/
structure Meets (x : ClientId × Ask) (call : Call) : Prop where
  kind : call.kind = x.2.kind
  client : call.client = x.1
  payload : call.message.HasBytes x.2.payload
  returned : ∃ b, call.returned = some b
  ping : x.2.kind = .ping → call.returned = some true

/-- The documents owed for it, with the client they go to. -/
def owed (x : ClientId × Ask) : List (ClientId × List UInt8) :=
  x.2.replies.map fun doc => (x.1, doc)

/-- **The `switch`** on a message that is a ping or an event over a payload in memory, to
a client that can be written to. -/
theorem dispatch_hive {c : ClientId} {a : Ask} {m : Message} {s : Server Allocator}
    {ws : List (List UInt8)} (hkind : a.kind = .ping ∨ a.kind = .event)
    (hm : m.kind = a.kind.code) (hd : m.HasBytes a.payload)
    (hfits : (pongDoc a.payload).length ≤ maxSize) (hc : s.clients c = some ⟨.reading, ws⟩)
    (hup : a.kind = .ping → s.broken c = false) :
    ∃ call, Meets (c, a) call
      ∧ (dispatch hive c m s).1.filterMap Action.call? = [call]
      ∧ (dispatch hive c m s).1.filterMap Action.written? = owed (c, a) := by
  obtain ⟨kind, payload⟩ := a
  rw [dispatch, hm, Kind.ofCode?_code]
  rcases hkind with rfl | rfl
  · obtain ⟨doc, hwrite, hdoc⟩ := writeMessage_pong hd (s.app 0).contents
    obtain rfl := hdoc hfits
    have hqueued := uvWrite_open (s := { s with app := s.app.next }) hc (hup rfl)
      (encodeDoc (pongFields payload))
    have hping : ∃ s', hiveOnPing c m s
        = ([.alloc .pong, .alloc (.writeReq c), .write c (pongDoc payload)], .ok (true, s')) := by
      simp only [hiveOnPing, ipcServerClientWrite, writeMessageToStream, hwrite, hqueued]
      exact ⟨_, rfl⟩
    obtain ⟨s', hping⟩ := hping
    refine ⟨⟨.ping, c, m, some true⟩, ⟨rfl, rfl, hd, ⟨true, rfl⟩, fun _ => rfl⟩, ?_, ?_⟩ <;>
      simp only [callHandler, hive, hping] <;> rfl
  · have hrun : (hiveOnEvent c m s).2 = _ := hive_run_event (c := c) (s := s) hd
    refine ⟨⟨.event, c, m, some (s.app 0).succeeds⟩,
      ⟨rfl, rfl, hd, ⟨_, rfl⟩, Kind.noConfusion⟩, ?_, ?_⟩
    · simp [callHandler, hive, hrun, Except.toOption]
    · have hnone : ((hiveOnEvent c m s).1.map Action.effect).filterMap Action.written? = [] := by
        simp only [hiveOnEvent]
        rcases digestToStr (s.app 0) m.event.topic m.event.topicLen with e | _ | _ <;> rfl
      simp only [callHandler, hive, List.filterMap_append, hnone]
      rfl

/-! ## Runs -/

/-- What the data of an event asks for, and of whom. -/
def LoopEvent.ask? : LoopEvent → Option (ClientId × Ask)
  | .read c (.data chunk _) => (asked chunk).map fun a => (c, a)
  | _ => none

/-- If the event brings data, it is a chunk the hive survives, in one buffer. -/
def LoopEvent.Tame (lib : Libbson) : LoopEvent → Prop
  | .read _ (.data chunk _) => Harmless lib chunk ∧ chunk.length ≤ suggestedSize
  | _ => True

/-- No write of the event meets a broken pipe. -/
def LoopEvent.Writable (s : Server Allocator) : LoopEvent → Prop
  | .read c (.data chunk _) => Answerable s c chunk
  | .brokenPipe _ => False
  | _ => True

/-- **What one callback does** is what its chunk asks for, if it brings one. -/
theorem ServerStep.tame {s s' : Server Allocator} {e : LoopEvent} {actions : List Action}
    (h : ServerStep lib hive s e actions s') (he : e.Tame lib) (hup : e.Writable s) :
    List.Forall₂ Meets e.ask?.toList (actions.filterMap Action.call?)
      ∧ actions.filterMap Action.written? = e.ask?.toList.flatMap owed := by
  cases h with
  | @data c ws chunk prior r actions _ hc hread hdispatch =>
      obtain ⟨hharmless, hsize⟩ := he
      obtain ⟨a, ha, hkind⟩ := hharmless.asked
      have hguarded := readMessageFromBytes_guarded hharmless.valid hharmless.goesThrough
        hharmless.guarded prior
      obtain ⟨-, rfl⟩ := Prod.mk.inj (Except.ok.inj (hread.symm.trans hguarded))
      obtain ⟨hm, hd⟩ := message_of_asked ha prior
      have hfits : (pongDoc a.payload).length ≤ maxSize := by
        have hpayload := length_of_asked ha
        rw [length_pongDoc]
        simp only [suggestedSize, maxSize] at hsize ⊢
        omega
      have hping : a.kind = .ping → s.broken c = false := fun hk =>
        hup ((of_asked ha).1.trans (congrArg Kind.code hk))
      obtain ⟨call, hmeets, hcalls, hwritten⟩ := dispatch_hive hkind hm hd hfits hc hping
      rw [hdispatch] at hcalls hwritten
      have hask : (LoopEvent.read c (.data chunk prior)).ask?.toList = [(c, a)] := by
        rw [LoopEvent.ask?, ha]
        rfl
      rw [hask]
      constructor
      · simp only [List.cons_append, List.filterMap_cons, List.filterMap_append, call?_effect,
          filterMap_call?_payloadAllocs, hcalls, List.nil_append, List.filterMap_nil,
          List.append_nil]
        exact .cons hmeets .nil
      · simp only [List.cons_append, List.filterMap_cons, List.filterMap_append,
          written?_payloadAllocs, hwritten, List.nil_append, Action.written?, List.filterMap_nil,
          List.append_nil, List.flatMap_cons, List.flatMap_nil]
  | accepted | refused | again | closed | hungUp => exact ⟨.nil, rfl⟩
  | @ended _ _ _ buffered => cases buffered <;> exact ⟨.nil, rfl⟩
  | written hc => split_ifs <;> exact ⟨.nil, rfl⟩

/-- **An event that can occur** has its callback return, if no write meets a broken
pipe. -/
theorem step_tame_iff {s : Server Allocator} {e : LoopEvent} (he : e.Tame lib)
    (henabled : e.enabled s = true) :
    ((serverMachine lib hive).step s e).isSome ↔ e.Writable s := by
  simp only [serverMachine, henabled, if_true]
  cases e with
  | connection status accepted => cases accepted <;> exact iff_of_true rfl trivial
  | read c nread =>
      cases nread with
      | data chunk prior =>
          obtain ⟨ws, hc⟩ := enabled_read henabled
          constructor
          · intro hsome
            cases hs' : (callback lib hive s (.read c (.data chunk prior))).result with
            | error halt =>
                rw [hs'] at hsome
                cases hsome
            | ok s' => exact he.1.answerable hc hs'
          · intro hup
            obtain ⟨s', hs', -⟩ := he.1.isolated hc hup prior s.app
            rw [hs']
            rfl
      | again | ended => exact iff_of_true rfl trivial
  | written c status =>
      simp only [callback, onWrite]
      split_ifs <;> exact iff_of_true rfl trivial
  | closed c | hangUp c => exact iff_of_true rfl trivial
  | brokenPipe c => exact iff_of_false Bool.false_ne_true id

def hiveCalls (lib : Libbson) (s : Server Allocator) (e : LoopEvent) : List Call :=
  (callback lib hive s e).calls

def hiveWritten (lib : Libbson) (s : Server Allocator) (e : LoopEvent) :
    List (ClientId × List UInt8) :=
  (callback lib hive s e).written

theorem trace_tame {s s' : Server Allocator} {es : List LoopEvent}
    (h : (serverMachine lib hive).exec s es = some s') (hes : ∀ e ∈ es, e.Tame lib) :
    List.Forall₂ Meets (es.filterMap LoopEvent.ask?)
        ((serverMachine lib hive).trace (hiveCalls lib) s es)
      ∧ (serverMachine lib hive).trace (hiveWritten lib) s es
        = (es.filterMap LoopEvent.ask?).flatMap owed := by
  induction es generalizing s with
  | nil => exact ⟨.nil, rfl⟩
  | cons e es ih =>
      obtain ⟨s₁, hstep, hrest⟩ := Option.bind_eq_some_iff.mp h
      obtain ⟨henabled, hcourse⟩ := serverStep_of_step hstep
      have htame := hes e List.mem_cons_self
      have hup := (step_tame_iff htame henabled).mp (Option.isSome_iff_exists.mpr ⟨s₁, hstep⟩)
      obtain ⟨hcalls, hwritten⟩ := hcourse.tame htame hup
      obtain ⟨hall, hallWritten⟩ := ih hrest fun e he => hes e (List.mem_cons_of_mem _ he)
      have hasks : (e :: es).filterMap LoopEvent.ask?
          = e.ask?.toList ++ es.filterMap LoopEvent.ask? := by
        rw [List.filterMap_cons]
        cases e.ask? <;> rfl
      rw [Machine.trace_cons_of_step hstep, Machine.trace_cons_of_step hstep, hasks,
        List.flatMap_append, hallWritten]
      exact ⟨List.rel_append hcalls hall, congrArg (· ++ _) hwritten⟩

/-- **The hive answers by the bytes.** For any clients and any chunks it survives, in
every run from any state: the calls of the handlers are those the chunks ask for, in
their order; the documents written are the pongs owed for the pings among them;
and whatever can happen next, its callback returns exactly if it does not write
into a broken pipe. -/
theorem hive_answers {s s' : Server Allocator} {es : List LoopEvent}
    (h : (serverMachine lib hive).exec s es = some s') (hes : ∀ e ∈ es, e.Tame lib) :
    List.Forall₂ Meets (es.filterMap LoopEvent.ask?)
        ((serverMachine lib hive).trace (hiveCalls lib) s es)
      ∧ (serverMachine lib hive).trace (hiveWritten lib) s es
        = (es.filterMap LoopEvent.ask?).flatMap owed
      ∧ ∀ e : LoopEvent, e.Tame lib → e.enabled s' = true →
        (((serverMachine lib hive).step s' e).isSome ↔ e.Writable s') :=
  ⟨(trace_tame h hes).1, (trace_tame h hes).2, fun _ => step_tame_iff⟩

/-- A document that is an event up to its topic, and a ping from then on. -/
def turnedPing : List Element :=
  [⟨kindKey, .int32 Kind.event.code⟩,
    ⟨dataKey, .document (encodeDoc [⟨topicKey, .utf8 [104, 105]⟩])⟩,
    ⟨kindKey, .int32 Kind.ping.code⟩]

def turnedRun : List LoopEvent :=
  [.connection 0 true, .read 0 (.data (encodeDoc turnedPing) blank)]

theorem topic_answered_as_digest : ∃ s', (serverMachine .lenient hive).exec emptyHive turnedRun
      = some s'
    ∧ (serverMachine .lenient hive).trace (hiveWritten .lenient) emptyHive turnedRun
      = [(0, pongDoc [104, 105])] := by
  have hruns : ((serverMachine .lenient hive).exec emptyHive turnedRun).isSome = true := by
    decide +kernel
  obtain ⟨s', hs'⟩ := Option.isSome_iff_exists.mp hruns
  have hharmless : Harmless .lenient (encodeDoc turnedPing) :=
    ⟨by decide +kernel, by decide +kernel, by decide +kernel, by decide +kernel,
      by decide +kernel⟩
  have htame : ∀ e ∈ turnedRun, e.Tame .lenient :=
    List.forall_mem_cons.mpr ⟨trivial, List.forall_mem_cons.mpr
      ⟨⟨hharmless, by decide +kernel⟩, List.forall_mem_nil _⟩⟩
  have hasks : turnedRun.filterMap LoopEvent.ask? = [(0, ⟨.ping, [104, 105]⟩)] := by
    decide +kernel
  refine ⟨s', hs', (hive_answers hs' htame).2.1.trans ?_⟩
  rw [hasks]
  rfl

end Vespa
