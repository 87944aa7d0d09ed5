import Vespa.Hive

/-!
# Can one client hurt another?

A client may send anything. `Isolated` asks that the read callback for its
bytes leave the hive running and every other client as it was. The code meets
it for the clients it does not read from: nothing a callback does touches
them. The process is what is at stake, and `Harmless` lists what a chunk must
be for it to survive, in every memory: a whole valid document, scanned to the
end, that leaves a ping or an event with some payload in place. The answer to a
ping is written at once, so its client must not have gone by then.
-/

namespace Vespa

open Bson

/-! ## What is in place after a scan -/

def Store.data? : Store → Option (List UInt8)
  | .digest d => some d
  | .topic d => some d
  | _ => none

theorem length_data?_payloadStores {k : Kind} {raw : List UInt8} {s : Store}
    (hs : s ∈ payloadStores k (fields raw)) {d : List UInt8} (hd : s.data? = some d) :
    d.length < 2 ^ 64 := by
  cases k with
  | ping | event =>
      obtain ⟨e, he, hse⟩ := List.mem_filterMap.mp hs
      have hvalid := valid_of_mem_fields he
      split at hse
      · obtain rfl := Option.some.inj hse
        obtain rfl := Option.some.inj hd
        first | exact length_iterBinary_lt hvalid | exact length_iterUtf8_lt hvalid
      · cases hse
  | pong | error => cases hs

theorem length_data?_storesOf {k : BitVec 32} {es : List Element} {s : Store}
    (hs : s ∈ storesOf k es) {d : List UInt8} (hd : s.data? = some d) : d.length < 2 ^ 64 := by
  induction es generalizing k with
  | nil => cases hs
  | cons e es ih =>
      rcases List.mem_append.mp hs with hs | hs
      · unfold fieldStores at hs
        split_ifs at hs
        · obtain rfl := List.mem_singleton.mp hs
          cases hd
        · obtain rfl := List.mem_singleton.mp hs
          cases hd
        · cases hdoc : dataDoc? e <;> cases hk : Kind.ofCode? k <;> simp only [hdoc, hk] at hs
          case some.some => exact length_data?_payloadStores hs hd
          all_goals cases hs
      · exact ih hs

/-- **The payload words after some assignments**: the data of the last payload
assignment, if there was one, and else what the memory held. -/
theorem words_foldl_apply {ss : List Store} {m : Message}
    (hlen : ∀ s ∈ ss, ∀ d, s.data? = some d → d.length < 2 ^ 64) :
    ((∃ s ∈ ss, s.reader?.isSome) ∧ ∃ d, (ss.foldl Store.apply m).HasBytes d)
      ∨ ((∀ s ∈ ss, s.reader? = none)
        ∧ (ss.foldl Store.apply m).word0 = m.word0
        ∧ (ss.foldl Store.apply m).word1 = m.word1) := by
  induction ss generalizing m with
  | nil => exact .inr ⟨by simp, rfl, rfl⟩
  | cons s ss ih =>
      rcases ih (m := s.apply m) fun s' hs' => hlen s' (List.mem_cons_of_mem _ hs')
        with ⟨⟨s', hs', hread⟩, hbytes⟩ | ⟨hnone, h0, h1⟩
      · exact .inl ⟨⟨s', List.mem_cons_of_mem _ hs', hread⟩, hbytes⟩
      · cases s with
        | kind c | timestamp t =>
            exact .inr ⟨List.forall_mem_cons.mpr ⟨rfl, hnone⟩, h0, h1⟩
        | digest d | topic d =>
            refine .inl ⟨⟨_, List.mem_cons_self, rfl⟩, d, ?_⟩
            rw [Message.HasBytes, List.foldl_cons, h0, h1]
            exact Word.bytes?_stored (hlen _ List.mem_cons_self d rfl)

theorem payloadKinds_eq_nil {k : BitVec 32} {es : List Element} :
    payloadKinds k es = [] ↔ ∀ s ∈ storesOf k es, s.reader? = none := by
  rw [← List.getLast?_eq_none_iff, ← getLast?_filterMap_storesOf, List.getLast?_eq_none_iff,
    List.filterMap_eq_nil_iff]

/-! ## The `switch`, when the process survives it -/

/-- The process survives the `switch` with a ping whose handler returned true, or
with an event whose handler returned. -/
theorem result_dispatch {ε : Type} {h : Handlers ε} {c : ClientId} {m : Message}
    {s s' : Server ε} :
    (andFinished (dispatch h c m s)).result = .ok s' ↔
      (m.kind = Kind.ping.code ∧ h.run .ping c m s = .ok (true, s'))
        ∨ (m.kind = Kind.event.code ∧ ∃ b, h.run .event c m s = .ok (b, s')) := by
  rw [result_andFinished, dispatch]
  cases hk : Kind.ofCode? m.kind with
  | none =>
      have hne : ∀ k : Kind, m.kind ≠ k.code := fun k h => by
        rw [Kind.ofCode?_eq_some.mpr h] at hk
        cases hk
      simp [endsWith, hne]
  | some k =>
      rw [Kind.ofCode?_eq_some.mp hk]
      cases k with
      | ping =>
          have hne : Kind.ping.code ≠ Kind.event.code := by decide
          simp only [hne, false_and, or_false, true_and, Handlers.run, Handlers.registered]
          rcases (callHandler h.OnPing .ping c m s).2 with e | ⟨_ | _, s₁⟩ <;> simp [endsWith]
      | event =>
          have hne : Kind.event.code ≠ Kind.ping.code := by decide
          simp only [hne, false_and, false_or, true_and, Handlers.run, Handlers.registered]
          rcases (callHandler h.OnEvent .event c m s).2 with e | ⟨b, s₁⟩ <;>
            simp [endsWith, Except.map]
      | error | pong => simp [endsWith, Kind.code]

/-! ## Isolation -/

/-- Whatever memory the callback meets, the process survives the chunk and every
other client is left as it was. -/
def Isolated (lib : Libbson) (s : Server Allocator) (c : ClientId) (chunk : List UInt8) : Prop :=
  ∀ (prior : Message) (alloc : Allocator), ∃ s',
    (callback lib hive { s with app := alloc } (.read c (.data chunk prior))).result = .ok s'
      ∧ ∀ d, d ≠ c → s'.clients d = s.clients d

/-- A chunk the hive survives: a valid document whose scan goes through, with no
payload document before its kind, and ends in a ping or an event, some
payload having been read. -/
structure Harmless (lib : Libbson) (chunk : List UInt8) : Prop where
  valid : bsonValidate lib chunk = true
  goesThrough : ∀ e ∈ fields chunk, aborts lib e = false
  guarded : guarded kInvalidMessage (fields chunk) = true
  kind : lastKind kInvalidMessage (fields chunk) = Kind.ping.code
    ∨ lastKind kInvalidMessage (fields chunk) = Kind.event.code
  payload : payloadKinds kInvalidMessage (fields chunk) ≠ []

/-- A ping can be answered: a write to its client raises no signal. -/
def Answerable (s : Server Allocator) (c : ClientId) (chunk : List UInt8) : Prop :=
  lastKind kInvalidMessage (fields chunk) = Kind.ping.code → s.broken c = false

theorem Harmless.isolated {lib : Libbson} {s : Server Allocator} {c : ClientId}
    {ws : List (List UInt8)} {chunk : List UInt8} (hc : s.clients c = some ⟨.reading, ws⟩)
    (h : Harmless lib chunk) (hup : Answerable s c chunk) : Isolated lib s c chunk := by
  intro prior alloc
  have hread := readMessageFromBytes_guarded h.valid h.goesThrough h.guarded prior
  obtain ⟨d, hd⟩ : ∃ d, ((storesOf kInvalidMessage (fields chunk)).foldl Store.apply
      prior).HasBytes d := by
    rcases words_foldl_apply (m := prior) fun s hs d => length_data?_storesOf hs
      with ⟨-, hd⟩ | ⟨hnone, -⟩
    · exact hd
    · exact absurd (payloadKinds_eq_nil.mpr hnone) h.payload
  have hmsg := Reader.run_msg (Reader.start prior) (storesOf kInvalidMessage (fields chunk))
  have hkind := kind_run_storesOf kInvalidMessage (fields chunk) (Reader.start prior)
  have hbytes : ((Reader.start prior).run
      (storesOf kInvalidMessage (fields chunk))).msg.HasBytes d := by rw [hmsg]; exact hd
  simp only [callback, result_onRead_of_read hread, result_dispatch]
  rcases h.kind with hk | hk
  · obtain ⟨doc, hrun, -⟩ := hive_run_ping (s := { s with app := alloc }) hbytes hc (hup hk)
    refine ⟨_, .inl ⟨hkind.trans (lastKind_of_invalid hk _), hrun⟩, fun d hne => ?_⟩
    rw [Server.setClient_of_ne _ hne]
  · have hrun := hive_run_event (c := c) (s := { s with app := alloc }) hbytes
    exact ⟨_, .inr ⟨hkind.trans (lastKind_of_invalid hk _), _, hrun⟩, fun _ _ => rfl⟩

/-- Memory whose words make a length without a pointer. -/
def garbage : Message := ⟨kInvalidMessage, 0, .int 0, .int 1, .int 0⟩

theorem hive_run_garbage {k : Kind} (hk : k = .ping ∨ k = .event) {c : ClientId} {m : Message}
    {s : Server Allocator} (h0 : m.word0 = garbage.word0) (h1 : m.word1 = garbage.word1)
    (hmem : (s.app 0).succeeds = true) : hive.run k c m s = .error .undefined := by
  rcases hk with rfl | rfl
  · have hwrite : writeMessage (initPongMessage (s.app 0).contents m.ping.digest
        m.ping.digestLen) [] = .error .undefined := by
      have hkind : (initPongMessage (s.app 0).contents m.ping.digest m.ping.digestLen).kind
          = Kind.pong.code := rfl
      rw [writeMessage_kind hkind]
      show (appendBinary [] digestKey m.word0 m.word1).map _ = _
      rw [h0, h1]
      rfl
    show (hiveOnPing c m s).2 = _
    simp only [hiveOnPing, ipcServerClientWrite, writeMessageToStream, hwrite]
    rfl
  · show (hiveOnEvent c m s).2 = _
    simp only [hiveOnEvent, digestToStr, Message.event, h0, h1, hmem]
    rfl

/-- A chunk whose callback returned was read, and its message passed the `switch`. -/
theorem read_of_survived {lib : Libbson} {s s' : Server Allocator} {c : ClientId}
    {chunk : List UInt8} {prior : Message}
    (h : (callback lib hive s (.read c (.data chunk prior))).result = .ok s') :
    ∃ r, readMessageFromBytes lib chunk (Reader.start prior) = .ok (true, r)
      ∧ ((r.msg.kind = Kind.ping.code ∧ hive.run .ping c r.msg s = .ok (true, s'))
        ∨ (r.msg.kind = Kind.event.code ∧ ∃ b, hive.run .event c r.msg s = .ok (b, s'))) := by
  simp only [callback] at h
  rcases hread : readMessageFromBytes lib chunk (Reader.start prior) with e | ⟨_ | _, r⟩
  · simp only [onRead, hread] at h
    cases h
  · simp only [onRead, hread] at h
    cases h
  · rw [result_onRead_of_read hread] at h
    exact ⟨r, rfl, result_dispatch.mp h⟩

theorem Isolated.harmless {lib : Libbson} {s : Server Allocator} {c : ClientId}
    {chunk : List UInt8} (h : Isolated lib s c chunk) : Harmless lib chunk := by
  obtain ⟨s', hs', -⟩ := h garbage fun _ => ⟨blank, true⟩
  obtain ⟨r, hread, hends⟩ := read_of_survived hs'
  have hvalid := (of_readMessageFromBytes hread).1
  rcases scan_cases hvalid with ⟨-, hunset⟩ | ⟨-, -, habort⟩ | ⟨hg, -, hab⟩
  · -- a payload before its kind: no kind to dispatch on
    obtain ⟨r', hread', hnone⟩ := hunset garbage rfl
    obtain ⟨-, rfl⟩ := Prod.mk.inj (Except.ok.inj (hread.symm.trans hread'))
    rcases hends with ⟨hk, -⟩ | ⟨hk, -⟩ <;> rw [hk] at hnone <;> cases hnone
  · rw [habort garbage] at hread
    cases hread
  · have hrun := readMessageFromBytes_guarded hvalid hab hg garbage
    obtain ⟨-, rfl⟩ := Prod.mk.inj (Except.ok.inj (hread.symm.trans hrun))
    rw [kind_run_storesOf] at hends
    refine ⟨hvalid, hab, hg, hends.imp And.left And.left, fun hnil => ?_⟩
    -- no payload was read: the handler gets the memory's own words
    have hnone := payloadKinds_eq_nil.mp hnil
    rcases words_foldl_apply (m := garbage) fun s hs d => length_data?_storesOf hs
      with ⟨⟨s, hs, hsome⟩, -⟩ | ⟨-, h0, h1⟩
    · rw [hnone s hs] at hsome
      cases hsome
    · rw [Reader.run_msg, Reader.start_msg] at hends
      rcases hends with ⟨-, hp⟩ | ⟨-, b, hp⟩
      · rw [hive_run_garbage (.inl rfl) h0 h1 rfl] at hp
        cases hp
      · rw [hive_run_garbage (.inr rfl) h0 h1 rfl] at hp
        cases hp

/-- The hive survives no ping of a client that has gone. -/
theorem Harmless.answerable {lib : Libbson} {s s' : Server Allocator} {c : ClientId}
    {ws : List (List UInt8)} {chunk : List UInt8} {prior : Message}
    (hc : s.clients c = some ⟨.reading, ws⟩) (h : Harmless lib chunk)
    (hs' : (callback lib hive s (.read c (.data chunk prior))).result = .ok s') :
    Answerable s c chunk := by
  intro hk
  cases hup : s.broken c with
  | false => rfl
  | true =>
      obtain ⟨r, hread, hends⟩ := read_of_survived hs'
      have hguarded := readMessageFromBytes_guarded h.valid h.goesThrough h.guarded prior
      obtain ⟨-, rfl⟩ := Prod.mk.inj (Except.ok.inj (hread.symm.trans hguarded))
      rw [kind_run_storesOf, lastKind_of_invalid hk] at hends
      rcases hends with ⟨-, hp⟩ | ⟨hevent, -⟩
      · obtain ⟨halt, hkilled⟩ := hive_run_ping_broken hc hup
        rw [hkilled] at hp
        cases hp
      · cases hevent

theorem Isolated.answerable {lib : Libbson} {s : Server Allocator} {c : ClientId}
    {ws : List (List UInt8)} {chunk : List UInt8} (hc : s.clients c = some ⟨.reading, ws⟩)
    (h : Isolated lib s c chunk) : Answerable s c chunk := by
  obtain ⟨s', hs', -⟩ := h blank s.app
  exact h.harmless.answerable (s := { s with app := s.app }) hc hs'

/-- **Isolation is up to the client.** For a client the hive reads from, in any
state: a chunk is processed with the hive surviving and the other clients left
alone, in every memory, exactly when the chunk is harmless and, if it is a ping,
its client can be written to. -/
theorem isolated_iff {lib : Libbson} {s : Server Allocator} {c : ClientId}
    {ws : List (List UInt8)} (hc : s.clients c = some ⟨.reading, ws⟩) (chunk : List UInt8) :
    Isolated lib s c chunk ↔ Harmless lib chunk ∧ Answerable s c chunk :=
  ⟨fun h => ⟨h.harmless, h.answerable hc⟩, fun h => h.1.isolated hc h.2⟩

def oneClient : Server Allocator :=
  (⟨fun _ => none, 1, fun _ => false, fun _ => ⟨blank, true⟩⟩ : Server Allocator).setClient 0
    (some ⟨.reading, []⟩)

theorem isolated_ping : Isolated .lenient oneClient 0 smallPing.bytes :=
  (isolated_iff (Server.setClient_self ..) smallPing.bytes).mpr
    ⟨⟨by decide, by decide, by decide, by decide, by decide⟩, fun _ => rfl⟩

theorem one_byte_not_isolated :
    ¬∀ (lib : Libbson) (s : Server Allocator) (c : ClientId) (chunk : List UInt8),
      (serverMachine lib hive).Reachable s → (∃ ws, s.clients c = some ⟨.reading, ws⟩) →
      chunk ≠ [] → Isolated lib s c chunk := by
  intro hall
  have hinit : (serverMachine .lenient hive).Reachable
      ⟨fun _ => none, 0, fun _ => false, fun _ => ⟨blank, true⟩⟩ := .init fun _ => rfl
  have hreach : (serverMachine .lenient hive).Reachable oneClient :=
    hinit.step (e := .connection 0 true) rfl
  have hisolated := hall .lenient oneClient 0 [0] hreach ⟨[], Server.setClient_self ..⟩ (by simp)
  exact absurd hisolated.harmless.valid (by decide)

end Vespa
