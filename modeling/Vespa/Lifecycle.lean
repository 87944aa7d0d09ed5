import Vespa.Hive
import Vespa.Run

/-!
# The life of a connection (`server.c`)

Five callbacks share an `IpcServerClient`, and libuv decides their order. Each
connection goes through the stages created, reading, closing and freed, the
second only if it was accepted, and `Stage.after` says what may be done with
it in each: handlers run and writes are started while it is read from, it is
closed once, and freed in its close callback.

`ServerStep` is the server's step with its courses named. Per client, `Deed`s
are what the callbacks' actions say about it; they are taken from the
callback of every event, also of one in which the process ends. Handlers are
arbitrary as far as the library lets them: all they can do with clients is
write to those being read from, the one they are called for or another.
-/

namespace Vespa

open Bson

variable {ε : Type}

/-! ## The courses of a step -/

/-- An event that returned: what the server did, and its state after it. -/
inductive ServerStep (lib : Libbson) (h : Handlers ε) (s : Server ε) :
    LoopEvent → List Action → Server ε → Prop where
  | accepted {status : Int} : ServerStep lib h s (.connection status true)
      [.effect (.alloc (.client s.nextId)), .effect (.readStart s.nextId)]
      { s.setClient s.nextId (some ⟨.reading, []⟩) with nextId := s.nextId + 1 }
  | refused {status : Int} : ServerStep lib h s (.connection status false)
      [.effect (.alloc (.client s.nextId)), .effect (.close s.nextId)]
      { s.setClient s.nextId (some ⟨.closing, []⟩) with nextId := s.nextId + 1 }
  | data {c : ClientId} {ws : List (List UInt8)} {chunk : List UInt8} {prior : Message}
      {r : Reader} {actions : List Action} {s' : Server ε}
      (hc : s.clients c = some ⟨.reading, ws⟩)
      (hread : readMessageFromBytes lib chunk (Reader.start prior) = .ok (true, r))
      (hdispatch : dispatch h c r.msg s = (actions, .ok (true, s'))) :
      ServerStep lib h s (.read c (.data chunk prior))
        (.effect (.alloc .readBuffer) :: .effect (.alloc .message) :: payloadAllocs r.log
          ++ actions ++ [.effect (.free .readBuffer)]) s'
  | again {c : ClientId} {ws : List (List UInt8)} (hc : s.clients c = some ⟨.reading, ws⟩) :
      ServerStep lib h s (.read c .again)
        [.effect (.alloc .readBuffer), .effect (.free .readBuffer)] s
  | ended {c : ClientId} {ws : List (List UInt8)} {eof buffered : Bool}
      (hc : s.clients c = some ⟨.reading, ws⟩) :
      ServerStep lib h s (.read c (.ended eof buffered))
        (allocBuffer buffered ++ .effect (.close c) :: freeBuffer buffered)
        (s.setClient c (some ⟨.closing, ws⟩))
  | written {c : ClientId} {phase : Phase} {doc : List UInt8} {ws : List (List UInt8)}
      {status : Int} (hc : s.clients c = some ⟨phase, doc :: ws⟩) :
      ServerStep lib h s (.written c status)
        (if status < 0 then [] else [.effect (.free (.writeReq c))])
        (s.setClient c (some ⟨phase, ws⟩))
  | closed {c : ClientId} (hc : s.clients c = some ⟨.closing, []⟩) :
      ServerStep lib h s (.closed c) [.effect (.free (.client c))] (s.setClient c none)
  | hungUp {c : ClientId} : ServerStep lib h s (.hangUp c) []
      { s with broken := Function.update s.broken c true }

theorem andFinished_eq_ok {p : List Action × Except Halt (Bool × Server ε)} {s' : Server ε}
    (h : (andFinished p).result = .ok s') :
    p = (p.1, .ok (true, s')) ∧ (andFinished p).actions = p.1 ++ [.effect (.free .readBuffer)] := by
  obtain ⟨actions, e | ⟨_ | _, s₁⟩⟩ := p
  · cases h
  · cases h
  · obtain rfl := Except.ok.inj h
    exact ⟨rfl, rfl⟩

theorem enabled_read {s : Server ε} {c : ClientId} {nread : ReadResult}
    (h : (LoopEvent.read c nread).enabled s = true) :
    ∃ ws, s.clients c = some ⟨.reading, ws⟩ := by
  cases hc : s.clients c with
  | none => simp [LoopEvent.enabled, hc] at h
  | some cl =>
      obtain ⟨_ | _, ws⟩ := cl
      · exact ⟨ws, rfl⟩
      · simp [LoopEvent.enabled, hc] at h

/-- **The courses of a step**, each with the state it starts from. -/
theorem serverStep_of_step {lib : Libbson} {h : Handlers ε} {s s' : Server ε} {e : LoopEvent}
    (hstep : (serverMachine lib h).step s e = some s') :
    e.enabled s = true ∧ ServerStep lib h s e (callback lib h s e).actions s' := by
  simp only [serverMachine] at hstep
  split_ifs at hstep with henabled
  refine ⟨henabled, ?_⟩
  have hresult : (callback lib h s e).result = .ok s' := by
    cases hr : (callback lib h s e).result with
    | error halt => rw [hr] at hstep; cases hstep
    | ok s₁ => rw [hr] at hstep; exact congrArg _ (Option.some.inj hstep)
  clear hstep
  cases e with
  | connection status accepted =>
      cases accepted with
      | true =>
          obtain rfl := Except.ok.inj hresult
          exact .accepted
      | false =>
          simp only [callback, onNewConnection, closeClient, Bool.false_eq_true, if_false,
            Server.setClient, Function.update_self, Function.update_idem] at hresult ⊢
          obtain rfl := Except.ok.inj hresult
          exact .refused
  | read c nread =>
      obtain ⟨ws, hc⟩ := enabled_read henabled
      cases nread with
      | data chunk prior =>
          simp only [callback] at hresult ⊢
          rcases hread : readMessageFromBytes lib chunk (Reader.start prior) with e | ⟨_ | _, r⟩
          · simp only [onRead, hread] at hresult
            cases hresult
          · simp only [onRead, hread] at hresult
            cases hresult
          · simp only [onRead, hread] at hresult ⊢
            obtain ⟨hdispatch, hactions⟩ := andFinished_eq_ok hresult
            rw [hactions, ← List.append_assoc, ← List.append_assoc]
            exact .data hc hread hdispatch
      | again =>
          obtain rfl := Except.ok.inj hresult
          exact .again hc
      | ended eof buffered =>
          simp only [callback, onRead, closeClient, hc, ReadResult.buffered] at hresult ⊢
          obtain rfl := Except.ok.inj hresult
          exact .ended hc
  | written c status =>
      cases hc : s.clients c with
      | none => simp [LoopEvent.enabled, hc] at henabled
      | some cl =>
          obtain ⟨phase, _ | ⟨doc, ws⟩⟩ := cl
          · simp [LoopEvent.enabled, hc] at henabled
          · simp only [callback, popWrite, hc, onWrite] at hresult ⊢
            have hstep : ServerStep lib h s (.written c status) _ _ := .written hc
            split_ifs at hresult hstep ⊢
            all_goals
              obtain rfl := Except.ok.inj hresult
              exact hstep
  | closed c =>
      cases hc : s.clients c with
      | none => simp [LoopEvent.enabled, hc] at henabled
      | some cl =>
          obtain ⟨_ | _, _ | ⟨doc, ws⟩⟩ := cl
          all_goals try (simp [LoopEvent.enabled, hc] at henabled; done)
          obtain rfl := Except.ok.inj hresult
          exact .closed hc
  | hangUp c =>
      obtain rfl := Except.ok.inj hresult
      exact .hungUp
  | brokenPipe c => cases hresult

/-! ## Handlers -/

/-- The phase a client is in, for as long as it is there. -/
def Server.phase? (s : Server ε) (c : ClientId) : Option Phase :=
  (s.clients c).map Client.phase

theorem Server.phase?_of_clients {s : Server ε} {c : ClientId} {phase : Phase}
    {ws : List (List UInt8)} (hc : s.clients c = some ⟨phase, ws⟩) : s.phase? c = some phase := by
  rw [Server.phase?, hc]
  rfl

theorem Server.clients_of_phase? {s : Server ε} {c : ClientId} {phase : Phase}
    (h : s.phase? c = some phase) : ∃ ws, s.clients c = some ⟨phase, ws⟩ := by
  obtain ⟨⟨_, ws⟩, hc, rfl⟩ := Option.map_eq_some_iff.mp h
  exact ⟨ws, hc⟩

theorem Server.phase?_eq_none {s : Server ε} {c : ClientId} :
    s.phase? c = none ↔ s.clients c = none := Option.map_eq_none_iff

/-- All a handler does with clients is to write to them, and only to those that are
being read from. It is called for one of these. -/
structure Handler.WritesOnly (f : Handler ε) : Prop where
  effects : ∀ {c m s}, s.phase? c = some .reading → ∀ x ∈ (f c m s).1,
    (∃ d doc, x = .write d doc ∧ s.phase? d = some .reading)
      ∨ ∃ o, (x = .alloc o ∨ x = .free o) ∧ ∀ d, o ≠ .client d
  state : ∀ {c m s b s'}, s.phase? c = some .reading → (f c m s).2 = .ok (b, s') →
    s'.nextId = s.nextId ∧ ∀ d, s'.phase? d = s.phase? d

structure Handlers.WriteOnly (h : Handlers ε) : Prop where
  onPing : ∀ f, h.OnPing = some f → f.WritesOnly
  onEvent : ∀ f, h.OnEvent = some f → f.WritesOnly

/-- What the `switch` does, for every outcome: writes to clients that are read from, a
call on the one the message is of, and objects that are no clients. -/
theorem mem_dispatch {h : Handlers ε} (hh : h.WriteOnly) {c : ClientId} {m : Message}
    {s : Server ε} {x : Action} (hc : s.phase? c = some .reading)
    (hx : x ∈ (dispatch h c m s).1) :
    (∃ d doc, x = .effect (.write d doc) ∧ s.phase? d = some .reading)
      ∨ (∃ call : Call, x = .call call ∧ call.client = c)
      ∨ ∃ o, (x = .effect (.alloc o) ∨ x = .effect (.free o)) ∧ ∀ d, o ≠ .client d := by
  have hcall : ∀ (f : Option (Handler ε)) k, (∀ f', f = some f' → f'.WritesOnly) →
      x ∈ (callHandler f k c m s).1 →
        (∃ d doc, x = .effect (.write d doc) ∧ s.phase? d = some .reading)
        ∨ (∃ call : Call, x = .call call ∧ call.client = c)
        ∨ ∃ o, (x = .effect (.alloc o) ∨ x = .effect (.free o)) ∧ ∀ d, o ≠ .client d := by
    intro f k hf hmem
    cases f with
    | none => cases hmem
    | some f =>
        rcases List.mem_append.mp hmem with hmem | hmem
        · obtain ⟨y, hy, rfl⟩ := List.mem_map.mp hmem
          rcases (hf f rfl).effects hc y hy with ⟨d, doc, rfl, hd⟩ | ⟨o, rfl | rfl, ho⟩
          · exact .inl ⟨d, doc, rfl, hd⟩
          · exact .inr (.inr ⟨o, .inl rfl, ho⟩)
          · exact .inr (.inr ⟨o, .inr rfl, ho⟩)
        · exact .inr (.inl ⟨_, List.mem_singleton.mp hmem, rfl⟩)
  rw [dispatch] at hx
  split at hx
  · exact hcall _ _ hh.onPing hx
  · exact hcall _ _ hh.onEvent hx
  · cases hx

/-- A dispatch that returned left every connection in its phase. -/
theorem Handlers.WriteOnly.dispatch_ok {h : Handlers ε} (hh : h.WriteOnly) {c : ClientId}
    {m : Message} {s s' : Server ε} {actions : List Action} {b : Bool}
    (hc : s.phase? c = some .reading) (hd : dispatch h c m s = (actions, .ok (b, s'))) :
    s'.nextId = s.nextId ∧ ∀ d, s'.phase? d = s.phase? d := by
  have hcall : ∀ (f : Option (Handler ε)) k b', (∀ f', f = some f' → f'.WritesOnly) →
      (callHandler f k c m s).2 = .ok (b', s') →
        s'.nextId = s.nextId ∧ ∀ d, s'.phase? d = s.phase? d := by
    intro f k b' hf hres
    cases f with
    | none =>
        obtain ⟨-, rfl⟩ := Prod.mk.inj (Except.ok.inj hres)
        exact ⟨rfl, fun _ => rfl⟩
    | some f => exact (hf f rfl).state hc hres
  have hres := congrArg Prod.snd hd
  rw [dispatch] at hres
  split at hres
  · exact hcall _ _ b hh.onPing hres
  · simp only at hres
    cases hr : (callHandler h.OnEvent .event c m s).2 with
    | error e => rw [hr] at hres; cases hres
    | ok p =>
        rw [hr] at hres
        obtain ⟨b', s₁⟩ := p
        obtain ⟨-, rfl⟩ := Prod.mk.inj (Except.ok.inj hres)
        exact hcall _ _ b' hh.onEvent hr
  · obtain ⟨-, rfl⟩ := Prod.mk.inj (Except.ok.inj hres)
    exact ⟨rfl, fun _ => rfl⟩

/-! ## Stages -/

inductive Stage where
  | absent
  | created
  | reading
  | closing
  | freed
deriving DecidableEq, Repr

/-- What is done with a client. -/
inductive Deed where
  | create
  | readStart
  | handle
  | write
  | close
  | free
deriving DecidableEq, Repr

/-- What may be done with a client in each stage. -/
def Stage.after : Stage → Deed → Option Stage
  | .absent, .create => some .created
  | .created, .readStart => some .reading
  | .created, .close => some .closing
  | .reading, .handle => some .reading
  | .reading, .write => some .reading
  | .reading, .close => some .closing
  | .closing, .free => some .freed
  | _, _ => none

def Stage.run : Stage → List Deed → Option Stage
  | st, [] => some st
  | st, d :: ds => (st.after d).bind fun st => st.run ds

theorem Stage.run_append (st : Stage) (ds ds' : List Deed) :
    st.run (ds ++ ds') = (st.run ds).bind (·.run ds') := by
  induction ds generalizing st with
  | nil => rfl
  | cons d ds ih =>
      rw [List.cons_append, Stage.run, Stage.run]
      cases st.after d with
      | none => rfl
      | some st' => exact ih st'

/-- Handlers and writes keep a connection in its stage. -/
theorem Stage.run_reading {ds : List Deed} (h : ∀ d ∈ ds, d = .handle ∨ d = .write) :
    Stage.run .reading ds = some .reading := by
  induction ds with
  | nil => rfl
  | cons d ds ih =>
      rcases h d List.mem_cons_self with rfl | rfl <;>
        exact ih fun d hd => h d (List.mem_cons_of_mem _ hd)

def Action.deed? (c : ClientId) : Action → Option Deed
  | .effect (.alloc (.client d)) => if d = c then some .create else none
  | .effect (.free (.client d)) => if d = c then some .free else none
  | .effect (.write d _) => if d = c then some .write else none
  | .effect (.close d) => if d = c then some .close else none
  | .effect (.readStart d) => if d = c then some .readStart else none
  | .call k => if k.client = c then some .handle else none
  | .effect _ => none

@[simp] theorem deed?_alloc_client (c d : ClientId) :
    Action.deed? c (.effect (.alloc (.client d))) = if d = c then some .create else none := rfl

@[simp] theorem deed?_free_client (c d : ClientId) :
    Action.deed? c (.effect (.free (.client d))) = if d = c then some .free else none := rfl

@[simp] theorem deed?_close (c d : ClientId) :
    Action.deed? c (.effect (.close d)) = if d = c then some .close else none := rfl

@[simp] theorem deed?_readStart (c d : ClientId) :
    Action.deed? c (.effect (.readStart d)) = if d = c then some .readStart else none := rfl

@[simp] theorem deed?_alloc_readBuffer (c : ClientId) :
    Action.deed? c (.effect (.alloc .readBuffer)) = none := rfl

@[simp] theorem deed?_free_readBuffer (c : ClientId) :
    Action.deed? c (.effect (.free .readBuffer)) = none := rfl

@[simp] theorem filterMap_deed?_allocBuffer (c : ClientId) (buffered : Bool) :
    (allocBuffer buffered).filterMap (Action.deed? c) = [] := by
  cases buffered <;> rfl

@[simp] theorem filterMap_deed?_freeBuffer (c : ClientId) (buffered : Bool) :
    (freeBuffer buffered).filterMap (Action.deed? c) = [] := by
  cases buffered <;> rfl

/-- What the callback of an event does with a client. -/
def deeds (lib : Libbson) (h : Handlers ε) (c : ClientId) (s : Server ε) (e : LoopEvent) :
    List Deed :=
  if e.enabled s then (callback lib h s e).actions.filterMap (Action.deed? c) else []

/-- The stage a state has a client in. -/
def Server.InStage (s : Server ε) (c : ClientId) : Stage → Prop
  | .absent => s.clients c = none
  | .created => False
  | .reading => ∃ ws, s.clients c = some ⟨.reading, ws⟩
  | .closing => ∃ ws, s.clients c = some ⟨.closing, ws⟩
  | .freed => s.clients c = none ∧ c < s.nextId

/-- No connection has an identity that is still to be given out. -/
def Server.Fresh (s : Server ε) : Prop := ∀ c, s.nextId ≤ c → s.clients c = none

theorem Server.Fresh.lt_nextId {s : Server ε} (hs : s.Fresh) {c : ClientId} {cl : Client}
    (hc : s.clients c = some cl) : c < s.nextId := by
  by_contra hge
  rw [hs c (Nat.le_of_not_lt hge)] at hc
  cases hc

theorem Server.Fresh.setClient {s : Server ε} (hs : s.Fresh) {c : ClientId} {cl : Client}
    (hc : s.clients c = some cl) (cl' : Option Client) : (s.setClient c cl').Fresh := by
  intro d hd
  rw [Server.setClient_of_ne _ ((hs.lt_nextId hc).trans_le hd).ne']
  exact hs d hd

theorem Server.Fresh.connected {s : Server ε} (hs : s.Fresh) (cl : Option Client) :
    Server.Fresh { s.setClient s.nextId cl with nextId := s.nextId + 1 } := by
  intro d hd
  have hlt : s.nextId < d := hd
  show (s.setClient s.nextId cl).clients d = none
  rw [Server.setClient_of_ne _ hlt.ne']
  exact hs d hlt.le

namespace Server.InStage

variable {s s' : Server ε} {c : ClientId} {st : Stage}

theorem eq_reading {ws : List (List UInt8)} (h : s.InStage c st)
    (hc : s.clients c = some ⟨.reading, ws⟩) : st = .reading := by
  cases st <;> simp_all [Server.InStage]

theorem eq_closing {ws : List (List UInt8)} (h : s.InStage c st)
    (hc : s.clients c = some ⟨.closing, ws⟩) : st = .closing := by
  cases st <;> simp_all [Server.InStage]

theorem eq_absent (hs : s.Fresh) (h : s.InStage s.nextId st) : st = .absent := by
  have hnone := hs s.nextId (Nat.le_refl _)
  cases st <;> simp_all [Server.InStage]

/-- A step that leaves a client in its phase leaves it in its stage. -/
theorem frame (h : s.InStage c st) (hc : s'.phase? c = s.phase? c)
    (hid : s.nextId ≤ s'.nextId) : s'.InStage c st := by
  cases st with
  | created => exact h
  | freed => exact ⟨Server.phase?_eq_none.mp (hc.trans (Server.phase?_eq_none.mpr h.1)),
      h.2.trans_le hid⟩
  | absent => exact Server.phase?_eq_none.mp (hc.trans (Server.phase?_eq_none.mpr h))
  | reading | closing =>
      obtain ⟨ws, hws⟩ := h
      exact Server.clients_of_phase? (hc.trans (Server.phase?_of_clients hws))

theorem setClient_of_ne (h : s.InStage c st) {d : ClientId} (hne : d ≠ c) (cl : Option Client) :
    (s.setClient d cl).InStage c st :=
  h.frame (congrArg _ (Server.setClient_of_ne _ hne.symm _)) (Nat.le_refl _)

theorem connected_of_ne (h : s.InStage c st) (hne : s.nextId ≠ c) (cl : Option Client) :
    Server.InStage { s.setClient s.nextId cl with nextId := s.nextId + 1 } c st :=
  h.frame (congrArg _ (Server.setClient_of_ne _ hne.symm _)) (Nat.le_succ _)

end Server.InStage

/-! ## One event -/

theorem fresh_step {lib : Libbson} {h : Handlers ε} (hh : h.WriteOnly) {s s' : Server ε}
    {e : LoopEvent} (hs : s.Fresh) (hstep : (serverMachine lib h).step s e = some s') :
    s'.Fresh := by
  obtain ⟨-, hcourse⟩ := serverStep_of_step hstep
  generalize (callback lib h s e).actions = actions at hcourse
  cases hcourse with
  | accepted => exact hs.connected _
  | refused => exact hs.connected _
  | data hc hread hdispatch =>
      obtain ⟨hid, hphase⟩ := hh.dispatch_ok (Server.phase?_of_clients hc) hdispatch
      intro d hd
      rw [hid] at hd
      rw [← Server.phase?_eq_none, hphase, Server.phase?_eq_none]
      exact hs d hd
  | again => exact hs
  | ended hc => exact hs.setClient hc _
  | written hc => exact hs.setClient hc _
  | closed hc => exact hs.setClient hc _
  | hungUp => exact hs

/-- Whatever becomes of a read of data, it runs handlers and starts writes, on
connections that are being read from. -/
theorem deeds_data {lib : Libbson} {h : Handlers ε} (hh : h.WriteOnly) {s : Server ε}
    {c d : ClientId} {chunk : List UInt8} {prior : Message} {deed : Deed}
    (hmem : deed ∈ deeds lib h d s (.read c (.data chunk prior))) :
    s.phase? d = some .reading ∧ (deed = .handle ∨ deed = .write) := by
  simp only [deeds] at hmem
  split_ifs at hmem with henabled
  · obtain ⟨ws, hc⟩ := enabled_read henabled
    have hreading : s.phase? c = some .reading := Server.phase?_of_clients hc
    obtain ⟨x, hx, hdeed⟩ := List.mem_filterMap.mp hmem
    have hcases : x = .effect (.alloc .readBuffer) ∨ x = .effect (.free .readBuffer)
        ∨ x = .effect (.alloc .message) ∨ x = .effect (.alloc .payload)
        ∨ ∃ m, x ∈ (dispatch h c m s).1 := by
      rcases List.mem_append.mp hx with hx | hx
      · exact .inl (List.mem_singleton.mp hx)
      · rcases hread : readMessageFromBytes lib chunk (Reader.start prior) with e | ⟨_ | _, r⟩
        all_goals simp only [onRead, hread, List.mem_cons, List.mem_append, List.not_mem_nil,
          or_false, payloadAllocs, List.mem_map] at hx
        · exact .inr (.inr (.inl hx))
        · exact .inr (.inr (.inl hx))
        · rcases hx with (hx | ⟨_, -, hx⟩) | hx
          · exact .inr (.inr (.inl hx))
          · exact .inr (.inr (.inr (.inl hx.symm)))
          · unfold andFinished at hx
            split at hx
            · exact .inr (.inr (.inr (.inr ⟨_, hx⟩)))
            · rcases List.mem_append.mp hx with hx | hx
              · exact .inr (.inr (.inr (.inr ⟨_, hx⟩)))
              · unfold finished at hx
                split_ifs at hx
                · exact .inr (.inl (List.mem_singleton.mp hx))
                · cases hx
    rcases hcases with rfl | rfl | rfl | rfl | ⟨m, hx⟩
    all_goals try cases hdeed
    rcases mem_dispatch hh hreading hx with
      ⟨d', doc, rfl, hd'⟩ | ⟨call, rfl, rfl⟩ | ⟨o, rfl | rfl, ho⟩
    · simp only [Action.deed?] at hdeed
      split_ifs at hdeed with heq
      exact ⟨heq ▸ hd', .inr (Option.some.inj hdeed).symm⟩
    · simp only [Action.deed?] at hdeed
      split_ifs at hdeed with heq
      exact ⟨heq ▸ hreading, .inl (Option.some.inj hdeed).symm⟩
    all_goals
      cases o with
      | client c' => exact absurd rfl (ho c')
      | _ => cases hdeed
  · cases hmem

/-- Only the process's end, in a read of data or by a signal, keeps an event from
returning. -/
theorem data_of_step_eq_none {lib : Libbson} {h : Handlers ε} {s : Server ε} {e : LoopEvent}
    (henabled : e.enabled s = true) (hstep : (serverMachine lib h).step s e = none) :
    (∃ c chunk prior, e = .read c (.data chunk prior)) ∨ ∃ c, e = .brokenPipe c := by
  simp only [serverMachine, henabled, if_true] at hstep
  cases e with
  | connection status accepted =>
      cases accepted <;> cases hstep
  | read c nread =>
      cases nread with
      | data chunk prior => exact .inl ⟨c, chunk, prior, rfl⟩
      | again => cases hstep
      | ended eof buffered => cases hstep
  | written c status =>
      simp only [callback, onWrite] at hstep
      split_ifs at hstep <;> cases hstep
  | closed c => cases hstep
  | hangUp c => cases hstep
  | brokenPipe c => exact .inr ⟨c, rfl⟩

theorem run_deeds_data {lib : Libbson} {h : Handlers ε} (hh : h.WriteOnly) {s : Server ε}
    {c d : ClientId} {st : Stage} {chunk : List UInt8} {prior : Message}
    (hst : s.InStage c st) :
    st.run (deeds lib h c s (.read d (.data chunk prior))) = some st := by
  cases hdeeds : deeds lib h c s (.read d (.data chunk prior)) with
  | nil => rfl
  | cons deed rest =>
      have hmem : ∀ deed' ∈ deed :: rest, _ := fun deed' hmem =>
        deeds_data hh (hdeeds ▸ hmem)
      obtain ⟨ws, hc⟩ := Server.clients_of_phase? (hmem deed List.mem_cons_self).1
      rw [hst.eq_reading hc]
      exact Stage.run_reading fun deed' h => (hmem deed' h).2

/-- **One event on one client**: it is allowed in the client's stage, and the state
after the event has the client in the stage that follows. -/
theorem stage_step {lib : Libbson} {h : Handlers ε} (hh : h.WriteOnly) {s : Server ε}
    (hs : s.Fresh) {c : ClientId} {st : Stage} (hst : s.InStage c st) (e : LoopEvent) :
    ∃ st', st.run (deeds lib h c s e) = some st'
      ∧ ∀ s', (serverMachine lib h).step s e = some s' → s'.InStage c st' := by
  by_cases henabled : e.enabled s = true
  case neg =>
    have hnil : deeds lib h c s e = [] := if_neg henabled
    refine ⟨st, by rw [hnil]; rfl, fun s' hstep => ?_⟩
    exact absurd (serverStep_of_step hstep).1 henabled
  cases hstep : (serverMachine lib h).step s e with
  | none =>
      obtain ⟨d, chunk, prior, rfl⟩ | ⟨d, rfl⟩ := data_of_step_eq_none henabled hstep
      · exact ⟨st, run_deeds_data hh hst, fun s' h => by cases h⟩
      · exact ⟨st, by rw [deeds, if_pos henabled]; rfl, fun s' h => by cases h⟩
  | some s' =>
      obtain ⟨-, hcourse⟩ := serverStep_of_step hstep
      have hdeeds : deeds lib h c s e
          = (callback lib h s e).actions.filterMap (Action.deed? c) := if_pos henabled
      suffices hgoal : ∃ st', st.run (deeds lib h c s e) = some st' ∧ s'.InStage c st' by
        obtain ⟨st', hrun, hst'⟩ := hgoal
        exact ⟨st', hrun, fun s₁ h => Option.some.inj h ▸ hst'⟩
      generalize (callback lib h s e).actions = actions at hcourse hdeeds
      cases hcourse with
      | accepted =>
          by_cases hc : s.nextId = c
          · subst hc
            obtain rfl := Server.InStage.eq_absent hs hst
            exact ⟨.reading, by simp [hdeeds, Stage.run, Stage.after],
              [], Server.setClient_self ..⟩
          · exact ⟨st, by simp [hdeeds, hc, Stage.run], hst.connected_of_ne hc _⟩
      | refused =>
          by_cases hc : s.nextId = c
          · subst hc
            obtain rfl := Server.InStage.eq_absent hs hst
            exact ⟨.closing, by simp [hdeeds, Stage.run, Stage.after],
              [], Server.setClient_self ..⟩
          · exact ⟨st, by simp [hdeeds, hc, Stage.run], hst.connected_of_ne hc _⟩
      | data hd hread hdispatch =>
          obtain ⟨hid, hphase⟩ := hh.dispatch_ok (Server.phase?_of_clients hd) hdispatch
          exact ⟨st, run_deeds_data hh hst, hst.frame (hphase c) hid.ge⟩
      | again hd => exact ⟨st, by simp [hdeeds, List.filterMap_cons, Stage.run], hst⟩
      | ended hd =>
          rename_i d ws eof buffered
          by_cases hcd : d = c
          · subst hcd
            obtain rfl := hst.eq_reading hd
            exact ⟨.closing,
              by simp [hdeeds, Stage.run, Stage.after],
              ws, Server.setClient_self ..⟩
          · exact ⟨st, by simp [hdeeds, hcd, Stage.run],
              hst.setClient_of_ne hcd _⟩
      | written hd =>
          rename_i d phase doc ws status
          have hnil : deeds lib h c s (.written d status) = [] := by
            rw [hdeeds]
            split_ifs <;> rfl
          rw [hnil]
          refine ⟨st, rfl, ?_⟩
          by_cases hcd : d = c
          · subst hcd
            cases phase with
            | reading =>
                obtain rfl := hst.eq_reading hd
                exact ⟨ws, Server.setClient_self ..⟩
            | closing =>
                obtain rfl := hst.eq_closing hd
                exact ⟨ws, Server.setClient_self ..⟩
          · exact hst.setClient_of_ne hcd _
      | closed hd =>
          rename_i d
          by_cases hcd : d = c
          · subst hcd
            obtain rfl := hst.eq_closing hd
            exact ⟨.freed, by simp [hdeeds, Stage.run, Stage.after],
              Server.setClient_self .., hs.lt_nextId hd⟩
          · exact ⟨st, by simp [hdeeds, hcd, Stage.run], hst.setClient_of_ne hcd _⟩
      | hungUp => exact ⟨st, by rw [hdeeds]; rfl, hst.frame rfl (Nat.le_refl _)⟩

/-! ## Runs -/

theorem stage_run {lib : Libbson} {h : Handlers ε} (hh : h.WriteOnly) {es : List LoopEvent}
    {s : Server ε} (hs : s.Fresh) {c : ClientId} {st : Stage} (hst : s.InStage c st) :
    ∃ st', st.run ((serverMachine lib h).trace (deeds lib h c) s es) = some st'
      ∧ ∀ s', (serverMachine lib h).exec s es = some s' → s'.InStage c st' := by
  induction es generalizing s st with
  | nil => exact ⟨st, rfl, fun s' h => Option.some.inj h ▸ hst⟩
  | cons e es ih =>
      obtain ⟨st₁, hrun, hnext⟩ := stage_step hh hs hst e
      cases hstep : (serverMachine lib h).step s e with
      | none =>
          refine ⟨st₁, ?_, fun s' hexec => ?_⟩
          · rw [Machine.trace, hstep, Option.elim_none, List.append_nil]
            exact hrun
          · rw [Machine.exec, hstep] at hexec
            cases hexec
      | some s₁ =>
          obtain ⟨st', hrest, hend⟩ := ih (fresh_step hh hs hstep) (hnext s₁ hstep)
          refine ⟨st', ?_, fun s' hexec => hend s' ?_⟩
          · rw [Machine.trace_cons_of_step hstep, Stage.run_append, hrun]
            exact hrest
          · rw [Machine.exec, hstep] at hexec
            exact hexec

theorem fresh_exec {lib : Libbson} {h : Handlers ε} (hh : h.WriteOnly) {es : List LoopEvent}
    {s s' : Server ε} (hs : s.Fresh) (h' : (serverMachine lib h).exec s es = some s') :
    s'.Fresh :=
  Machine.exec_induction (fun _ _ _ _ hs hstep => fresh_step hh hs hstep) hs h'

theorem closed_of_free {lib : Libbson} {h : Handlers ε} (hh : h.WriteOnly) {s : Server ε}
    {c : ClientId} {e : LoopEvent} (hfree : Deed.free ∈ deeds lib h c s e) : e = .closed c := by
  by_cases henabled : e.enabled s = true
  case neg =>
    rw [deeds, if_neg henabled] at hfree
    cases hfree
  cases hstep : (serverMachine lib h).step s e with
  | none =>
      obtain ⟨d, chunk, prior, rfl⟩ | ⟨d, rfl⟩ := data_of_step_eq_none henabled hstep
      · rcases deeds_data hh hfree with ⟨-, h | h⟩ <;> cases h
      · rw [deeds, if_pos henabled] at hfree
        cases hfree
  | some s' =>
      obtain ⟨-, hcourse⟩ := serverStep_of_step hstep
      have hdeeds : deeds lib h c s e
          = (callback lib h s e).actions.filterMap (Action.deed? c) := if_pos henabled
      generalize (callback lib h s e).actions = actions at hcourse hdeeds
      cases hcourse with
      | accepted | refused =>
          rw [hdeeds] at hfree
          by_cases hc : s.nextId = c <;> simp [hc] at hfree
      | data hd hread hdispatch => rcases deeds_data hh hfree with ⟨-, h | h⟩ <;> cases h
      | again hd => simp [hdeeds, List.filterMap_cons] at hfree
      | ended hd =>
          rename_i d ws eof buffered
          rw [hdeeds] at hfree
          by_cases hcd : d = c <;> simp [hcd] at hfree
      | written hd =>
          rw [hdeeds] at hfree
          split_ifs at hfree <;> cases hfree
      | closed hd =>
          rename_i d
          by_cases hcd : d = c
          · rw [hcd]
          · simp [hdeeds, hcd] at hfree
      | hungUp =>
          rw [hdeeds] at hfree
          cases hfree

/-- libuv reports what was written on a closing handle and what it cancels, then the
handle closed. -/
theorem closing_finishes {lib : Libbson} {h : Handlers ε} {c : ClientId}
    {ws : List (List UInt8)} {s : Server ε} (hs : s.Fresh)
    (hc : s.clients c = some ⟨.closing, ws⟩) :
    ∃ es s', (∀ e ∈ es, e = .closed c ∨ ∃ status, e = .written c status)
      ∧ (serverMachine lib h).exec s es = some s' ∧ s'.InStage c .freed := by
  induction ws generalizing s with
  | nil =>
      refine ⟨[.closed c], s.setClient c none, by simp, ?_, Server.setClient_self ..,
        hs.lt_nextId hc⟩
      simp only [Machine.exec, serverMachine, LoopEvent.enabled, hc, if_true, callback,
        onCloseClient]
      rfl
  | cons doc ws ih =>
      obtain ⟨es, s', hes, hexec, hfreed⟩ := ih (s := s.setClient c (some ⟨.closing, ws⟩))
        (hs.setClient hc _) (Server.setClient_self ..)
      refine ⟨.written c (-1) :: es, s', ?_, ?_, hfreed⟩
      · exact List.forall_mem_cons.mpr ⟨.inr ⟨-1, rfl⟩, hes⟩
      · simp only [Machine.exec, serverMachine, LoopEvent.enabled, hc, callback, onWrite,
          popWrite]
        exact hexec

/-! ## The life of a client -/

/-- The life of one client in a run. Everything done with it was allowed in its
stage, so that no step is repeated and nothing is done after its close; only
its close callback frees it; a failed accept and the end of the connection
close it; and a closing client can always be freed, by events of its own. -/
structure Lifecycle (lib : Libbson) (h : Handlers ε) (s : Server ε) (es : List LoopEvent)
    (c : ClientId) : Prop where
  staged : ∃ st, Stage.run .absent ((serverMachine lib h).trace (deeds lib h c) s es) = some st
    ∧ ∀ s', (serverMachine lib h).exec s es = some s' → s'.InStage c st
  freed : ∀ s' e, (serverMachine lib h).exec s es = some s' → .free ∈ deeds lib h c s' e →
    e = .closed c
  refused : ∀ s' status, (serverMachine lib h).exec s es = some s' → s'.nextId = c →
    ∃ s'', (serverMachine lib h).step s' (.connection status false) = some s''
      ∧ s''.InStage c .closing
  ended : ∀ s' eof buffered, (serverMachine lib h).exec s es = some s' →
    s'.InStage c .reading →
    ∃ s'', (serverMachine lib h).step s' (.read c (.ended eof buffered)) = some s''
      ∧ s''.InStage c .closing
  finishes : ∀ s', (serverMachine lib h).exec s es = some s' → s'.InStage c .closing →
    ∃ es' s'', (∀ e ∈ es', e = .closed c ∨ ∃ status, e = .written c status)
      ∧ (serverMachine lib h).exec s' es' = some s'' ∧ s''.InStage c .freed

/-- **The life of a connection.** In every run of the server, with any handlers the
library allows, any number of clients and any interleaving. -/
theorem connection_lifecycle {lib : Libbson} {h : Handlers ε} (hh : h.WriteOnly)
    {s : Server ε} (hs : (serverMachine lib h).init s) (es : List LoopEvent) (c : ClientId) :
    Lifecycle lib h s es c where
  staged := stage_run hh (fun c _ => hs c) (hs c)
  freed _ _ _ := closed_of_free hh
  refused := by
    rintro s' status hexec rfl
    refine ⟨{ s'.setClient s'.nextId (some ⟨.closing, []⟩) with nextId := s'.nextId + 1 }, ?_,
      [], Server.setClient_self ..⟩
    simp only [serverMachine, LoopEvent.enabled, Bool.not_false, Bool.true_or, if_true, callback,
      onNewConnection, closeClient, Bool.false_eq_true, if_false, Server.setClient,
      Function.update_self, Function.update_idem]
    rfl
  ended := by
    rintro s' eof buffered hexec ⟨ws, hc⟩
    refine ⟨s'.setClient c (some ⟨.closing, ws⟩), ?_, ws, Server.setClient_self ..⟩
    simp only [serverMachine, LoopEvent.enabled, hc, if_true, callback, onRead, closeClient]
    rfl
  finishes := by
    rintro s' hexec ⟨ws, hc⟩
    exact closing_finishes (fresh_exec hh (fun c _ => hs c) hexec) hc

/-! ## The hive's handlers -/

/-- `uv_write` leaves every connection in its phase. -/
theorem phase?_uvWrite {c d : ClientId} {doc : List UInt8} {s s' : Server ε}
    (h : uvWrite c doc s = .ok s') : s'.nextId = s.nextId ∧ s'.phase? d = s.phase? d := by
  unfold uvWrite at h
  split at h
  · rename_i ws hc
    split_ifs at h
    obtain rfl := Except.ok.inj h
    refine ⟨rfl, ?_⟩
    by_cases hdc : d = c
    · rw [hdc, Server.phase?_of_clients hc]
      exact Server.phase?_of_clients (Server.setClient_self ..)
    · exact congrArg _ (Server.setClient_of_ne _ hdc _)
  · obtain rfl := Except.ok.inj h
    exact ⟨rfl, rfl⟩
  · cases h

theorem hive_writeOnly : hive.WriteOnly where
  onPing := by
    rintro f hf
    obtain rfl := Option.some.inj hf
    refine ⟨fun {c m s} hc x hx => ?_, fun {c m s b s'} hc hres => ?_⟩
    · simp only [hiveOnPing, ipcServerClientWrite, writeMessageToStream] at hx
      split at hx <;> simp only [List.mem_cons, List.not_mem_nil, or_false] at hx
      · rcases hx with rfl | rfl
        · exact .inr ⟨.pong, .inl rfl, fun _ h => by cases h⟩
        · exact .inr ⟨.writeReq c, .inl rfl, fun _ h => by cases h⟩
      · rcases hx with rfl | rfl | rfl
        · exact .inr ⟨.pong, .inl rfl, fun _ h => by cases h⟩
        · exact .inr ⟨.writeReq c, .inl rfl, fun _ h => by cases h⟩
        · exact .inl ⟨c, _, rfl, hc⟩
    · simp only [hiveOnPing, ipcServerClientWrite, writeMessageToStream] at hres
      split at hres
      · cases hres
      · simp only at hres
        rename_i doc _
        rcases hwrite : uvWrite c (encodeDoc doc) _ with halt | s₁
        · rw [hwrite] at hres
          cases hres
        · rw [hwrite] at hres
          obtain ⟨-, rfl⟩ := Prod.mk.inj (Except.ok.inj hres)
          exact ⟨(phase?_uvWrite (d := c) hwrite).1, fun d => (phase?_uvWrite hwrite).2⟩
  onEvent := by
    rintro f hf
    obtain rfl := Option.some.inj hf
    refine ⟨fun {c m s} hc x hx => ?_, fun {c m s b s'} hc hres => ?_⟩
    · simp only [hiveOnEvent] at hx
      split at hx <;> simp only [List.mem_cons, List.not_mem_nil, or_false] at hx
      rcases hx with rfl | rfl
      · exact .inr ⟨.digestStr, .inl rfl, fun _ h => by cases h⟩
      · exact .inr ⟨.digestStr, .inr rfl, fun _ h => by cases h⟩
    · simp only [hiveOnEvent] at hres
      split at hres
      · cases hres
      all_goals
        obtain ⟨-, rfl⟩ := Prod.mk.inj (Except.ok.inj hres)
        exact ⟨rfl, fun _ => rfl⟩

theorem hive_connections_live : Lifecycle .lenient hive
    ⟨fun _ => none, 0, fun _ => false, fun _ => ⟨blank, true⟩⟩
    [.connection 0 true, .connection (-1) false, .read 0 (.ended true true), .closed 1] 0 :=
  connection_lifecycle hive_writeOnly (fun _ => rfl) _ 0

end Vespa
