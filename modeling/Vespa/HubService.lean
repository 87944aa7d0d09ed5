import Vespa.Hub

/-!
# What the hive does for its clients

`Served` is what a client of the hub can rely on as long as the hive lives, read
off its books: its requests are handled in the order it sent them, and nothing
but pongs for its own pings ever reaches it. What ends the hive is a read that
cuts a request or joins two, a ping whose client has gone, or writing on to one
that has.

A client that hung up is let go. Every callback on its connection takes it
closer to the end, whatever the others do in between, so that there are only so
many of them. The hive can read on up to a request that is too long for one read,
or a ping it cannot answer any more; a connection it has closed is always freed.
-/

namespace Vespa

open Bson

variable {lib : Libbson}

/-! ## The service -/

/-- The digests of the pings of a client the hive has read. -/
def Hub.pinged (s : Hub lib) (c : ClientId) : List (List UInt8) :=
  (s.handled c).filterMap fun r => r.payload.digest?

/-- What a client gets. The hive has handled its requests in the order they were sent,
one call for each, the rest being on the way; what reached it is a beginning of
the pongs for its pings and of nothing else; and as long as no write to it
failed, that and what is queued for it decode to the digests of all of them. Its
pipe breaks by its hanging up only. -/
structure Served (s : Hub lib) (c : ClientId) : Prop where
  wire : (s.peer c).wire = (s.waiting c).flatMap fun r => r.bytes
  calls : List.Forall₂ (Answered c) (s.callsOf c) (s.handled c)
  received : (s.peer c).received <+: (s.pinged c).flatMap pongDoc
  decodes : (s.peer c).writeFailed = false → ∀ G : GoBson,
    decodePongs G (s.pinged c).length ((s.peer c).received ++ (s.queued c).flatten)
      = ((s.pinged c).map fun d => .ok ⟨some d⟩, [])
  up : s.hive.broken c = true → (s.peer c).hungUp = true

theorem flatMap_replies (rs : List (Request lib)) :
    rs.flatMap Request.replies = (rs.filterMap fun r => r.payload.digest?).map pongDoc := by
  induction rs with
  | nil => rfl
  | cons r rs ih =>
      rw [List.flatMap_cons, List.filterMap_cons, ih, Request.replies]
      cases r.payload.digest? <;> rfl

theorem fits_digest {r : Request lib} {d : List UInt8} (hd : r.payload.digest? = some d) :
    (pongDoc d).length ≤ maxSize := by
  cases hr : r.payload with
  | ping digest =>
      rw [hr] at hd
      exact Option.some.inj hd ▸ r.fits_pong hr
  | event topic | pong digest | error code message =>
      rw [hr] at hd
      cases hd

theorem Account.served {s : Hub lib} {c : ClientId} {handled waiting : List (Request lib)}
    (h : Account s c handled waiting) : Served s c := by
  have hstream : (handled.flatMap Request.replies).flatten = (s.pinged c).flatMap pongDoc := by
    rw [flatMap_replies, Hub.pinged, h.handled_eq, List.flatMap_def]
  refine ⟨h.waiting_eq ▸ h.wire, h.handled_eq ▸ h.calls, hstream ▸ h.cut,
    fun hfailed G => ?_, h.up⟩
  rw [h.whole hfailed, hstream]
  refine decodePongs_flatMap G fun d hd => ?_
  obtain ⟨r, -, hr⟩ := List.mem_filterMap.mp hd
  exact fits_digest hr

/-- What the hive lives through: everything but a read of something else than the next
request, one it cannot answer, and writing on into a broken pipe. -/
def HubEvent.Survivable (s : Hub lib) : HubEvent lib → Prop
  | .deliver c n _ => s.ReadsNext c n
  | .brokenPipe _ => False
  | _ => True

theorem callback_returns_iff {s : Hub lib} (hs : s.Inv) {e : HubEvent lib} {l : LoopEvent}
    (hallowed : e.allowed s = true) (hl : e.loop? s = some l)
    (henabled : l.enabled s.hive = true) :
    (∃ h, (callback lib hive s.hive l).result = .ok h) ↔ e.Survivable s := by
  cases e with
  | deliver c n prior =>
      obtain rfl := Option.some.inj hl
      simp only [HubEvent.allowed, Bool.and_eq_true, decide_eq_true_eq] at hallowed
      obtain ⟨handled, waiting, haccount⟩ := hs.account c
      obtain ⟨ws, hc⟩ := enabled_read henabled
      exact haccount.deliver_returns_iff hc hallowed.1.1 hallowed.1.2 prior
  | brokenPipe c =>
      obtain rfl := Option.some.inj hl
      refine iff_of_false ?_ id
      rintro ⟨h, hresult⟩
      cases hresult
  | connect status accepted =>
      obtain rfl := Option.some.inj hl
      cases accepted <;> exact iff_of_true ⟨_, rfl⟩ trivial
  | send c r => cases hl
  | hangUp c waiting =>
      cases waiting with
      | true => cases hl
      | false =>
          obtain rfl := Option.some.inj hl
          exact iff_of_true ⟨_, rfl⟩ trivial
  | again c | ended c eof buffered | closed c =>
      obtain rfl := Option.some.inj hl
      exact iff_of_true ⟨_, rfl⟩ trivial
  | written c status partway =>
      obtain rfl := Option.some.inj hl
      refine iff_of_true ?_ trivial
      simp only [callback, onWrite]
      split_ifs <;> exact ⟨_, rfl⟩

/-- **The hive serves every client.** In every state that any number of clients and any
interleaving of their requests, their hanging up, failed accepts and failed
writes can lead to, whatever the reads of the hive were, every client has been
served; and the hive survives what comes next exactly as `Survivable` says. -/
theorem hub_serves {s : Hub lib} (hs : (hubMachine lib).Reachable s) :
    (∀ c, Served s c) ∧ ∀ (e : HubEvent lib) (l : LoopEvent), e.allowed s = true →
      e.loop? s = some l → l.enabled s.hive = true →
      ((∃ h, (callback lib hive s.hive l).result = .ok h) ↔ e.Survivable s) := by
  have hinv := (hub_invariant lib).reachable hs
  refine ⟨fun c => ?_, fun e l => callback_returns_iff hinv⟩
  obtain ⟨handled, waiting, haccount⟩ := hinv.account c
  exact haccount.served

/-- An idle hive. -/
def idleHub (lib : Libbson) : Hub lib :=
  ⟨⟨fun _ => none, 0, fun _ => false, fun _ => ⟨blank, true⟩⟩, fun _ => .new lib false, []⟩

theorem idleHub_reachable (lib : Libbson) : (hubMachine lib).Reachable (idleHub lib) :=
  .init ⟨fun _ => rfl, fun _ => rfl, fun _ => rfl, rfl⟩

/-- A client of each kind; the second one hangs up while its pong waits for room. -/
def twoClients : List (HubEvent .lenient) :=
  [.connect 0 true, .connect 0 true, .send 0 (.hello .lenient),
    .send 1 (.ping .lenient ⟨0, 0, by decide⟩ [7] (by decide +kernel)), .deliver 1 59 blank,
    .hangUp 1 true, .deliver 0 68 blank, .ended 1 true true, .written 1 (-125) 3, .closed 1]

theorem two_clients_served : ∃ s, (hubMachine .lenient).exec (idleHub .lenient) twoClients = some s
    ∧ Served s 0 ∧ Served s 1 := by
  have hruns : ((hubMachine .lenient).exec (idleHub .lenient) twoClients).isSome = true := by
    decide +kernel
  obtain ⟨s, hs⟩ := Option.isSome_iff_exists.mp hruns
  have hserves := (hub_serves ((idleHub_reachable .lenient).exec hs)).1
  exact ⟨s, hs, hserves 0, hserves 1⟩

/-! ## Letting go -/

/-- The hive's callbacks that bring a client closer to its end. -/
def HubEvent.serves (c : ClientId) : HubEvent lib → Bool
  | .deliver d _ _ => d == c
  | .ended d _ _ => d == c
  | .written d _ _ => d == c
  | .closed d => d == c
  | .connect _ _ => false
  | .send _ _ => false
  | .hangUp _ _ => false
  | .again _ => false
  | .brokenPipe _ => false

/-- Those by which the hive reads on. -/
def HubEvent.readsOn (c : ClientId) : HubEvent lib → Bool
  | .deliver d _ _ => d == c
  | .ended d true _ => d == c
  | _ => false

/-- How many of them are left, at most, with `waiting` requests on the way. -/
def Client.toGo (waiting : Nat) : Option Client → Nat
  | some ⟨.reading, ws⟩ => 2 * waiting + ws.length + 2
  | some ⟨.closing, ws⟩ => ws.length + 1
  | none => 0

def Hub.toGo (s : Hub lib) (c : ClientId) : Nat :=
  Client.toGo (s.waiting c).length (s.hive.clients c)

/-- The client was connected once, and its program has closed its end. -/
structure Hub.Left (s : Hub lib) (c : ClientId) : Prop where
  known : c < s.hive.nextId
  hungUp : (s.peer c).hungUp = true

/-- The hive still reads from the client, or has read all of it. -/
def Hub.Heard (s : Hub lib) (c : ClientId) : Prop :=
  (∃ ws, s.hive.clients c = some ⟨.reading, ws⟩) ∨ s.waiting c = []

/-- The next request of the client, if there is one, can be read at once and answered. -/
def Hub.Legible (s : Hub lib) (c : ClientId) : Prop :=
  ∀ r, (s.waiting c).head? = some r → r.bytes.length ≤ suggestedSize ∧ r.Answerable s.hive c

section
variable {s s' : Hub lib} {c : ClientId}

theorem length_replies_le (r : Request lib) : r.replies.length ≤ 1 := by
  rw [Request.replies]
  cases r.payload.digest? <;> simp

section
variable {h : Server Allocator} {p : Peer lib}

/-- An event that is no delivery leaves what is on the way there. -/
theorem waiting_after (hsent : p.sent = (s.peer c).sent) :
    (s.after c h p []).waiting c = s.waiting c := by
  rw [Hub.waiting, Hub.callsOf_after (by simp), Hub.peer_after, hsent, List.append_nil,
    Hub.waiting]

theorem toGo_after (hsent : p.sent = (s.peer c).sent) :
    (s.after c h p []).toGo c = Client.toGo (s.waiting c).length (h.clients c) := by
  rw [Hub.toGo, waiting_after hsent]
  rfl

/-- An event on its connection does not bring a client back. -/
theorem Hub.Left.after (hleft : s.Left c) {calls : List Call} (hid : h.nextId = s.hive.nextId)
    (hup : p.hungUp = (s.peer c).hungUp) : (s.after c h p calls).Left c where
  known := hid ▸ hleft.known
  hungUp := by
    rw [Hub.peer_after, hup]
    exact hleft.hungUp

/-- A delivery takes the first off. -/
theorem waiting_after_call {call : Call} (hcall : call.client = c)
    (hsent : p.sent = (s.peer c).sent) :
    (s.after c h p [call]).waiting c = (s.waiting c).tail := by
  rw [Hub.waiting, Hub.callsOf_after (by simp [hcall]), Hub.peer_after, hsent,
    List.length_append, List.length_singleton, ← List.drop_drop, List.drop_one, Hub.waiting]

end

/-- **The frame of an event**: it leaves every other client as it is. -/
theorem HubCourse.frame {e : HubEvent lib} (h : HubCourse s e s') (hc : c ≠ e.client s) :
    s'.hive.clients c = s.hive.clients c ∧ s'.peer c = s.peer c
      ∧ s'.waiting c = s.waiting c ∧ s.hive.nextId ≤ s'.hive.nextId := by
  have hframe : ∀ {d : ClientId} {h : Server Allocator} {p : Peer lib} {calls : List Call},
      c ≠ d → (∀ call ∈ calls, call.client = d) → (s.after d h p calls).peer c = s.peer c
        ∧ (s.after d h p calls).waiting c = s.waiting c := by
    intro d h p calls hd hcalls
    have hpeer : (s.after d h p calls).peer c = s.peer c := Hub.peer_after_of_ne hd
    exact ⟨hpeer, by rw [Hub.waiting, hpeer, Hub.callsOf_after_of_ne hd hcalls, Hub.waiting]⟩
  cases h with
  | connected phase =>
      obtain ⟨hpeer, hwaiting⟩ := hframe hc (List.forall_mem_nil _)
      exact ⟨Server.setClient_of_ne _ hc _, hpeer, hwaiting, Nat.le_succ _⟩
  | sent | hungUp | again =>
      obtain ⟨hpeer, hwaiting⟩ := hframe hc (List.forall_mem_nil _)
      exact ⟨rfl, hpeer, hwaiting, Nat.le_refl _⟩
  | delivered _ _ _ hanswered =>
      obtain ⟨hpeer, hwaiting⟩ := hframe hc (List.forall_mem_singleton.mpr hanswered.client)
      exact ⟨Server.setClient_of_ne _ hc _, hpeer, hwaiting, Nat.le_refl _⟩
  | ended | written | writeFailed | closed =>
      obtain ⟨hpeer, hwaiting⟩ := hframe hc (List.forall_mem_nil _)
      exact ⟨Server.setClient_of_ne _ hc _, hpeer, hwaiting, Nat.le_refl _⟩

theorem HubEvent.client_of_serves {e : HubEvent lib} (he : e.serves c = true) :
    c = e.client s := by
  cases e with
  | connect | send | hangUp | again | brokenPipe => cases he
  | deliver d | ended d | written d | closed d => exact (beq_iff_eq.mp he).symm

/-- **A step of the winding up.** A callback on the connection brings the client closer
to its end, and nothing takes it back. -/
theorem toGo_step {e : HubEvent lib} (hleft : s.Left c) (h : HubCourse s e s') :
    s'.Left c ∧ [e].countP (HubEvent.serves c) + s'.toGo c ≤ s.toGo c := by
  by_cases hc : c = e.client s
  · cases h with
    | connected phase => exact absurd hc hleft.known.ne
    | sent _ hup | hungUp _ _ hup _ =>
        obtain rfl : c = _ := hc
        rw [hleft.hungUp] at hup
        cases hup
    | again hc' =>
        obtain rfl : c = _ := hc
        refine ⟨hleft.after rfl rfl, ?_⟩
        simp only [toGo_after]
        exact Nat.le_of_eq (Nat.zero_add _)
    | @delivered d _ _ _ r rs ws _ hc' haccount _ hanswered =>
        obtain rfl : c = d := hc
        have hreplies := length_replies_le r
        refine ⟨hleft.after rfl rfl, ?_⟩
        simp only [Hub.toGo, waiting_after_call hanswered.client]
        rw [haccount.waiting_eq, hc', Hub.after, Server.setClient_self]
        simp only [List.countP_singleton, HubEvent.serves, beq_self_eq_true, if_true,
          Client.toGo, List.length_append, List.length_cons, List.tail_cons]
        omega
    | @ended d _ _ ws hc' _ =>
        obtain rfl : c = d := hc
        refine ⟨hleft.after rfl rfl, ?_⟩
        simp only [toGo_after]
        rw [Server.setClient_self, Hub.toGo, hc']
        simp only [List.countP_singleton, HubEvent.serves, beq_self_eq_true, if_true, Client.toGo]
        omega
    | @written d _ _ phase _ ws hc' _ | @writeFailed d _ _ phase _ ws hc' =>
        obtain rfl : c = d := hc
        refine ⟨hleft.after rfl rfl, ?_⟩
        simp only [toGo_after]
        rw [Server.setClient_self, Hub.toGo, hc']
        simp only [List.countP_singleton, HubEvent.serves, beq_self_eq_true, if_true]
        cases phase <;> simp only [Client.toGo, List.length_cons] <;> omega
    | @closed d hc' =>
        obtain rfl : c = d := hc
        refine ⟨hleft.after rfl rfl, ?_⟩
        simp only [toGo_after]
        rw [Server.setClient_self, Hub.toGo, hc']
        simp [HubEvent.serves, Client.toGo]
  · obtain ⟨hclients, hpeer, hwaiting, hid⟩ := h.frame hc
    refine ⟨⟨hleft.known.trans_le hid, hpeer ▸ hleft.hungUp⟩, ?_⟩
    have hserves : e.serves c = false :=
      Bool.eq_false_iff.mpr fun he => hc (HubEvent.client_of_serves he)
    rw [List.countP_singleton, hserves, Hub.toGo, Hub.toGo, hclients, hwaiting]
    simp

theorem toGo_exec {es : List (HubEvent lib)} (hs : s.Inv) (hleft : s.Left c)
    (h : (hubMachine lib).exec s es = some s') :
    es.countP (HubEvent.serves c) + s'.toGo c ≤ s.toGo c := by
  have hrun := Machine.exec_countP (p := HubEvent.serves c) (n := 0)
    (Q := fun n s₁ => s₁.Inv ∧ s₁.Left c ∧ n + s₁.toGo c ≤ s.toGo c)
    (fun n s₁ e s₂ _ hs₁ hstep => ?_) ⟨hs, hleft, (Nat.zero_add _).le⟩ h
  · simpa only [Nat.zero_add] using hrun.2.2
  · obtain ⟨hinv, hleft₁, hgo⟩ := hs₁
    have hcourse := hinv.course hstep
    obtain ⟨hleft₂, hone⟩ := toGo_step hleft₁ hcourse
    exact ⟨inv_hub_step hinv hcourse, hleft₂, by omega⟩

/-- Without a failed read the connection is closed behind the last request. -/
theorem heard_step {e : HubEvent lib} (hinv : s.Inv) (hleft : s.Left c) (hs : s.Heard c)
    (he : ∀ buffered, e ≠ .ended c false buffered) (h : HubCourse s e s') : s'.Heard c := by
  by_cases hc : c = e.client s
  · cases h with
    | connected phase => exact absurd hc hleft.known.ne
    | sent _ hup | hungUp _ _ hup _ =>
        obtain rfl : c = _ := hc
        rw [hleft.hungUp] at hup
        cases hup
    | again hc' =>
        obtain rfl : c = _ := hc
        exact .inl ⟨_, hc'⟩
    | delivered =>
        obtain rfl : c = _ := hc
        exact .inl ⟨_, Server.setClient_self ..⟩
    | @ended d eof buffered ws hc' heof =>
        obtain rfl : c = d := hc
        refine .inr ?_
        simp only [waiting_after]
        cases eof with
        | true =>
            obtain ⟨handled, waiting, haccount⟩ := hinv.account c
            rw [haccount.waiting_eq]
            exact haccount.waiting_eq_nil (heof rfl)
        | false => exact absurd rfl (he buffered)
    | @written d _ _ phase _ ws hc' _ | @writeFailed d _ _ phase _ ws hc' =>
        obtain rfl : c = d := hc
        rcases hs with ⟨ws', hreading⟩ | hwaiting
        · rw [hc'] at hreading
          obtain ⟨rfl, -⟩ := Client.mk.inj (Option.some.inj hreading)
          exact .inl ⟨_, Server.setClient_self ..⟩
        · exact .inr (by simpa only [waiting_after] using hwaiting)
    | @closed d hc' =>
        obtain rfl : c = d := hc
        rcases hs with ⟨ws', hreading⟩ | hwaiting
        · rw [hc'] at hreading
          cases hreading
        · exact .inr (by simpa only [waiting_after] using hwaiting)
  · obtain ⟨hclients, -, hwaiting, -⟩ := h.frame hc
    rw [Hub.Heard, hclients, hwaiting]
    exact hs

/-- **Reading on** from a client that has left: its next request, or the end. -/
theorem readsOn_iff (hinv : s.Inv) (hleft : s.Left c) {ws : List (List UInt8)}
    (hc : s.hive.clients c = some ⟨.reading, ws⟩) :
    (∃ e : HubEvent lib, e.readsOn c = true ∧ (hubStep s e).isSome) ↔ s.Legible c := by
  obtain ⟨handled, waiting, haccount⟩ := hinv.account c
  constructor
  · rintro ⟨e, he, hstep⟩ r hr
    cases e with
    | deliver d n prior =>
        obtain rfl : d = c := beq_iff_eq.mp he
        obtain ⟨hallowed, -, hreturns⟩ := (isSome_hubStep_iff rfl).mp hstep
        simp only [HubEvent.allowed, Bool.and_eq_true, decide_eq_true_eq] at hallowed
        obtain ⟨⟨hpos, hn⟩, hsize⟩ := hallowed
        obtain ⟨r', hr', rfl, hup⟩ := (haccount.deliver_returns_iff hc hpos hn prior).mp hreturns
        obtain rfl := Option.some.inj (hr.symm.trans hr')
        exact ⟨hsize, hup⟩
    | ended d eof buffered =>
        cases eof with
        | false => cases he
        | true =>
            obtain rfl : d = c := beq_iff_eq.mp he
            have hallowed := ((isSome_hubStep_iff rfl).mp hstep).1
            simp only [HubEvent.allowed, Bool.not_true, Bool.false_or, Bool.and_eq_true,
              List.isEmpty_iff] at hallowed
            rw [haccount.waiting_eq, haccount.waiting_eq_nil hallowed.2] at hr
            cases hr
    | connect | send | hangUp | again | written | closed | brokenPipe => cases he
  · intro hlegible
    cases hwaiting : s.waiting c with
    | cons r rs =>
        obtain ⟨hsize, hup⟩ := hlegible r (by rw [hwaiting]; rfl)
        have hwire : (s.peer c).wire = r.bytes ++ rs.flatMap fun r => r.bytes := by
          rw [haccount.wire, ← haccount.waiting_eq, hwaiting, List.flatMap_cons]
        have hpos : 0 < r.bytes.length := List.length_pos_iff.mpr r.bytes_ne_nil
        have hn : r.bytes.length ≤ (s.peer c).wire.length := by
          rw [hwire, List.length_append]
          exact Nat.le_add_right _ _
        have htake : (s.peer c).wire.take r.bytes.length = r.bytes := by rw [hwire, List.take_left]
        refine ⟨.deliver c r.bytes.length blank, by simp [HubEvent.readsOn],
          (isSome_hubStep_iff rfl).mpr ⟨?_, ?_, ?_⟩⟩
        · simp only [HubEvent.allowed, decide_eq_true hpos, decide_eq_true hn,
            decide_eq_true hsize, Bool.and_self]
        · simp only [LoopEvent.enabled, hc, htake]
          rw [List.isEmpty_eq_false_iff.mpr r.bytes_ne_nil]
          rfl
        · exact (haccount.deliver_returns_iff hc hpos hn blank).mpr
            ⟨r, by rw [hwaiting]; rfl, rfl, hup⟩
    | nil =>
        have hwire : (s.peer c).wire = [] := by
          rw [haccount.wire, ← haccount.waiting_eq, hwaiting]
          rfl
        refine ⟨.ended c true true, by simp [HubEvent.readsOn],
          (isSome_hubStep_iff rfl).mpr ⟨?_, ?_, ⟨_, rfl⟩⟩⟩
        · simp [HubEvent.allowed, hleft.hungUp, hwire]
        · simp [LoopEvent.enabled, hc]

/-- A closed connection that is still there has a callback to come. -/
theorem closing_serves {ws : List (List UInt8)}
    (hc : s.hive.clients c = some ⟨.closing, ws⟩) :
    ∃ e : HubEvent lib, e.serves c = true ∧ (hubStep s e).isSome := by
  cases ws with
  | cons doc ws =>
      exact ⟨.written c (-125) 0, by simp [HubEvent.serves],
        (isSome_hubStep_iff rfl).mpr ⟨rfl, by simp [LoopEvent.enabled, hc], ⟨_, rfl⟩⟩⟩
  | nil =>
      exact ⟨.closed c, by simp [HubEvent.serves],
        (isSome_hubStep_iff rfl).mpr ⟨rfl, by simp [LoopEvent.enabled, hc], ⟨_, rfl⟩⟩⟩

end

/-- **Who hangs up is let go.** From the moment a client has closed its end, or its accept
failed, and whatever all others do as long as the hive lives, the hive makes at
most `toGo` callbacks on its connection, reads of nothing apart. While the hive
reads from it, it can read on exactly if the next request is legible; once the
connection is closed, there is a callback to come until it is freed; and when it
is freed, unless a read of it failed, the hive has handled all that it sent. -/
theorem hub_lets_go {s s' : Hub lib} {c : ClientId} {es : List (HubEvent lib)}
    (hs : (hubMachine lib).Reachable s) (hleft : s.Left c)
    (h : (hubMachine lib).exec s es = some s') :
    es.countP (HubEvent.serves c) + s'.toGo c ≤ s.toGo c
      ∧ ((∃ ws, s'.hive.clients c = some ⟨.reading, ws⟩) →
        ((∃ e : HubEvent lib, e.readsOn c = true ∧ (hubStep s' e).isSome) ↔ s'.Legible c))
      ∧ ((∃ ws, s'.hive.clients c = some ⟨.closing, ws⟩) →
        ∃ e : HubEvent lib, e.serves c = true ∧ (hubStep s' e).isSome)
      ∧ (s.Heard c → (∀ buffered, .ended c false buffered ∉ es) → s'.hive.clients c = none →
        s'.waiting c = []) := by
  have hinv := (hub_invariant lib).reachable hs
  have hinv' := (hub_invariant lib).reachable (hs.exec h)
  have hleft' : s'.Left c := (Machine.exec_induction (P := fun s => s.Inv ∧ s.Left c)
    (fun _ _ _ _ hs hstep => ⟨(hub_invariant lib).step _ _ _ hs.1 hstep,
      (toGo_step hs.2 (hs.1.course hstep)).1⟩) ⟨hinv, hleft⟩ h).2
  refine ⟨toGo_exec hinv hleft h, fun ⟨ws, hc⟩ => readsOn_iff hinv' hleft' hc,
    fun ⟨ws, hc⟩ => closing_serves hc, fun hheard hes hfreed => ?_⟩
  have hrun := Machine.exec_induction (P := fun s => s.Inv ∧ s.Left c ∧ s.Heard c)
    (fun s e s' he hs hstep => ?_) ⟨hinv, hleft, hheard⟩ h
  · rcases hrun.2.2 with ⟨ws, hc⟩ | hwaiting
    · rw [hfreed] at hc
      cases hc
    · exact hwaiting
  · obtain ⟨hinv₁, hleft₁, hheard₁⟩ := hs
    have hcourse := hinv₁.course hstep
    exact ⟨inv_hub_step hinv₁ hcourse, (toGo_step hleft₁ hcourse).1,
      heard_step hinv₁ hleft₁ hheard₁ (fun buffered heq => hes buffered (heq ▸ he)) hcourse⟩

theorem second_client_let_go : ∃ s s', (hubMachine .lenient).exec (idleHub .lenient)
      (twoClients.take 6) = some s
    ∧ (hubMachine .lenient).exec s (twoClients.drop 6) = some s'
    ∧ s'.hive.clients 1 = none ∧ s'.waiting 1 = [] := by
  have hruns : (((hubMachine .lenient).exec (idleHub .lenient) (twoClients.take 6)).any fun s =>
      decide (1 < s.hive.nextId) && (s.peer 1).hungUp
        && (s.hive.clients 1).any (fun cl => cl.phase == .reading)
        && (((hubMachine .lenient).exec s (twoClients.drop 6)).any fun s' =>
          (s'.hive.clients 1).isNone)) = true := by
    decide +kernel
  obtain ⟨s, hs, hprops⟩ := (Option.any_eq_true _ _).mp hruns
  simp only [Bool.and_eq_true, decide_eq_true_eq] at hprops
  obtain ⟨⟨⟨hknown, hup⟩, hreading⟩, hrest⟩ := hprops
  obtain ⟨⟨phase, ws⟩, hc, hphase⟩ := (Option.any_eq_true _ _).mp hreading
  obtain ⟨s', hs', hfreed⟩ := (Option.any_eq_true _ _).mp hrest
  obtain rfl : phase = .reading := beq_iff_eq.mp hphase
  have hgone := Option.isNone_iff_eq_none.mp hfreed
  have hlets := hub_lets_go ((idleHub_reachable .lenient).exec hs) ⟨hknown, hup⟩ hs'
  refine ⟨s, s', hs, hs', hgone, hlets.2.2.2 (.inl ⟨ws, hc⟩) (fun buffered => ?_) hgone⟩
  simp [twoClients]

/-! ## The C client and the hive -/

/-- What a document says is in its bytes. -/
theorem Request.decoded_of_bytes_eq {r r' : Request lib} (h : r.bytes = r'.bytes) :
    r.decoded = r'.decoded := by
  obtain ⟨reader, hread, hmsg⟩ := r.readMessageFromBytes_eq blank
  obtain ⟨reader', hread', hmsg'⟩ := r'.readMessageFromBytes_eq blank
  rw [h, hread'] at hread
  obtain ⟨-, rfl⟩ := Prod.mk.inj (Except.ok.inj hread)
  have hview := r.view?_read r.asks blank
  rw [← hmsg, hmsg', r'.view?_read r'.asks blank] at hview
  exact (Option.some.inj hview).symm

theorem forall₂_mem_left {α β : Type} {R : α → β → Prop} {as : List α} {bs : List β}
    (h : List.Forall₂ R as bs) {a : α} (ha : a ∈ as) : ∃ b ∈ bs, R a b := by
  induction h with
  | nil => cases ha
  | cons hr _ ih =>
      rcases List.mem_cons.mp ha with rfl | ha
      · exact ⟨_, List.mem_cons_self, hr⟩
      · obtain ⟨b, hb, hr'⟩ := ih ha
        exact ⟨b, List.mem_cons_of_mem _ hb, hr'⟩

/-- **The hive and `client.c`.** A client that sent what a run of the C client writes has
its event handled at most once, as the event it is, and nothing is ever sent
to it. -/
theorem hub_serves_ipcClient {s : Hub lib} (hs : (hubMachine lib).Reachable s) {c : ClientId}
    {es : List ClientEvent} {client : IpcClient}
    (hrun : clientMachine.exec ipcClientInit es = some client)
    (hsent : (s.peer c).sent.map (fun r => r.bytes)
      = clientMachine.trace clientDocs ipcClientInit es) :
    (s.callsOf c).length ≤ 1
      ∧ (∀ call ∈ s.callsOf c, call.kind = .event
        ∧ call.message.view? = some ⟨1337, .event helloTopic⟩)
      ∧ (s.peer c).received = [] := by
  have hinv := (hub_invariant lib).reachable hs
  obtain ⟨handled, waiting, haccount⟩ := hinv.account c
  have hserved := haccount.served
  have hhello : ∀ r ∈ (s.peer c).sent, r.decoded = ⟨1337, .event helloTopic⟩ := by
    intro r hr
    have hmem : r.bytes ∈ clientMachine.trace clientDocs ipcClientInit es :=
      hsent ▸ List.mem_map_of_mem hr
    rw [clientDocs_of_exec hrun] at hmem
    have hbytes : r.bytes = (Request.hello lib).bytes := List.eq_of_mem_replicate hmem
    exact Request.decoded_of_bytes_eq hbytes
  have hmem : ∀ r ∈ s.handled c, r ∈ (s.peer c).sent := fun r hr => List.mem_of_mem_take hr
  have hcount : (s.handled c).length ≤ 1 := by
    have hsent_length : (s.peer c).sent.length ≤ 1 := by
      have hpending := pending_exec hrun
      have hone : ipcClientInit.pending = 1 := rfl
      have hlength := congrArg List.length hsent
      rw [List.length_map, clientDocs_of_exec hrun, List.length_replicate] at hlength
      omega
    exact (List.length_take_le' _ _).trans hsent_length
  refine ⟨hserved.calls.length_eq.trans_le hcount, fun call hcall => ?_, ?_⟩
  · obtain ⟨r, hr, hanswered⟩ := forall₂_mem_left hserved.calls hcall
    have hdecoded := hhello r (hmem r hr)
    refine ⟨?_, hanswered.message.trans (congrArg some hdecoded)⟩
    rw [hanswered.kind, show r.payload = .event helloTopic from congrArg Decoded.payload hdecoded]
    rfl
  · have hnone : s.pinged c = [] := by
      refine List.filterMap_eq_nil_iff.mpr fun r hr => ?_
      rw [show r.payload = .event helloTopic from
        congrArg Decoded.payload (hhello r (hmem r hr))]
      rfl
    have hreceived := hserved.received
    rw [hnone] at hreceived
    exact List.prefix_nil.mp hreceived

theorem first_client_served : ∃ s, (hubMachine .lenient).exec (idleHub .lenient) twoClients = some s
    ∧ (s.callsOf 0).length ≤ 1 ∧ (s.peer 0).received = [] := by
  have hruns : (((hubMachine .lenient).exec (idleHub .lenient) twoClients).any fun s =>
      (s.peer 0).sent.map (fun r => r.bytes) == [encodeDoc helloFields]) = true := by
    decide +kernel
  obtain ⟨s, hs, hsent⟩ := (Option.any_eq_true _ _).mp hruns
  obtain ⟨client, hrun⟩ : ∃ client, clientMachine.exec ipcClientInit [.connected 0 blank]
      = some client := Option.isSome_iff_exists.mp (by decide +kernel)
  have hserved := hub_serves_ipcClient ((idleHub_reachable .lenient).exec hs) hrun
    ((beq_iff_eq.mp hsent).trans (clientDocs_of_exec hrun).symm)
  exact ⟨s, hs, hserved.1, hserved.2.2⟩

end Vespa
