import Mathlib.Data.List.Forall2
import Vespa.Hive
import Vespa.Cli

/-!
# The echo: Go clients and the hive together

Any number of clients are connected to the hive and ping it. The system is a
machine whose events are the clients' calls, the transport's deliveries and
the hive's callbacks, in any order: a ping document is delivered whole in one
read callback, queued writes complete in order, and the bytes of a completed
write arrive at its client.

Four lists of digests account for one client: those whose call has returned,
those whose pong has arrived, those whose pong is queued, and those whose ping
is still on the way. `Flow` says that together, in this order, they are what
the client sent, and what each stage holds for them. Every event moves the
head of one list to the end of the one before it, so nothing is lost,
duplicated, reordered or crossed over to another client.
-/

namespace Vespa

open Bson

/-! ## The system -/

/-- A client's end of its connection: the documents the hive has not read yet, the
bytes the client has not read yet, all bytes that arrived, the digests sent and
what the calls of `ping` returned. -/
structure Link where
  wire : List (List UInt8)
  unread : List UInt8
  arrived : List UInt8
  sent : List (List UInt8)
  results : List (Except GoError (Option (List UInt8)))

def Link.empty : Link := ⟨[], [], [], [], []⟩

structure Net where
  hive : Server Allocator
  link : ClientId → Link

def Net.setLink (s : Net) (h : Server Allocator) (c : ClientId) (l : Link) : Net :=
  ⟨h, Function.update s.link c l⟩

@[simp] theorem Net.setLink_self (s : Net) (h : Server Allocator) (c : ClientId) (l : Link) :
    (s.setLink h c l).link c = l := Function.update_self ..

@[simp] theorem Net.setLink_of_ne (s : Net) (h : Server Allocator) {c d : ClientId}
    (hd : d ≠ c) (l : Link) : (s.setLink h c l).link d = s.link d := Function.update_of_ne hd ..

/-- What can happen: a call of `ping` writes its document, the hive reads the oldest
document on the way, the oldest queued write completes and its bytes arrive,
the oldest call of `ping` reads its reply and returns. -/
inductive NetEvent where
  | connect
  | ping (c : ClientId) (t : GoTime) (digest : List UInt8)
  | deliver (c : ClientId) (prior : Message)
  | written (c : ClientId) (status : Int)
  | reply (c : ClientId)

/-- `readMessage` finds what it asks for, or fails, without waiting for more. -/
def ready (conn : List UInt8) : Bool :=
  4 ≤ conn.length && leNat (conn.take 4) ≤ conn.length

def netStep (lib : Libbson) (G : GoBson) (s : Net) : NetEvent → Option Net
  | .connect =>
    ((serverMachine lib hive).step s.hive (.connection 0 true)).map fun h => { s with hive := h }
  | .ping c t digest =>
    let l := s.link c
    let doc := sendPing t (some digest)
    if (s.hive.clients c).isSome && doc.length ≤ maxSize then
      some (s.setLink s.hive c { l with wire := l.wire ++ [doc], sent := l.sent ++ [digest] })
    else none
  | .deliver c prior =>
    let l := s.link c
    match l.wire with
    | [] => none
    | doc :: docs =>
      ((serverMachine lib hive).step s.hive (.read c (.data doc prior))).map fun h =>
        s.setLink h c { l with wire := docs }
  | .written c status =>
    let l := s.link c
    match s.hive.clients c with
    | some ⟨_, doc :: _⟩ =>
      if status < 0 then none
      else ((serverMachine lib hive).step s.hive (.written c status)).map fun h =>
        s.setLink h c { l with unread := l.unread ++ doc, arrived := l.arrived ++ doc }
    | _ => none
  | .reply c =>
    let l := s.link c
    match l.sent[l.results.length]? with
    | none => none
    | some digest =>
      if ready l.unread then
        let (res, rest) := pingReply G (some digest) l.unread
        some (s.setLink s.hive c { l with unread := rest, results := l.results ++ [res] })
      else none

/-- The system, from an idle hive; its clients do not hang up. -/
def netMachine (lib : Libbson) (G : GoBson) : Machine Net NetEvent where
  init s := (∀ c, s.hive.clients c = none) ∧ (∀ c, s.hive.broken c = false)
    ∧ ∀ c, s.link c = Link.empty
  step := netStep lib G

/-! ## The accounts of one client -/

def pongDoc (digest : List UInt8) : List UInt8 := encodeDoc (pongFields digest)

/-- Four lists account for a client: calls returned, pongs arrived, pongs queued,
pings on the way. -/
structure Flow (writes : List (List UInt8)) (l : Link)
    (returned arrived queued waiting : List (List UInt8)) : Prop where
  sent : l.sent = returned ++ arrived ++ queued ++ waiting
  wire : List.Forall₂ (fun doc d => ∃ t, doc = sendPing t (some d)) l.wire waiting
  writes : writes = queued.map pongDoc
  unread : l.unread = arrived.flatMap pongDoc
  stream : l.arrived = (returned ++ arrived).flatMap pongDoc
  results : l.results = returned.map fun d => .ok (some d)
  fits : ∀ d ∈ l.sent, (pongDoc d).length ≤ maxSize

namespace Flow

variable {ws : List (List UInt8)} {l : Link} {r u q w : List (List UInt8)} {d : List UInt8}

theorem empty : Flow [] Link.empty [] [] [] [] :=
  ⟨rfl, .nil, rfl, rfl, rfl, rfl, by simp [Link.empty]⟩

theorem ping (h : Flow ws l r u q w) (t : GoTime) (hfits : (pongDoc d).length ≤ maxSize) :
    Flow ws { l with wire := l.wire ++ [sendPing t (some d)], sent := l.sent ++ [d] }
      r u q (w ++ [d]) where
  sent := by simp only [h.sent, List.append_assoc]
  wire := List.rel_append h.wire (.cons ⟨t, rfl⟩ .nil)
  writes := h.writes
  unread := h.unread
  stream := h.stream
  results := h.results
  fits := by
    intro d' hd'
    rcases List.mem_append.mp hd' with hd' | hd'
    · exact h.fits d' hd'
    · obtain rfl := List.mem_singleton.mp hd'
      exact hfits

theorem deliver {doc : List UInt8} {docs : List (List UInt8)} (h : Flow ws l r u q (d :: w))
    (hdocs : l.wire = doc :: docs) :
    Flow (ws ++ [pongDoc d]) { l with wire := docs } r u (q ++ [d]) w where
  sent := by simp only [h.sent, List.append_assoc, List.singleton_append]
  wire := by
    have hwire := h.wire
    rw [hdocs] at hwire
    exact (List.forall₂_cons.mp hwire).2
  writes := by simp only [h.writes, List.map_append, List.map_cons, List.map_nil]
  unread := h.unread
  stream := h.stream
  results := h.results
  fits := h.fits

theorem written (h : Flow (pongDoc d :: ws) l r u (d :: q) w) :
    Flow ws { l with unread := l.unread ++ pongDoc d, arrived := l.arrived ++ pongDoc d }
      r (u ++ [d]) q w where
  sent := by simp only [h.sent, List.append_assoc, List.singleton_append]
  wire := h.wire
  writes := (List.cons.inj h.writes).2
  unread := by simp only [h.unread, List.flatMap_append, List.flatMap_cons, List.flatMap_nil,
    List.append_nil]
  stream := by simp only [h.stream, List.flatMap_append, List.flatMap_cons, List.flatMap_nil,
    List.append_nil, List.append_assoc]
  results := h.results
  fits := h.fits

theorem reply (h : Flow ws l r (d :: u) q w) :
    Flow ws { l with unread := u.flatMap pongDoc, results := l.results ++ [.ok (some d)] }
      (r ++ [d]) u q w where
  sent := by simp only [h.sent, List.append_assoc, List.cons_append, List.nil_append]
  wire := h.wire
  writes := h.writes
  unread := rfl
  stream := by simp only [h.stream, List.append_assoc, List.singleton_append]
  results := by simp only [h.results, List.map_append, List.map_cons, List.map_nil]
  fits := h.fits

end Flow

/-! ## The events of one client -/

theorem length_sendPing (t : GoTime) (d : List UInt8) :
    (sendPing t (some d)).length = (pongDoc d).length := by
  have hping := length_messageFields .ping (IsStamp.dateTime t.millis) (payloadFields (.ping d))
  have hpong := length_messageFields .pong (IsStamp.int64 12937) (payloadFields (.pong d))
  have hsame : payloadFields (.ping d) = payloadFields (.pong d) := rfl
  rw [hsame] at hping
  exact hping.trans hpong.symm

section
variable {lib : Libbson} {G : GoBson} {s : Net} {c : ClientId} {ws : List (List UInt8)}
  {d : List UInt8}

theorem netStep_deliver {t : GoTime} {docs : List (List UInt8)}
    (hc : s.hive.clients c = some ⟨.reading, ws⟩) (hup : s.hive.broken c = false)
    (hwire : (s.link c).wire = sendPing t (some d) :: docs)
    (hfits : (pongDoc d).length ≤ maxSize) (prior : Message) :
    netStep lib G s (.deliver c prior) = some (s.setLink
      ({ s.hive with app := s.hive.app.next }.setClient c (some ⟨.reading, ws ++ [pongDoc d]⟩))
      c { s.link c with wire := docs }) := by
  let w : WireMessage lib := ⟨.dateTime t.millis, .ping d, .dateTime _,
    (length_sendPing t d).trans_le hfits, rfl⟩
  have hne : (sendPing t (some d)).isEmpty = false := by
    have := w.bytes_ne_nil
    exact List.isEmpty_eq_false_iff.mpr this
  have hread := onRead_hive_ping w rfl hc hup prior hfits
  have hbytes : w.bytes = sendPing t (some d) := rfl
  rw [hbytes] at hread
  simp only [netStep, hwire, serverMachine, LoopEvent.enabled, hc, hne, Bool.not_false, if_true,
    callback, hread]
  rfl

theorem netStep_written {doc : List UInt8} {status : Int} (hstatus : 0 ≤ status)
    (hc : s.hive.clients c = some ⟨.reading, doc :: ws⟩) :
    netStep lib G s (.written c status) = some (s.setLink
      (s.hive.setClient c (some ⟨.reading, ws⟩)) c
      { s.link c with unread := (s.link c).unread ++ doc,
                      arrived := (s.link c).arrived ++ doc }) := by
  have hnot : ¬status < 0 := by omega
  simp only [netStep, hc, if_neg hnot, serverMachine, LoopEvent.enabled, if_true, callback,
    onWrite, popWrite]
  rfl

theorem netStep_reply {rest : List UInt8} (hunread : (s.link c).unread = pongDoc d ++ rest)
    (hsent : (s.link c).sent[(s.link c).results.length]? = some d)
    (hfits : (pongDoc d).length ≤ maxSize) :
    netStep lib G s (.reply c) = some (s.setLink s.hive c
      { s.link c with unread := rest, results := (s.link c).results ++ [.ok (some d)] }) := by
  obtain ⟨h5, -, hlead, -⟩ := headerOK_iff.mp (headerOK_encodeDoc hfits)
  have hready : ready (pongDoc d ++ rest) = true := by
    simp only [ready, Bool.and_eq_true, decide_eq_true_eq, List.length_append]
    rw [List.take_append_of_le_length (by unfold pongDoc; omega)]
    unfold pongDoc
    omega
  have hreply : pingReply G (some d) (pongDoc d ++ rest) = (.ok (some d), rest) := by
    have hdecode : decodePong G (pongDoc d ++ rest) = (.ok ⟨some d⟩, rest) :=
      decodePong_append G rest hfits
    simp only [pingReply, hdecode, ne_eq, not_true_eq_false, if_false]
  simp only [netStep, hsent, hunread, hready, if_true, hreply]

end

/-! ## The invariant -/

/-- A connected client has its accounts, and nothing happened on other
connections. -/
def Accounts (cl : Option Client) (l : Link) : Prop :=
  match cl with
  | none => l = Link.empty
  | some cl => cl.phase = .reading ∧ ∃ r u q w, Flow cl.writes l r u q w

structure Net.Inv (s : Net) : Prop where
  accounts : ∀ c, Accounts (s.hive.clients c) (s.link c)
  fresh : ∀ c, s.hive.nextId ≤ c → s.hive.clients c = none
  up : ∀ c, s.hive.broken c = false

/-- An event on one connection keeps the invariant if it keeps it there. -/
theorem Net.Inv.setLink {s : Net} (hs : s.Inv) {c : ClientId} {cl cl' : Client} {l : Link}
    {h : Server Allocator} (hc : s.hive.clients c = some cl)
    (hh : h.clients = Function.update s.hive.clients c (some cl'))
    (hid : h.nextId = s.hive.nextId) (hup : h.broken = s.hive.broken)
    (hflow : Accounts (some cl') l) : (s.setLink h c l).Inv where
  accounts d := by
    by_cases hd : d = c
    · subst hd
      rw [Net.setLink_self]
      show Accounts (h.clients d) l
      rw [hh, Function.update_self]
      exact hflow
    · rw [Net.setLink_of_ne _ _ hd]
      show Accounts (h.clients d) (s.link d)
      rw [hh, Function.update_of_ne hd]
      exact hs.accounts d
  fresh d hd := by
    show h.clients d = none
    have hold := hs.fresh d (hid ▸ hd)
    have hne : d ≠ c := by
      rintro rfl
      rw [hc] at hold
      cases hold
    rw [hh, Function.update_of_ne hne]
    exact hold
  up d := (congrFun hup d).trans (hs.up d)

theorem Net.Inv.client {s : Net} (hs : s.Inv) {c : ClientId} {cl : Client}
    (hc : s.hive.clients c = some cl) :
    ∃ ws r u q w, s.hive.clients c = some ⟨.reading, ws⟩ ∧ Flow ws (s.link c) r u q w := by
  have hacc := hs.accounts c
  rw [hc] at hacc
  obtain ⟨hphase, r, u, q, w, hflow⟩ := hacc
  obtain ⟨phase, ws⟩ := cl
  obtain rfl : phase = .reading := hphase
  exact ⟨ws, r, u, q, w, hc, hflow⟩

theorem Net.Inv.client_of_link {s : Net} (hs : s.Inv) {c : ClientId}
    (hlink : s.link c ≠ Link.empty) :
    ∃ ws r u q w, s.hive.clients c = some ⟨.reading, ws⟩ ∧ Flow ws (s.link c) r u q w := by
  cases hc : s.hive.clients c with
  | none =>
      have hacc := hs.accounts c
      rw [hc] at hacc
      exact absurd hacc hlink
  | some cl => exact hc ▸ hs.client hc

section
variable {lib : Libbson} {G : GoBson} {s s' : Net} {c : ClientId}

theorem inv_connect (hs : s.Inv) (h : netStep lib G s .connect = some s') : s'.Inv := by
  have hstep : s' = { s with hive :=
      { s.hive.setClient s.hive.nextId (some ⟨.reading, []⟩) with
        nextId := s.hive.nextId + 1 } } := (Option.some.inj h).symm
  subst hstep
  refine ⟨fun d => ?_, fun d hd => ?_, hs.up⟩
  · show Accounts ((s.hive.setClient s.hive.nextId (some ⟨.reading, []⟩)).clients d) (s.link d)
    by_cases hd : d = s.hive.nextId
    · subst hd
      rw [Server.setClient_self]
      have hacc := hs.accounts s.hive.nextId
      rw [hs.fresh _ (Nat.le_refl _)] at hacc
      rw [show s.link s.hive.nextId = Link.empty from hacc]
      exact ⟨rfl, [], [], [], [], Flow.empty⟩
    · rw [Server.setClient_of_ne _ hd]
      exact hs.accounts d
  · show (s.hive.setClient s.hive.nextId (some ⟨.reading, []⟩)).clients d = none
    have hlt : s.hive.nextId < d := hd
    rw [Server.setClient_of_ne _ hlt.ne']
    exact hs.fresh d hlt.le

theorem inv_ping {t : GoTime} {digest : List UInt8} (hs : s.Inv)
    (h : netStep lib G s (.ping c t digest) = some s') : s'.Inv := by
  simp only [netStep] at h
  split_ifs at h with hcond
  rw [Bool.and_eq_true, decide_eq_true_eq, Option.isSome_iff_exists] at hcond
  obtain ⟨⟨cl, hc⟩, hfits⟩ := hcond
  obtain ⟨ws, r, u, q, w, hc, hflow⟩ := hs.client hc
  rw [length_sendPing] at hfits
  obtain rfl := Option.some.inj h
  exact hs.setLink hc (by rw [← hc, Function.update_eq_self]) rfl rfl
    ⟨rfl, r, u, q, w ++ [digest], hflow.ping t hfits⟩

theorem Flow.wire_cons {ws : List (List UInt8)} {l : Link} {r u q w : List (List UInt8)}
    {doc : List UInt8} {docs : List (List UInt8)} (h : Flow ws l r u q w)
    (hwire : l.wire = doc :: docs) :
    ∃ d w' t, w = d :: w' ∧ doc = sendPing t (some d) ∧ (pongDoc d).length ≤ maxSize := by
  have hrel := h.wire
  rw [hwire] at hrel
  obtain ⟨d, w', ⟨t, ht⟩, -, rfl⟩ := List.forall₂_cons_left_iff.mp hrel
  exact ⟨d, w', t, rfl, ht, h.fits d (by simp [h.sent])⟩

theorem inv_deliver {prior : Message} (hs : s.Inv)
    (h : netStep lib G s (.deliver c prior) = some s') : s'.Inv := by
  cases hwire : (s.link c).wire with
  | nil =>
      simp only [netStep, hwire] at h
      cases h
  | cons doc docs =>
      have hlink : s.link c ≠ Link.empty := fun hempty => by
        rw [hempty] at hwire
        cases hwire
      obtain ⟨ws, r, u, q, w, hc, hflow⟩ := hs.client_of_link hlink
      obtain ⟨d, w', t, rfl, rfl, hfits⟩ := hflow.wire_cons hwire
      rw [netStep_deliver hc (hs.up c) hwire hfits] at h
      obtain rfl := Option.some.inj h
      exact hs.setLink hc rfl rfl rfl ⟨rfl, r, u, q ++ [d], w', hflow.deliver hwire⟩

theorem inv_written {status : Int} (hs : s.Inv)
    (h : netStep lib G s (.written c status) = some s') : s'.Inv := by
  cases hc : s.hive.clients c with
  | none =>
      simp only [netStep, hc] at h
      cases h
  | some cl =>
      obtain ⟨ws, r, u, q, w, hc, hflow⟩ := hs.client hc
      cases ws with
      | nil =>
          simp only [netStep, hc] at h
          cases h
      | cons doc ws =>
          obtain ⟨d, q', hq⟩ : ∃ d q', q = d :: q' := List.exists_cons_of_ne_nil fun hnil => by
            have hwrites := hflow.writes
            rw [hnil] at hwrites
            cases hwrites
          subst hq
          obtain rfl : doc = pongDoc d := (List.cons.inj hflow.writes).1
          by_cases hstatus : status < 0
          · simp only [netStep, hc, if_pos hstatus] at h
            cases h
          · rw [netStep_written (by omega) hc] at h
            obtain rfl := Option.some.inj h
            exact hs.setLink hc rfl rfl rfl ⟨rfl, r, u ++ [d], q', w, hflow.written⟩

theorem Flow.sent_next {ws : List (List UInt8)} {l : Link} {r u q w : List (List UInt8)}
    {d : List UInt8} (h : Flow ws l r (d :: u) q w) : l.sent[l.results.length]? = some d := by
  rw [h.sent, h.results, List.length_map, List.append_assoc, List.append_assoc,
    List.getElem?_append_right (Nat.le_refl _), Nat.sub_self]
  rfl

theorem inv_reply (hs : s.Inv) (h : netStep lib G s (.reply c) = some s') : s'.Inv := by
  have hlink : s.link c ≠ Link.empty := fun hempty => by
    simp only [netStep, hempty, Link.empty] at h
    cases h
  obtain ⟨ws, r, u, q, w, hc, hflow⟩ := hs.client_of_link hlink
  cases u with
  | nil =>
      -- nothing arrived, so the reader waits
      have hunread : (s.link c).unread = [] := hflow.unread
      simp only [netStep, hunread] at h
      split at h
      · cases h
      · simp [ready] at h
  | cons d u =>
      have hunread : (s.link c).unread = pongDoc d ++ u.flatMap pongDoc := hflow.unread
      have hfits := hflow.fits d (by simp [hflow.sent])
      rw [netStep_reply hunread hflow.sent_next hfits] at h
      obtain rfl := Option.some.inj h
      exact hs.setLink hc (by rw [← hc, Function.update_eq_self]) rfl rfl
        ⟨rfl, r ++ [d], u, q, w, hflow.reply⟩

end

/-- **The accounts balance in every run.** -/
theorem inv_invariant (lib : Libbson) (G : GoBson) : (netMachine lib G).Invariant Net.Inv where
  init s hs := by
    obtain ⟨hclients, hup, hlinks⟩ := hs
    refine ⟨fun c => ?_, fun c _ => hclients c, hup⟩
    rw [hclients, hlinks]
    rfl
  step s e s' hs h := by
    have h : netStep lib G s e = some s' := h
    cases e with
    | connect => exact inv_connect hs h
    | ping c t digest => exact inv_ping hs h
    | deliver c prior => exact inv_deliver hs h
    | written c status => exact inv_written hs h
    | reply c => exact inv_reply hs h

/-! ## The echo -/

/-- What the hive wrote to a client: what arrived and what is queued. -/
def Net.hiveBytes (s : Net) (c : ClientId) : List UInt8 :=
  (s.link c).arrived ++ ((s.hive.clients c).elim [] Client.writes).flatten

/-- The digests of the pings the hive has read. -/
def Net.answered (s : Net) (c : ClientId) : List (List UInt8) :=
  (s.link c).sent.take ((s.link c).sent.length - (s.link c).wire.length)

def decodePongs (G : GoBson) : Nat → List UInt8 → List (Except GoError PongPayload) × List UInt8
  | 0, conn => ([], conn)
  | n + 1, conn =>
    let (res, conn) := decodePong G conn
    let (more, conn) := decodePongs G n conn
    (res :: more, conn)

/-- The system can go on until every call of the client has returned its digest. -/
def Completes (lib : Libbson) (G : GoBson) (s : Net) (c : ClientId) : Prop :=
  ∃ es s', (netMachine lib G).exec s es = some s' ∧ (s'.link c).sent = (s.link c).sent
    ∧ (s'.link c).results = (s.link c).sent.map fun d => .ok (some d)

/-- The client's pings are echoed. What the hive wrote to it decodes to the digests
it read from it, in order, to the last byte; the calls that returned each
returned their digest; the hive survives the next ping, in any memory; and the
calls still waiting can all return. -/
structure Echoes (lib : Libbson) (G : GoBson) (s : Net) (c : ClientId) : Prop where
  stream : decodePongs G (s.answered c).length (s.hiveBytes c)
    = ((s.answered c).map fun d => .ok ⟨some d⟩, [])
  returned : (s.link c).results <+: (s.link c).sent.map fun d => .ok (some d)
  survives : (s.link c).wire ≠ [] →
    ∀ prior, ∃ s', netStep lib G s (.deliver c prior) = some s'
  completes : Completes lib G s c

theorem decodePongs_flatMap (G : GoBson) {ds : List (List UInt8)}
    (hfits : ∀ d ∈ ds, (pongDoc d).length ≤ maxSize) :
    decodePongs G ds.length (ds.flatMap pongDoc) = (ds.map fun d => .ok ⟨some d⟩, []) := by
  induction ds with
  | nil => rfl
  | cons d ds ih =>
      have hdecode : decodePong G (pongDoc d ++ ds.flatMap pongDoc)
          = (.ok ⟨some d⟩, ds.flatMap pongDoc) :=
        decodePong_append G _ (hfits d List.mem_cons_self)
      have ih := ih fun d' hd' => hfits d' (List.mem_cons_of_mem _ hd')
      simp only [List.length_cons, List.flatMap_cons, decodePongs, hdecode, ih, List.map_cons]

section
variable {lib : Libbson} {G : GoBson} {c : ClientId}

theorem Flow.wire_of_waiting {ws : List (List UInt8)} {l : Link} {r u q w : List (List UInt8)}
    {d : List UInt8} (h : Flow ws l r u q (d :: w)) :
    ∃ t docs, l.wire = sendPing t (some d) :: docs := by
  obtain ⟨doc, docs, ⟨t, ht⟩, -, hwire⟩ := List.forall₂_cons_right_iff.mp h.wire
  exact ⟨t, docs, by rw [hwire, ht]⟩

theorem Completes.of_step {s s₁ : Net} {e : NetEvent} (hstep : netStep lib G s e = some s₁)
    (hsent : (s₁.link c).sent = (s.link c).sent) (h : Completes lib G s₁ c) :
    Completes lib G s c := by
  obtain ⟨es, s', hexec, hsent', hres⟩ := h
  refine ⟨e :: es, s', ?_, hsent'.trans hsent, hsent ▸ hres⟩
  simp only [Machine.exec, netMachine, hstep, Option.bind_some]
  exact hexec

/-- **Everything waiting can be brought home.** Deliver what is on the way,
complete what is queued, read what arrived. -/
theorem Flow.completes : ∀ {s : Net} {ws : List (List UInt8)} {r u q w : List (List UInt8)},
    s.hive.clients c = some ⟨.reading, ws⟩ → s.hive.broken c = false →
    Flow ws (s.link c) r u q w → Completes lib G s c
  | s, ws, r, u, q, d :: w, hc, hup, h => by
      obtain ⟨t, docs, hwire⟩ := h.wire_of_waiting
      have hfits := h.fits d (by simp [h.sent])
      have hstep : netStep lib G s (.deliver c blank) = _ :=
        netStep_deliver hc hup hwire hfits blank
      refine Completes.of_step hstep (by rw [Net.setLink_self]) (Flow.completes
        (Server.setClient_self ..) hup (r := r) (u := u) (q := q ++ [d]) (w := w) ?_)
      rw [Net.setLink_self]
      exact h.deliver hwire
  | s, ws, r, u, d :: q, [], hc, hup, h => by
      obtain rfl : ws = pongDoc d :: q.map pongDoc := h.writes
      have hstep : netStep lib G s (.written c 0) = _ := netStep_written (Int.le_refl 0) hc
      refine Completes.of_step hstep (by rw [Net.setLink_self]) (Flow.completes
        (Server.setClient_self ..) hup (r := r) (u := u ++ [d]) (q := q) (w := []) ?_)
      rw [Net.setLink_self]
      exact h.written
  | s, ws, r, d :: u, [], [], hc, hup, h => by
      have hunread : (s.link c).unread = pongDoc d ++ u.flatMap pongDoc := h.unread
      have hstep : netStep lib G s (.reply c) = _ :=
        netStep_reply hunread h.sent_next (h.fits d (by simp [h.sent]))
      refine Completes.of_step hstep (by rw [Net.setLink_self]) (Flow.completes hc hup
        (r := r ++ [d]) (u := u) (q := []) (w := []) ?_)
      rw [Net.setLink_self]
      exact h.reply
  | s, ws, r, [], [], [], hc, _, h => by
      refine ⟨[], s, rfl, rfl, ?_⟩
      rw [h.results, h.sent, List.append_nil, List.append_nil, List.append_nil]
termination_by _ _ _ u q w => 3 * w.length + 2 * q.length + u.length

theorem Flow.echoes {s : Net} {ws : List (List UInt8)} {r u q w : List (List UInt8)}
    (hc : s.hive.clients c = some ⟨.reading, ws⟩) (hup : s.hive.broken c = false)
    (h : Flow ws (s.link c) r u q w) : Echoes lib G s c := by
  have hlen : (s.link c).wire.length = w.length := h.wire.length_eq
  have hanswered : s.answered c = r ++ u ++ q := by
    rw [Net.answered, hlen, h.sent, List.length_append, Nat.add_sub_cancel, List.take_left]
  have hbytes : s.hiveBytes c = (r ++ u ++ q).flatMap pongDoc := by
    have hqueued : ((s.hive.clients c).elim [] Client.writes).flatten = q.flatMap pongDoc := by
      rw [hc, List.flatMap_def, ← h.writes]
      rfl
    rw [Net.hiveBytes, hqueued, h.stream]
    exact List.flatMap_append.symm
  refine ⟨?_, ?_, fun hwire prior => ?_, Flow.completes hc hup h⟩
  · rw [hanswered, hbytes]
    refine decodePongs_flatMap G fun d hd => h.fits d ?_
    rw [h.sent]
    exact List.mem_append_left w hd
  · rw [h.results, h.sent, List.append_assoc, List.append_assoc, List.map_append]
    exact List.prefix_append _ _
  · obtain ⟨doc, docs, hcons⟩ := List.exists_cons_of_ne_nil hwire
    obtain ⟨d, w', t, rfl, rfl, hfits⟩ := h.wire_cons hcons
    exact ⟨_, netStep_deliver hc hup hcons hfits prior⟩

theorem echoes_empty {s : Net} (hc : s.hive.clients c = none) (hl : s.link c = Link.empty) :
    Echoes lib G s c := by
  refine ⟨?_, ?_, fun hwire => ?_, [], s, rfl, rfl, ?_⟩
  · simp only [Net.answered, Net.hiveBytes, hc, hl]
    rfl
  · rw [hl]
    exact List.nil_prefix
  · rw [hl] at hwire
    exact absurd rfl hwire
  · rw [hl]
    rfl

end

/-- **The hive echoes every client.** In every state the system can reach, with
any number of clients and any interleaving, for every client: what the hive
wrote to it decodes to exactly the digests of the pings read from it, in
order; each call of `ping` that returned, returned its digest; the hive
survives the next ping; and the calls still waiting can all return. -/
theorem hive_echoes {lib : Libbson} {G : GoBson} {s : Net}
    (hs : (netMachine lib G).Reachable s) (c : ClientId) : Echoes lib G s c := by
  have hinv := (inv_invariant lib G).reachable hs
  cases hc : s.hive.clients c with
  | none =>
      have hacc := hinv.accounts c
      rw [hc] at hacc
      exact echoes_empty hc hacc
  | some cl =>
      obtain ⟨ws, r, u, q, w, hc, hflow⟩ := hinv.client hc
      exact hflow.echoes hc (hinv.up c)

def idle : Net :=
  ⟨⟨fun _ => none, 0, fun _ => false, fun _ => ⟨blank, true⟩⟩, fun _ => Link.empty⟩

theorem one_ping_echoes :
    ∃ s, (netMachine .lenient .plain).exec idle [.connect, .ping 0 ⟨0, 0, by decide⟩ [7],
        .deliver 0 blank, .written 0 0, .reply 0] = some s
      ∧ Echoes .lenient .plain s 0 := by
  have hruns : ((netMachine .lenient .plain).exec idle [.connect,
      .ping 0 ⟨0, 0, by decide⟩ [7], .deliver 0 blank, .written 0 0, .reply 0]).isSome = true := by
    decide +kernel
  obtain ⟨s, hs⟩ := Option.isSome_iff_exists.mp hruns
  have hidle : (netMachine .lenient .plain).Reachable idle :=
    .init ⟨fun _ => rfl, fun _ => rfl, fun _ => rfl⟩
  exact ⟨s, hs, hive_echoes (hidle.exec hs) 0⟩

end Vespa
