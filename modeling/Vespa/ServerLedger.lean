import Vespa.Ledger
import Vespa.Lifecycle

/-!
# The hive's heap

The ledger of a run has an entry for each heap object, added where the code
allocates it and removed where the code frees it. In a state between two
callbacks the hive owes an `IpcServerClient` for each connection and a write
request for each queued write, and everything else should be gone.

It is not. `OnRead` frees its buffer but neither the `Message` nor the digest or
topic read into it, `OnPing` keeps its `Pong`, and `OnWrite` keeps the request of
a write that failed. `hive_ledger` is the exact account, with these in it; the
ledger is what it should be as long as nobody has sent anything.
-/

namespace Vespa

open Bson Ledger

/-! ## Entries -/

def Action.entry? : Action → Option (Entry HeapObject)
  | .effect (.alloc o) => some (.add o)
  | .effect (.free o) => some (.remove o)
  | .effect (.write _ _) => none
  | .effect (.close _) => none
  | .effect (.readStart _) => none
  | .call _ => none

/-- What the callback of an event allocates and frees. -/
def heapEntries {ε : Type} (lib : Libbson) (h : Handlers ε) (s : Server ε) (e : LoopEvent) :
    List (Entry HeapObject) :=
  (callback lib h s e).actions.filterMap Action.entry?

/-- How many of an object the work in flight needs: an `IpcServerClient` for a
connection, a request for a queued write. -/
def Server.inFlight {ε : Type} (s : Server ε) : HeapObject → Nat
  | .client c => if (s.clients c).isSome then 1 else 0
  | .writeReq c => ((s.clients c).elim [] Client.writes).length
  | .readBuffer => 0
  | .message => 0
  | .payload => 0
  | .pong => 0
  | .digestStr => 0

/-- The digests and topics a scan copied, one for each assignment. -/
def payloadObjects (log : List Store) : List HeapObject :=
  (log.filter fun st => st.reader?.isSome).map fun _ => .payload

/-- What the hive leaves behind in the callback of an event. -/
def hiveLeaves (lib : Libbson) : LoopEvent → List HeapObject
  | .read _ (.data chunk prior) =>
    match readMessageFromBytes lib chunk (Reader.start prior) with
    | .ok (true, r) =>
      [.message] ++ payloadObjects r.log ++ if r.msg.kind = Kind.ping.code then [.pong] else []
    | _ => []
  | .written c status => if status < 0 then [.writeReq c] else []
  | _ => []

@[simp] theorem entry?_alloc (o : HeapObject) :
    Action.entry? (.effect (.alloc o)) = some (.add o) := rfl

@[simp] theorem entry?_free (o : HeapObject) :
    Action.entry? (.effect (.free o)) = some (.remove o) := rfl

@[simp] theorem entry?_write (c : ClientId) (doc : List UInt8) :
    Action.entry? (.effect (.write c doc)) = none := rfl

@[simp] theorem entry?_close (c : ClientId) : Action.entry? (.effect (.close c)) = none := rfl

@[simp] theorem entry?_readStart (c : ClientId) :
    Action.entry? (.effect (.readStart c)) = none := rfl

@[simp] theorem entry?_call (k : Call) : Action.entry? (.call k) = none := rfl

/-- What a read of data allocates and frees around its dispatch. -/
theorem entries_data (log : List Store) (actions : List Action) :
    (Action.effect (.alloc .readBuffer) :: .effect (.alloc .message) :: payloadAllocs log
        ++ actions ++ [Action.effect (.free .readBuffer)]).filterMap Action.entry?
      = (.readBuffer :: .message :: payloadObjects log).map .add
        ++ (actions.filterMap Action.entry? ++ [.remove .readBuffer]) := by
  have hpayloads : (payloadAllocs log).filterMap Action.entry?
      = (payloadObjects log).map .add := by
    rw [payloadAllocs, payloadObjects, List.filterMap_map, List.map_map, ← List.filterMap_eq_map]
    rfl
  simp only [List.cons_append, List.filterMap_cons, entry?_alloc, List.filterMap_append,
    hpayloads, entry?_free, List.filterMap_nil, List.map_cons, List.append_assoc]

/-- The objects in flight of one client. -/
def Client.objects (c : ClientId) : Option Client → List HeapObject
  | none => []
  | some cl => .client c :: List.replicate cl.writes.length (.writeReq c)

theorem count_objects_client (c d : ClientId) (cl : Option Client) :
    (Client.objects c cl).count (.client d) = if d = c ∧ cl.isSome then 1 else 0 := by
  cases cl with
  | none => simp [Client.objects]
  | some cl => simp [Client.objects, List.count_cons, List.count_replicate, @eq_comm _ c d]

theorem count_objects_writeReq (c d : ClientId) (cl : Option Client) :
    (Client.objects c cl).count (.writeReq d)
      = if d = c then (cl.elim [] Client.writes).length else 0 := by
  cases cl with
  | none => simp [Client.objects]
  | some cl => simp [Client.objects, List.count_replicate, @eq_comm _ c d]

theorem count_objects_other (c : ClientId) (cl : Option Client) {o : HeapObject}
    (hclient : ∀ d, o ≠ .client d) (hreq : ∀ d, o ≠ .writeReq d) :
    (Client.objects c cl).count o = 0 := by
  cases cl with
  | none => rfl
  | some cl =>
      rw [List.count_eq_zero, Client.objects, List.mem_cons, not_or]
      exact ⟨hclient c, fun h => hreq c (List.eq_of_mem_replicate h)⟩

theorem count_objects_cons (c : ClientId) (phase : Phase) (doc : List UInt8)
    (ws : List (List UInt8)) (o : HeapObject) :
    (Client.objects c (some ⟨phase, doc :: ws⟩)).count o
      = (Client.objects c (some ⟨phase, ws⟩)).count o + [HeapObject.writeReq c].count o := by
  rw [← List.count_append]
  simp only [Client.objects, List.length_cons, List.replicate_succ', List.cons_append]

theorem count_objects_concat (c : ClientId) (phase : Phase) (doc : List UInt8)
    (ws : List (List UInt8)) (o : HeapObject) :
    (Client.objects c (some ⟨phase, ws ++ [doc]⟩)).count o
      = (Client.objects c (some ⟨phase, ws⟩)).count o + [HeapObject.writeReq c].count o := by
  rw [← count_objects_cons c phase doc]
  simp only [Client.objects, List.length_append, List.length_cons, List.length_nil]

theorem inFlight_setClient {ε : Type} (s : Server ε) (c : ClientId) (cl : Option Client)
    (o : HeapObject) :
    (s.setClient c cl).inFlight o + (Client.objects c (s.clients c)).count o
      = s.inFlight o + (Client.objects c cl).count o := by
  cases o with
  | client d =>
      rw [count_objects_client, count_objects_client, Server.inFlight, Server.inFlight]
      by_cases hd : d = c
      · subst hd
        rw [Server.setClient_self]
        simp only [true_and]
        omega
      · rw [Server.setClient_of_ne _ hd]
        simp only [hd, false_and, if_false]
  | writeReq d =>
      rw [count_objects_writeReq, count_objects_writeReq, Server.inFlight, Server.inFlight]
      by_cases hd : d = c
      · subst hd
        rw [Server.setClient_self, if_pos rfl, if_pos rfl, Nat.add_comm]
      · rw [Server.setClient_of_ne _ hd, if_neg hd, if_neg hd]
  | readBuffer | message | payload | pong | digestStr =>
      rw [count_objects_other _ _ (fun _ h => by cases h) (fun _ h => by cases h),
        count_objects_other _ _ (fun _ h => by cases h) (fun _ h => by cases h)]
      rfl

/-! ## One event -/

/-- What the `switch` comes to in the hive, where it returned: a ping is answered with
a pong, an event is copied and printed. -/
theorem hive_dispatch {c : ClientId} {m : Message} {s s' : Server Allocator}
    {ws : List (List UInt8)} {actions : List Action} (hc : s.clients c = some ⟨.reading, ws⟩)
    (hd : dispatch hive c m s = (actions, .ok (true, s'))) :
    (m.kind = Kind.ping.code
        ∧ actions.filterMap Action.entry? = [HeapObject.pong, .writeReq c].map .add
        ∧ ∃ doc, s' = { s with app := s.app.next }.setClient c (some ⟨.reading, ws ++ [doc]⟩))
      ∨ (m.kind ≠ Kind.ping.code
        ∧ (actions.filterMap Action.entry? = []
          ∨ actions.filterMap Action.entry? = [.add .digestStr, .remove .digestStr])
        ∧ s' = { s with app := s.app.next }) := by
  rw [dispatch] at hd
  split at hd
  · rename_i hk
    refine .inl ⟨Kind.ofCode?_eq_some.mp hk, ?_⟩
    simp only [hive, callHandler, hiveOnPing, ipcServerClientWrite, writeMessageToStream] at hd
    split at hd
    · obtain ⟨-, hres⟩ := Prod.mk.inj hd
      cases hres
    · rename_i doc hdoc
      simp only [uvWrite, hc] at hd
      obtain ⟨rfl, hres⟩ := Prod.mk.inj hd
      split_ifs at hres
      · cases hres
      · obtain ⟨-, rfl⟩ := Prod.mk.inj (Except.ok.inj hres)
        exact ⟨by simp, _, rfl⟩
  · rename_i hk
    have hne : m.kind ≠ Kind.ping.code := by
      rw [Kind.ofCode?_eq_some.mp hk]
      decide
    refine .inr ⟨hne, ?_⟩
    simp only [hive, callHandler, hiveOnEvent] at hd
    split at hd
    · obtain ⟨-, hres⟩ := Prod.mk.inj hd
      cases hres
    · obtain ⟨rfl, hres⟩ := Prod.mk.inj hd
      obtain ⟨-, rfl⟩ := Prod.mk.inj (Except.ok.inj hres)
      exact ⟨.inl (by simp), rfl⟩
    · obtain ⟨rfl, hres⟩ := Prod.mk.inj hd
      obtain ⟨-, rfl⟩ := Prod.mk.inj (Except.ok.inj hres)
      exact ⟨.inr (by simp), rfl⟩
  · obtain ⟨-, hres⟩ := Prod.mk.inj hd
    cases hres

/-- What entries do between two states: they free nothing that is not in flight, and what
they allocate they free, or it is in flight after them, or left behind. -/
structure HeapStep (s s' : Server Allocator) (xs : List (Entry HeapObject))
    (leaves : List HeapObject) : Prop where
  posted : ∀ l : Multiset HeapObject, (∀ o, s.inFlight o ≤ l.count o) → (postAll l xs).isSome
  counted : ∀ o, xs.count (.add o) + s.inFlight o
    = xs.count (.remove o) + s'.inFlight o + leaves.count o

section
variable {s s' : Server Allocator} {c : ClientId} {phase : Phase} {ws : List (List UInt8)}

theorem heapStep_connected (hs : s.Fresh) (phase : Phase) :
    HeapStep s { s.setClient s.nextId (some ⟨phase, []⟩) with nextId := s.nextId + 1 }
      [.add (.client s.nextId)] [] := by
  refine ⟨fun l _ => rfl, fun o => ?_⟩
  have hobjects := inFlight_setClient s s.nextId (some ⟨phase, []⟩) o
  simp only [hs _ (Nat.le_refl _), Client.objects, List.count_nil, List.length_nil,
    List.replicate_zero] at hobjects
  have hsame : ∀ t : Server Allocator, Server.inFlight { t with nextId := s.nextId + 1 } o
      = t.inFlight o := fun _ => by cases o <;> rfl
  rw [hsame]
  simp only [count_add_cons_add, count_remove_cons_add, List.count_nil]
  omega

/-- A ping leaves its message, what was read into it and the pong; anything else leaves
out the pong. -/
theorem heapStep_data {r : Reader} {actions : List Action}
    (hc : s.clients c = some ⟨.reading, ws⟩)
    (hdispatch : dispatch hive c r.msg s = (actions, .ok (true, s'))) :
    HeapStep s s'
      ((Action.effect (.alloc .readBuffer) :: .effect (.alloc .message) :: payloadAllocs r.log
        ++ actions ++ [Action.effect (.free .readBuffer)]).filterMap Action.entry?)
      ([.message] ++ payloadObjects r.log
        ++ if r.msg.kind = Kind.ping.code then [.pong] else []) := by
  have happ : ∀ o, Server.inFlight { s with app := s.app.next } o = s.inFlight o := fun o => by
    cases o <;> rfl
  rw [entries_data]
  rcases hive_dispatch hc hdispatch with ⟨hk, hping, doc, rfl⟩ | ⟨hk, hevent, rfl⟩
  · have hobjects := fun o => inFlight_setClient { s with app := s.app.next } c
      (some ⟨.reading, ws ++ [doc]⟩) o
    simp only [hc, count_objects_concat, happ] at hobjects
    rw [hping, if_pos hk]
    refine ⟨fun l _ => ?_, fun o => ?_⟩
    · rw [postAll_append, postAll_adds, Option.bind_some, postAll_append, postAll_adds,
        Option.bind_some, postAll_remove (by simp)]
      rfl
    · have := hobjects o
      simp only [List.count_append, List.map_cons, List.map_nil, count_add_cons_add,
        count_add_cons_remove, count_remove_cons_add, count_remove_cons_remove,
        count_add_map_add, count_remove_map_add, List.count_nil]
      omega
  · rw [if_neg hk, List.append_nil]
    refine ⟨fun l _ => ?_, fun o => ?_⟩
    · rw [postAll_append, postAll_adds, Option.bind_some]
      rcases hevent with hevent | hevent <;> rw [hevent]
      · rw [List.nil_append, postAll_remove (by simp)]
        rfl
      · rw [List.cons_append, List.cons_append, List.nil_append, postAll_add_remove,
          postAll_remove (by simp)]
        rfl
    · have := happ o
      rcases hevent with hevent | hevent <;> rw [hevent]
      all_goals
        simp only [List.count_append, List.map_cons, count_add_cons_add,
          count_add_cons_remove, count_remove_cons_add, count_remove_cons_remove,
          count_add_map_add, count_remove_map_add, List.count_nil]
        omega

/-- A read that brings no data has its buffer freed again, if it had one. -/
theorem heapStep_noData (hsame : ∀ o, s'.inFlight o = s.inFlight o) (buffered : Bool)
    (actions : List Action) (hactions : actions.filterMap Action.entry? = []) :
    HeapStep s s'
      ((allocBuffer buffered ++ actions ++ freeBuffer buffered).filterMap Action.entry?) [] := by
  rw [List.filterMap_append, List.filterMap_append, hactions, List.append_nil]
  cases buffered with
  | false => exact ⟨fun l _ => rfl, fun o => by rw [hsame]; rfl⟩
  | true =>
      have hentries : ((allocBuffer true).filterMap Action.entry?
          ++ (freeBuffer true).filterMap Action.entry?)
          = [.add .readBuffer, .remove .readBuffer] := rfl
      rw [hentries]
      refine ⟨fun l _ => by rw [postAll_add_remove]; rfl, fun o => ?_⟩
      rw [hsame]
      simp

theorem heapStep_idle (hsame : ∀ o, s'.inFlight o = s.inFlight o) : HeapStep s s' [] [] :=
  heapStep_noData hsame false [] rfl

theorem inFlight_closing (hc : s.clients c = some ⟨.reading, ws⟩) (o : HeapObject) :
    (s.setClient c (some ⟨.closing, ws⟩)).inFlight o = s.inFlight o := by
  have hobjects := inFlight_setClient s c (some ⟨.closing, ws⟩) o
  have hphase : Client.objects c (some ⟨.closing, ws⟩)
      = Client.objects c (some ⟨.reading, ws⟩) := rfl
  rw [hc, hphase] at hobjects
  omega

/-- A write that is done frees its request; one that failed leaves it behind. -/
theorem heapStep_written {doc : List UInt8} (hc : s.clients c = some ⟨phase, doc :: ws⟩) :
    HeapStep s (s.setClient c (some ⟨phase, ws⟩)) [.remove (.writeReq c)] []
      ∧ HeapStep s (s.setClient c (some ⟨phase, ws⟩)) [] [.writeReq c] := by
  have hobjects := fun o => inFlight_setClient s c (some ⟨phase, ws⟩) o
  simp only [hc, count_objects_cons] at hobjects
  refine ⟨⟨fun l hl => ?_, fun o => ?_⟩, ⟨fun l _ => rfl, fun o => ?_⟩⟩
  · have hpos := hl (.writeReq c)
    rw [Server.inFlight, hc] at hpos
    rw [postAll_remove (Multiset.count_pos.mp (Nat.lt_of_lt_of_le (Nat.succ_pos _) hpos))]
    rfl
  · have := hobjects o
    simp only [count_add_cons_remove, count_remove_cons_remove, List.count_nil]
    omega
  · have := hobjects o
    simp only [List.count_nil]
    omega

theorem heapStep_closed (hc : s.clients c = some ⟨.closing, []⟩) :
    HeapStep s (s.setClient c none) [.remove (.client c)] [] := by
  refine ⟨fun l hl => ?_, fun o => ?_⟩
  · have hpos := hl (.client c)
    rw [Server.inFlight, hc] at hpos
    rw [postAll_remove (Multiset.count_pos.mp hpos)]
    rfl
  · have hobjects := inFlight_setClient s c none o
    simp only [hc, Client.objects, List.length_nil, List.replicate_zero, List.count_nil]
      at hobjects
    simp only [count_add_cons_remove, count_remove_cons_remove, List.count_nil]
    omega

end

/-- **One event on the heap**: what it frees was there, and what it allocates and does
not free is in flight after it or left behind. -/
theorem hive_step {lib : Libbson} {s s' : Server Allocator} {e : LoopEvent} (hs : s.Fresh)
    (hstep : (serverMachine lib hive).step s e = some s') :
    HeapStep s s' (heapEntries lib hive s e) (hiveLeaves lib e) := by
  obtain ⟨-, hcourse⟩ := serverStep_of_step hstep
  simp only [heapEntries]
  generalize (callback lib hive s e).actions = actions at hcourse
  cases hcourse with
  | accepted | refused => exact heapStep_connected hs _
  | data hc hread hdispatch =>
      simp only [hiveLeaves, hread]
      exact heapStep_data hc hdispatch
  | again => exact heapStep_noData (fun _ => rfl) true [] rfl
  | ended hc =>
      rw [List.append_cons]
      exact heapStep_noData (inFlight_closing hc) _ _ rfl
  | written hc =>
      simp only [hiveLeaves]
      split_ifs
      · exact (heapStep_written hc).2
      · exact (heapStep_written hc).1
  | closed hc => exact heapStep_closed hc
  | hungUp => exact heapStep_idle fun o => by cases o <;> rfl

/-! ## Runs -/

/-- **The account of the hive's heap.** After any run from no clients the ledger has
what is in flight and what the run's events left behind, and nothing was freed
that was not there. -/
theorem hive_ledger {lib : Libbson} {es : List LoopEvent} {s s' : Server Allocator}
    (hs : (serverMachine lib hive).init s) (h : (serverMachine lib hive).exec s es = some s') :
    ∃ l, postAll 0 ((serverMachine lib hive).trace (heapEntries lib hive) s es) = some l
      ∧ ∀ o, l.count o = s'.inFlight o + (es.flatMap (hiveLeaves lib)).count o := by
  have hzero : ∀ o, s.inFlight o = 0 := fun o => by
    cases o with
    | client c | writeReq c => simp only [Server.inFlight, hs c]; rfl
    | _ => rfl
  obtain ⟨l, hl, hcount⟩ := Machine.accounts (l := 0) (P := Server.Fresh)
    (fun _ => hiveLeaves lib) (fun _ _ _ hs hstep => fresh_step hive_writeOnly hs hstep)
    (fun _ _ _ l hs hstep => (hive_step hs hstep).posted l)
    (fun _ _ _ o hs hstep => (hive_step hs hstep).counted o) (fun c _ => hs c) h
    (fun o => by rw [hzero]; exact Nat.zero_le _)
  refine ⟨l, hl, fun o => ?_⟩
  have := hcount o
  rw [hzero, Machine.trace_eq_flatMap h, Multiset.count_zero] at this
  omega

/-- The ledger of a run is the work in flight after it. -/
def HeapInFlight (lib : Libbson) (s : Server Allocator) (es : List LoopEvent)
    (s' : Server Allocator) : Prop :=
  ∃ l, postAll 0 ((serverMachine lib hive).trace (heapEntries lib hive) s es) = some l
    ∧ ∀ o, l.count o = s'.inFlight o

def LoopEvent.isData : LoopEvent → Bool
  | .read _ (.data _ _) => true
  | _ => false

/-- Where nothing is sent nothing is written. -/
def Server.Silent (s : Server Allocator) : Prop := ∀ c cl, s.clients c = some cl → cl.writes = []

theorem Server.Silent.setClient {s : Server Allocator} (hs : s.Silent) (c : ClientId)
    {cl : Option Client} (hcl : ∀ cl', cl = some cl' → cl'.writes = []) :
    (s.setClient c cl).Silent := by
  intro d cl' hd
  by_cases hdc : d = c
  · subst hdc
    rw [Server.setClient_self] at hd
    exact hcl cl' hd
  · rw [Server.setClient_of_ne _ hdc] at hd
    exact hs d cl' hd

theorem silent_step {lib : Libbson} {s s' : Server Allocator} {e : LoopEvent} (hs : s.Silent)
    (he : e.isData = false) (hstep : (serverMachine lib hive).step s e = some s') :
    s'.Silent ∧ hiveLeaves lib e = [] := by
  obtain ⟨-, hcourse⟩ := serverStep_of_step hstep
  generalize (callback lib hive s e).actions = actions at hcourse
  cases hcourse with
  | accepted | refused =>
      refine ⟨?_, rfl⟩
      exact hs.setClient s.nextId fun cl' h => by rw [← Option.some.inj h]
  | data hc hread hdispatch => cases he
  | again hc => exact ⟨hs, rfl⟩
  | ended hc =>
      refine ⟨hs.setClient _ fun cl' h => ?_, rfl⟩
      have hnone := hs _ _ hc
      rw [← Option.some.inj h]
      exact hnone
  | written hc => cases hs _ _ hc
  | closed hc => exact ⟨hs.setClient _ fun cl' h => (by cases h), rfl⟩
  | hungUp => exact ⟨hs, rfl⟩

theorem hiveLeaves_of_silent {lib : Libbson} {es : List LoopEvent} {s s' : Server Allocator}
    (hs : s.Silent) (hes : ∀ e ∈ es, e.isData = false)
    (h : (serverMachine lib hive).exec s es = some s') : es.flatMap (hiveLeaves lib) = [] := by
  induction es generalizing s with
  | nil => rfl
  | cons e es ih =>
      obtain ⟨s₁, hstep, hrest⟩ := Option.bind_eq_some_iff.mp h
      obtain ⟨hs₁, hleaves⟩ := silent_step hs (hes e List.mem_cons_self) hstep
      rw [List.flatMap_cons, hleaves, List.nil_append]
      exact ih hs₁ (fun e he => hes e (List.mem_cons_of_mem _ he)) hrest

/-- A message that was read stays. -/
theorem message_mem_hiveLeaves {lib : Libbson} {s s' : Server Allocator} {e : LoopEvent}
    (he : e.isData = true) (hstep : (serverMachine lib hive).step s e = some s') :
    .message ∈ hiveLeaves lib e := by
  obtain ⟨-, hcourse⟩ := serverStep_of_step hstep
  generalize (callback lib hive s e).actions = actions at hcourse
  cases hcourse with
  | data hc hread hdispatch =>
      simp only [hiveLeaves, hread]
      exact List.mem_append_left _ (List.mem_append_left _ List.mem_cons_self)
  | _ => cases he

theorem HeapInFlight.not_data {lib : Libbson} {es : List LoopEvent} {s s' : Server Allocator}
    (hheap : HeapInFlight lib s es s') (hs : (serverMachine lib hive).init s)
    (h : (serverMachine lib hive).exec s es = some s') : ∀ e ∈ es, e.isData = false := by
  intro e he
  by_contra hdata
  obtain ⟨l, hl, hcount⟩ := hive_ledger hs h
  obtain ⟨l', hl', hcount'⟩ := hheap
  obtain rfl : l = l' := Option.some.inj (hl.symm.trans hl')
  obtain ⟨s₁, s₂, hstep⟩ := Machine.step_of_mem h he
  have hmem := message_mem_hiveLeaves (Bool.eq_true_of_not_eq_false hdata) hstep
  have hpos := List.count_pos_iff.mpr (List.mem_flatMap.mpr ⟨e, he, hmem⟩)
  have h₁ := hcount .message
  have h₂ := hcount' .message
  omega

/-- **When the heap holds only work in flight**: after any run from no clients,
exactly as long as the hive has read nothing. -/
theorem heapInFlight_iff {lib : Libbson} {es : List LoopEvent} {s s' : Server Allocator}
    (hs : (serverMachine lib hive).init s) (h : (serverMachine lib hive).exec s es = some s') :
    HeapInFlight lib s es s' ↔ ∀ e ∈ es, e.isData = false := by
  refine ⟨fun hheap => hheap.not_data hs h, fun hes => ?_⟩
  obtain ⟨l, hl, hcount⟩ := hive_ledger hs h
  have hsilent : s.Silent := fun c cl hc => by
    rw [hs c] at hc
    cases hc
  refine ⟨l, hl, fun o => ?_⟩
  rw [hcount, hiveLeaves_of_silent hsilent hes h]
  rfl

def emptyHive : Server Allocator := ⟨fun _ => none, 0, fun _ => false, fun _ => ⟨blank, true⟩⟩

theorem connections_leave_no_heap : ∃ s', (serverMachine .lenient hive).exec emptyHive
    [.connection 0 true, .read 0 .again, .connection (-1) false, .read 0 (.ended true true),
      .closed 1] = some s'
    ∧ HeapInFlight .lenient emptyHive [.connection 0 true, .read 0 .again,
      .connection (-1) false, .read 0 (.ended true true), .closed 1] s' :=
  ⟨_, rfl, (heapInFlight_iff (fun _ => rfl) rfl).mpr (by simp [LoopEvent.isData])⟩

theorem ping_leaves_message :
    ¬∀ (lib : Libbson) (es : List LoopEvent) (s s' : Server Allocator),
      (serverMachine lib hive).init s → (serverMachine lib hive).exec s es = some s' →
      HeapInFlight lib s es s' := by
  intro hall
  have hruns : ((serverMachine .lenient hive).exec emptyHive
      [.connection 0 true, .read 0 (.data smallPing.bytes blank)]).isSome = true := by
    decide +kernel
  obtain ⟨s', hs'⟩ := Option.isSome_iff_exists.mp hruns
  have hheap := hall .lenient _ emptyHive s' (fun _ => rfl) hs'
  have hnone := hheap.not_data (fun _ => rfl) hs' (.read 0 (.data smallPing.bytes blank)) (by simp)
  cases hnone

end Vespa
