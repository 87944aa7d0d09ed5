import Vespa.Server

/-!
# Dispatching messages to handlers

Whole messages arrive one per callback on one connection, and the server's
`switch` calls the handler of the message's kind. `Handled` says what one
callback owes its message: exactly one call, of the registered handler, with
the decoded message, and the end of the process exactly when the handler
returned false or no handler is for the kind. `Dispatched` says it of a
sequence of callbacks, the first failure being the last callback.

The `switch` pays for pings. For events it drops what the handler returned.
-/

namespace Vespa

open Bson

variable {lib : Libbson} {ε : Type}

/-! ## Reading one whole message -/

/-- The `Message` a document of the format is read into. -/
def WireMessage.read (w : WireMessage lib) (prior : Message) : Message :=
  ((Reader.start prior).run
    (messageStores w.payload.kind w.stamp (payloadFields w.payload))).msg

theorem WireMessage.kind_read (w : WireMessage lib) (prior : Message) :
    (w.read prior).kind = w.payload.kind.code := by
  rw [read, messageStores, Reader.run_cons, Reader.run_cons,
    kind_run_payloadStores _ fun _ hs => reader?_payloadStores hs]
  rfl

theorem WireMessage.view?_read (w : WireMessage lib)
    (hkind : w.payload.kind = .ping ∨ w.payload.kind = .event) (prior : Message) :
    (w.read prior).view? = some w.decoded :=
  view?_wire w hkind _

theorem WireMessage.readMessageFromBytes_eq (w : WireMessage lib) (prior : Message) :
    ∃ r, readMessageFromBytes lib w.bytes (Reader.start prior) = .ok (true, r)
      ∧ r.msg = w.read prior :=
  ⟨_, readMessageFromBytes_wire w _, rfl⟩

def Handlers.registered (h : Handlers ε) : Kind → Option (Handler ε)
  | .ping => h.OnPing
  | .event => h.OnEvent
  | .error => none
  | .pong => none

def Handlers.run (h : Handlers ε) (k : Kind) (c : ClientId) (m : Message) (s : Server ε) :
    Except Halt (Bool × Server ε) :=
  (callHandler (h.registered k) k c m s).2

def Handlers.calls (h : Handlers ε) (k : Kind) (c : ClientId) (m : Message) (s : Server ε) :
    List Call :=
  (callHandler (h.registered k) k c m s).1.filterMap Action.call?

theorem Handlers.calls_eq (h : Handlers ε) (k : Kind) (c : ClientId) (m : Message)
    (s : Server ε) :
    h.calls k c m s = match h.registered k with
      | some _ => [⟨k, c, m, (h.run k c m s).toOption.map Prod.fst⟩]
      | none => [] := by
  unfold calls run
  cases h.registered k with
  | none => rfl
  | some f =>
      simp only [callHandler, List.filterMap_append, filterMap_call?_effects, List.nil_append]
      rfl

theorem Handlers.run_of_unset {h : Handlers ε} {k : Kind} (hk : h.registered k = none)
    (c : ClientId) (m : Message) (s : Server ε) : h.run k c m s = .ok (true, s) := by
  rw [run, hk]
  rfl

theorem Handlers.returned_false_iff {h : Handlers ε} {k : Kind} {c : ClientId} {m : Message}
    {s : Server ε} : (∃ call ∈ h.calls k c m s, call.returned = some false)
      ↔ ∃ s', h.run k c m s = .ok (false, s') := by
  rw [calls_eq]
  cases hk : h.registered k with
  | none => simp [run_of_unset hk]
  | some f =>
      rcases hr : h.run k c m s with e | ⟨_ | _, s'⟩ <;> simp [Except.toOption]

theorem Handlers.returned_true_iff {h : Handlers ε} {k : Kind} {c : ClientId} {m : Message}
    {s : Server ε} : (∀ call ∈ h.calls k c m s, call.returned = some true)
      ↔ ∃ s', h.run k c m s = .ok (true, s') := by
  rw [calls_eq]
  cases hk : h.registered k with
  | none => simp [run_of_unset hk]
  | some f =>
      rcases hr : h.run k c m s with e | ⟨_ | _, s'⟩ <;> simp [Except.toOption]

def endsWith : Except Halt (Bool × Server ε) → Except Halt (Server ε)
  | .ok (true, s) => .ok s
  | .ok (false, _) => .error (.exit 1)
  | .error e => .error e

theorem result_andFinished (p : List Action × Except Halt (Bool × Server ε)) :
    (andFinished p).result = endsWith p.2 := by
  rcases p with ⟨_, e | ⟨_ | _, s⟩⟩ <;> rfl

/-- **What one whole message does.** The calls are those of the handler of its
kind; a ping ends the callback with the handler's result, an event with
success, any other kind with failure. -/
theorem onRead_wire (h : Handlers ε) (c : ClientId) (w : WireMessage lib) (prior : Message)
    (s : Server ε) :
    (onRead lib h c (.data w.bytes prior) s).calls
        = h.calls w.payload.kind c (w.read prior) s
      ∧ (onRead lib h c (.data w.bytes prior) s).result = match w.payload.kind with
        | .ping => endsWith (h.run .ping c (w.read prior) s)
        | .event => (h.run .event c (w.read prior) s).map Prod.snd
        | .error => .error (.exit 1)
        | .pong => .error (.exit 1) := by
  obtain ⟨r, hr, hm⟩ := w.readMessageFromBytes_eq prior
  rw [calls_onRead_of_read hr, result_onRead_of_read hr, hm, dispatch, w.kind_read,
    Kind.ofCode?_code, result_andFinished]
  cases w.payload.kind with
  | ping => exact ⟨rfl, rfl⟩
  | event =>
      refine ⟨rfl, ?_⟩
      simp only [Handlers.run, Handlers.registered]
      cases (callHandler h.OnEvent .event c (w.read prior) s).2 <;> rfl
  | error | pong => exact ⟨rfl, rfl⟩

/-! ## What dispatch should do -/

/-- A callback did right by its message: the registered handler, if any, was
called once, with the decoded message, and the failure path was taken when it
returned false or the kind has no handler at all, and not otherwise. -/
structure Handled (h : Handlers ε) (c : ClientId) (w : WireMessage lib) (o : Outcome ε) :
    Prop where
  calls : match h.registered w.payload.kind with
    | some _ => ∃ m returned, m.view? = some w.decoded
        ∧ o.calls = [⟨w.payload.kind, c, m, returned⟩]
    | none => o.calls = []
  fails : (w.payload.kind ≠ .ping ∧ w.payload.kind ≠ .event)
    ∨ (∃ call ∈ o.calls, call.returned = some false) → o.result = .error (.exit 1)
  goesOn : (w.payload.kind = .ping ∨ w.payload.kind = .event)
    ∧ (∀ call ∈ o.calls, call.returned = some true) → ∃ s, o.result = .ok s

/-- The callbacks did right by the messages, up to the first that ended the
process. -/
def Dispatched (h : Handlers ε) (c : ClientId) : List (WireMessage lib) → List (Outcome ε) → Prop
  | [], [] => True
  | w :: ws, o :: os => Handled h c w o ∧
    match o.result with
    | .ok _ => Dispatched h c ws os
    | .error _ => os = []
  | _, _ => False

/-- No call of `OnEvent` returns false: each event that is reached, all messages
before it being pings and events whose handlers returned true, is handled with
success. -/
def EventsSucceed (h : Handlers ε) (c : ClientId) :
    List (WireMessage lib × Message) → Server ε → Prop
  | [], _ => True
  | (w, prior) :: rest, s =>
    match w.payload.kind, h.run w.payload.kind c (w.read prior) s with
    | .ping, .ok (true, s') => EventsSucceed h c rest s'
    | .event, .ok (true, s') => EventsSucceed h c rest s'
    | .event, .ok (false, _) => False
    | _, _ => True

theorem handled_onRead_iff (h : Handlers ε) (c : ClientId) (w : WireMessage lib)
    (prior : Message) (s : Server ε) :
    Handled h c w (onRead lib h c (.data w.bytes prior) s) ↔
      ¬(w.payload.kind = .event
        ∧ ∃ s', h.run .event c (w.read prior) s = .ok (false, s')) := by
  obtain ⟨hcalls, hresult⟩ := onRead_wire h c w prior s
  have hcalled : w.payload.kind = .ping ∨ w.payload.kind = .event →
      match h.registered w.payload.kind with
        | some _ => ∃ m returned, m.view? = some w.decoded
            ∧ (onRead lib h c (.data w.bytes prior) s).calls = [⟨w.payload.kind, c, m, returned⟩]
        | none => (onRead lib h c (.data w.bytes prior) s).calls = [] := by
    intro hkind
    rw [hcalls, Handlers.calls_eq]
    cases h.registered w.payload.kind with
    | none => rfl
    | some f => exact ⟨_, _, w.view?_read hkind prior, rfl⟩
  cases hk : w.payload.kind with
  | ping =>
      rw [hk] at hcalls hresult
      refine iff_of_true ⟨hcalled (.inl hk), ?_, ?_⟩ (by simp)
      · rintro (⟨h, -⟩ | hfalse)
        · exact absurd hk h
        · rw [hcalls, Handlers.returned_false_iff] at hfalse
          obtain ⟨s', hrun⟩ := hfalse
          rw [hresult, hrun]
          rfl
      · rintro ⟨-, htrue⟩
        rw [hcalls, Handlers.returned_true_iff] at htrue
        obtain ⟨s', hrun⟩ := htrue
        exact ⟨s', by rw [hresult, hrun]; rfl⟩
  | event =>
      rw [hk] at hcalls hresult
      constructor
      · rintro hok ⟨-, s', hrun⟩
        have hfails := hok.fails (.inr (by
          rw [hcalls, Handlers.returned_false_iff]
          exact ⟨s', hrun⟩))
        rw [hresult, hrun] at hfails
        cases hfails
      · intro hsucceeds
        refine ⟨hcalled (.inr hk), ?_, ?_⟩
        · rintro (⟨-, h⟩ | hfalse)
          · exact absurd hk h
          · rw [hcalls, Handlers.returned_false_iff] at hfalse
            exact absurd ⟨rfl, hfalse⟩ hsucceeds
        · rintro ⟨-, htrue⟩
          rw [hcalls, Handlers.returned_true_iff] at htrue
          obtain ⟨s', hrun⟩ := htrue
          exact ⟨s', by rw [hresult, hrun]; rfl⟩
  | error | pong =>
      rw [hk] at hcalls hresult
      refine iff_of_true ⟨?_, fun _ => hresult, ?_⟩ (by simp)
      · rw [hk]
        exact hcalls
      · rintro ⟨hkind | hkind, -⟩ <;> rw [hk] at hkind <;> cases hkind

/-- **Dispatch is right exactly as long as no event's handler fails.** The
callbacks made for a sequence of whole messages each call the right handler
once and stop at the first failure, exactly when no call of `OnEvent` on the
way returns false. -/
theorem dispatched_iff (h : Handlers ε) (c : ClientId) :
    ∀ (msgs : List (WireMessage lib × Message)) (s : Server ε),
      Dispatched h c (msgs.map Prod.fst)
          (onReads lib h c (msgs.map fun p => (p.1.bytes, p.2)) s)
        ↔ EventsSucceed h c msgs s
  | [], _ => Iff.rfl
  | (w, prior) :: msgs, s => by
      have ih := dispatched_iff h c msgs
      obtain ⟨-, hresult⟩ := onRead_wire h c w prior s
      simp only [List.map_cons, onReads, Dispatched, handled_onRead_iff, EventsSucceed, hresult]
      cases hk : w.payload.kind with
      | ping =>
          rcases h.run .ping c (w.read prior) s with e | ⟨_ | _, s'⟩ <;> simp [endsWith, ih]
      | event =>
          rcases h.run .event c (w.read prior) s with e | ⟨_ | _, s'⟩ <;> simp [Except.map, ih]
      | error | pong => simp

theorem refused_event_goes_on :
    ¬∀ (lib : Libbson) (h : Handlers Unit) (c : ClientId) (msgs : List (WireMessage lib × Message))
      (s : Server Unit), Dispatched h c (msgs.map Prod.fst)
        (onReads lib h c (msgs.map fun p => (p.1.bytes, p.2)) s) := by
  intro hall
  let w : WireMessage .lenient := ⟨.int64 1337, .event [], .int64 _, by decide, rfl⟩
  let h : Handlers Unit := ⟨none, some fun _ _ s => ([], .ok (false, s))⟩
  let s : Server Unit := ⟨fun _ => none, 0, fun _ => false, ()⟩
  have hhandled := (hall .lenient h 0 [(w, blank)] s).1
  exact (handled_onRead_iff h 0 w blank s).mp hhandled ⟨rfl, s, rfl⟩

end Vespa
