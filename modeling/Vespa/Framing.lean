import Vespa.Dispatch

/-!
# Does the server frame its stream?

A client writes documents one after another; the transport hands the byte
stream to the server in pieces of its own choosing. `Framed` asks that the
handlers get exactly the documents written, whatever the pieces are.

The server takes each piece for a document. A piece that starts a document
and is not the whole of it has the wrong length for its prefix, so it is
refused and the process exits (`not_headerOK_of_cut`). What is left is
the one cut that follows the documents.
-/

namespace Vespa

open Bson

variable {lib : Libbson} {ε : Type}

/-- A piece of a stream that starts with a document opens only if it is that
document. -/
theorem not_headerOK_of_cut {chunk doc rest rest' : List UInt8}
    (hstream : chunk ++ rest = doc ++ rest') (hdoc : headerOK doc = true)
    (hlen : chunk.length ≠ doc.length) : headerOK chunk = false := by
  cases hchunk : headerOK chunk with
  | false => rfl
  | true =>
      obtain ⟨h5, -, hlead, -⟩ := headerOK_iff.mp hchunk
      obtain ⟨h5', -, hlead', -⟩ := headerOK_iff.mp hdoc
      have htake : chunk.take 4 = doc.take 4 := by
        calc chunk.take 4 = (chunk ++ rest).take 4 :=
              (List.take_append_of_le_length (by omega)).symm
          _ = (doc ++ rest').take 4 := by rw [hstream]
          _ = doc.take 4 := List.take_append_of_le_length (by omega)
      rw [htake, hlead'] at hlead
      exact absurd hlead.symm hlen

theorem not_bsonValidate_of_cut {chunk rest rest' : List UInt8} (w : WireMessage lib)
    (hstream : chunk ++ rest = w.bytes ++ rest') (hlen : chunk.length ≠ w.bytes.length) :
    bsonValidate lib chunk = false := by
  cases hvalid : bsonValidate lib chunk with
  | false => rfl
  | true =>
      have hhead := not_headerOK_of_cut hstream w.headerOK_bytes hlen
      rw [(of_bsonValidate hvalid).1] at hhead
      cases hhead

/-! ## The law -/

/-- The handlers got the documents, in order, and the process lives. -/
structure Framed (docs : List (WireMessage lib)) (os : List (Outcome ε)) : Prop where
  calls : (os.flatMap Outcome.calls).map (fun call => call.message.view?)
    = docs.map fun w => some w.decoded
  alive : ∀ o ∈ os, ∃ s, o.result = .ok s

/-- Every handler called returns, and `OnPing` returns true. -/
def HandlersAccept (h : Handlers ε) (c : ClientId) :
    List (WireMessage lib × Message) → Server ε → Prop
  | [], _ => True
  | (w, prior) :: rest, s =>
    match w.payload.kind, h.run w.payload.kind c (w.read prior) s with
    | .ping, .ok (true, s') => HandlersAccept h c rest s'
    | .event, .ok (_, s') => HandlersAccept h c rest s'
    | _, _ => False

theorem framed_nil : Framed ([] : List (WireMessage lib)) ([] : List (Outcome ε)) :=
  ⟨rfl, by simp⟩

theorem framed_cons {w : WireMessage lib} {docs : List (WireMessage lib)} {o : Outcome ε}
    {os : List (Outcome ε)} {call : Call} (hcall : o.calls = [call])
    (hview : call.message.view? = some w.decoded) :
    Framed (w :: docs) (o :: os) ↔ (∃ s, o.result = .ok s) ∧ Framed docs os := by
  constructor
  · rintro ⟨hcalls, halive⟩
    refine ⟨halive o List.mem_cons_self, ?_, fun o' ho' => halive o' (List.mem_cons_of_mem _ ho')⟩
    simpa [hcall, hview] using hcalls
  · rintro ⟨ho, hcalls, halive⟩
    refine ⟨?_, List.forall_mem_cons.mpr ⟨ho, halive⟩⟩
    simpa [hcall, hview] using hcalls

theorem calls_onRead_wire (h : Handlers ε) (hping : h.OnPing.isSome) (hevent : h.OnEvent.isSome)
    (c : ClientId) (w : WireMessage lib)
    (hkind : w.payload.kind = .ping ∨ w.payload.kind = .event) (prior : Message) (s : Server ε) :
    ∃ call, (onRead lib h c (.data w.bytes prior) s).calls = [call]
      ∧ call.message.view? = some w.decoded := by
  have hset : ∃ f, h.registered w.payload.kind = some f := by
    rcases hkind with hk | hk <;> rw [hk]
    · exact Option.isSome_iff_exists.mp hping
    · exact Option.isSome_iff_exists.mp hevent
  obtain ⟨f, hf⟩ := hset
  rw [(onRead_wire h c w prior s).1, Handlers.calls_eq, hf]
  exact ⟨_, rfl, w.view?_read hkind prior⟩

/-- **The stream is framed only where it is cut into its documents.** For
documents of pings and events, any non-empty pieces of their stream and any
handlers: the handlers get exactly the documents and the process lives,
exactly when the pieces are the documents and the handlers let them pass. -/
theorem framed_iff (h : Handlers ε) (hping : h.OnPing.isSome) (hevent : h.OnEvent.isSome)
    (c : ClientId) :
    ∀ (docs : List (WireMessage lib)) (reads : List (List UInt8 × Message)) (s : Server ε),
      (∀ w ∈ docs, w.payload.kind = .ping ∨ w.payload.kind = .event) →
      (∀ r ∈ reads, r.1 ≠ []) →
      (reads.map Prod.fst).flatten = docs.flatMap WireMessage.bytes →
      (Framed docs (onReads lib h c reads s) ↔
        reads.map Prod.fst = docs.map WireMessage.bytes
          ∧ HandlersAccept h c (docs.zip (reads.map Prod.snd)) s)
  | [], [], _, _, _, _ => by simp [onReads, HandlersAccept, framed_nil]
  | [], (chunk, prior) :: reads, _, _, hpos, hstream => by
      have hne := hpos (chunk, prior) List.mem_cons_self
      simp only [List.map_cons, List.flatten_cons, List.flatMap_nil, List.append_eq_nil_iff]
        at hstream
      exact absurd hstream.1 hne
  | w :: docs, [], _, _, _, hstream => by
      simp only [List.map_nil, List.flatten_nil, List.flatMap_cons] at hstream
      exact absurd (List.append_eq_nil_iff.mp hstream.symm).1 w.bytes_ne_nil
  | w :: docs, (chunk, prior) :: reads, s, hkinds, hpos, hstream => by
      have hkind := hkinds w List.mem_cons_self
      simp only [List.map_cons, List.flatten_cons, List.flatMap_cons] at hstream
      by_cases hlen : chunk.length = w.bytes.length
      · obtain ⟨rfl, hrest⟩ := List.append_inj hstream hlen
        have ih := fun s' => framed_iff h hping hevent c docs reads s'
          (fun w' hw' => hkinds w' (List.mem_cons_of_mem _ hw'))
          (fun r hr => hpos r (List.mem_cons_of_mem _ hr)) hrest
        obtain ⟨call, hcall, hview⟩ := calls_onRead_wire h hping hevent c w hkind prior s
        have hresult := (onRead_wire h c w prior s).2
        rw [onReads, framed_cons hcall hview, hresult]
        rcases hkind with hk | hk
        · rw [hk]
          rcases hr : h.run .ping c (w.read prior) s with e | ⟨_ | _, s'⟩ <;>
            simp [endsWith, HandlersAccept, hk, hr, ih]
        · rw [hk]
          rcases hr : h.run .event c (w.read prior) s with e | ⟨_ | _, s'⟩ <;>
            simp [Except.map, HandlersAccept, hk, hr, ih]
      · have hrefused : (onRead lib h c (.data chunk prior) s).result = .error (.exit 1) :=
          (onRead_of_refused (not_bsonValidate_of_cut w hstream hlen)).2
        refine iff_of_false ?_ ?_
        · rintro ⟨-, halive⟩
          obtain ⟨s', hs'⟩ := halive _ List.mem_cons_self
          rw [hrefused] at hs'
          cases hs'
        · rintro ⟨hchunks, -⟩
          exact hlen (congrArg List.length (List.cons.inj hchunks).1)

def acceptAll : Handlers Unit :=
  ⟨some fun _ _ s => ([], .ok (true, s)), some fun _ _ s => ([], .ok (true, s))⟩

theorem framed_whole_ping :
    Framed [smallPing]
      (onReads .lenient acceptAll 0 [(smallPing.bytes, blank)]
        ⟨fun _ => none, 1, fun _ => false, ()⟩) :=
  (framed_iff acceptAll rfl rfl 0 [smallPing] [(smallPing.bytes, blank)] _
    (by decide) (by decide) (by decide)).mpr ⟨rfl, trivial⟩

theorem split_ping_not_framed :
    ¬∀ (lib : Libbson) (docs : List (WireMessage lib)) (reads : List (List UInt8 × Message)),
      (∀ w ∈ docs, w.payload.kind = .ping ∨ w.payload.kind = .event) →
      (∀ r ∈ reads, r.1 ≠ [] ∧ r.1.length ≤ 65536) →
      (reads.map Prod.fst).flatten = docs.flatMap WireMessage.bytes →
      Framed docs (onReads lib acceptAll 0 reads ⟨fun _ => none, 1, fun _ => false, ()⟩) := by
  intro hall
  obtain ⟨-, halive⟩ := hall .lenient [smallPing]
    [(smallPing.bytes.take 4, blank), (smallPing.bytes.drop 4, blank)]
    (by decide) (by decide) (by decide)
  obtain ⟨s, hs⟩ := halive _ List.mem_cons_self
  rw [(onRead_of_refused (by decide)).2] at hs
  cases hs

end Vespa
