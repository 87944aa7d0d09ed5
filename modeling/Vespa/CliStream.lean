import Vespa.Cli
import Vespa.Pieces

/-!
# Does the client frame its stream?

The server's replies are one byte stream; the client's `readMessage` takes one
document off it at each call. `goConnReadMessage` is the function on the reads
of a connection, as the transport cuts the stream, and refines `goReadMessage`,
which has the stream whole.

A `GoDocument` is what the server is expected to send. Where a stream starts with
one the call returns its message and leaves the stream behind it; any other
stream is `Refused`, with the error for what it lacks.
-/

namespace Vespa

open Bson

variable {G : GoBson}

/-! ## The function on a connection -/

/-- `readMessage`; the reads may end with the stream or with the deadline. -/
def goConnReadMessage (G : GoBson) (conn : Pieces UInt8) :
    Except GoError GoMessage × Pieces UInt8 :=
  match conn.readFull 4 with
  | (none, conn) => (.error .document, conn)
  | (some lengthBytes, conn) =>
    let length := leNat lengthBytes
    if length < 5 then (.error (.size length), conn)
    else
      match conn.readFull (length - 4) with
      | (none, conn) => (.error .short, conn)
      | (some rest, conn) =>
        match G.unmarshalMessage (lengthBytes ++ rest) with
        | none => (.error .unmarshal, conn)
        | some m => (.ok m, conn)

theorem readFull_flatten (n : Nat) (conn : Pieces UInt8) :
    readFull n conn.flatten = ((conn.readFull n).1, (conn.readFull n).2.flatten) := by
  unfold readFull
  split_ifs with hle
  · obtain ⟨hfull, hleft⟩ := Pieces.readFull_of_le hle
    rw [hfull, hleft]
  · rw [Pieces.readFull_of_lt (Nat.lt_of_not_le hle)]
    rfl

/-- **Pieces do not show**: the call does what it would with the stream whole. -/
theorem goConnReadMessage_refines (G : GoBson) :
    Refines (goConnReadMessage G) (goReadMessage G) := by
  intro conn
  simp only [goConnReadMessage, goReadMessage, readFull_flatten]
  rcases conn.readFull 4 with ⟨_ | lengthBytes, conn⟩
  · exact ⟨rfl, rfl⟩
  · dsimp only
    split_ifs
    · exact ⟨rfl, rfl⟩
    · rw [readFull_flatten]
      rcases conn.readFull (leNat lengthBytes - 4) with ⟨_ | rest, conn⟩
      · exact ⟨rfl, rfl⟩
      · dsimp only
        cases G.unmarshalMessage (lengthBytes ++ rest) with
        | none => exact ⟨rfl, rfl⟩
        | some m => exact ⟨rfl, rfl⟩

/-! ## Documents -/

/-- An encoded document, its length in front, that decodes to a message. -/
structure GoDocument (G : GoBson) where
  bytes : List UInt8
  message : GoMessage
  five_le : 5 ≤ bytes.length
  length_lt : bytes.length < 2 ^ 32
  prefixed : bytes.take 4 = leBytes 4 bytes.length
  decodes : G.unmarshalMessage bytes = some message

theorem take_four_eq_leBytes {bs : List UInt8} {n : Nat} (h4 : 4 ≤ bs.length)
    (hlead : leNat (bs.take 4) = n) : bs.take 4 = leBytes 4 n := by
  have hback := leBytes_leNat (bs.take 4)
  rw [List.length_take_of_le h4, hlead] at hback
  exact hback.symm

/-- The messages the server writes are such documents. -/
def GoDocument.ofFields (G : GoBson) (k : Kind) (t : BitVec 64) (data : List Element)
    (hfits : (encodeDoc (messageFields k (.int64 t) data)).length ≤ maxSize) : GoDocument G where
  bytes := encodeDoc (messageFields k (.int64 t) data)
  message := ⟨k.code, G.timeOfInt64 t, encodeDoc data⟩
  five_le := (headerOK_iff.mp (headerOK_encodeDoc hfits)).1
  length_lt := Nat.lt_of_le_of_lt hfits (by decide)
  prefixed :=
    have hhead := headerOK_iff.mp (headerOK_encodeDoc hfits)
    take_four_eq_leBytes (Nat.le_of_succ_le hhead.1) hhead.2.2.1
  decodes := G.unmarshalMessage_fields k t data hfits

theorem GoDocument.takes (doc : GoDocument G) :
    Takes (goReadMessage G) doc.bytes (.ok doc.message) := by
  intro rest
  have hlead : leNat (doc.bytes.take 4) = doc.bytes.length := by
    rw [doc.prefixed, leNat_leBytes_of_lt doc.length_lt]
  rw [goReadMessage_append G rest doc.five_le hlead, doc.decodes]
  rfl

/-- The length a stream announces for its first document. -/
def announced (stream : List UInt8) : Nat := leNat (stream.take 4)

/-- A stream without a document that decodes at its head, and the error for it. -/
inductive Refused (G : GoBson) (stream : List UInt8) : GoError → Prop where
  | document (hlt : stream.length < 4) : Refused G stream .document
  | size (h4 : 4 ≤ stream.length) (hlt : announced stream < 5) :
      Refused G stream (.size (announced stream))
  | short (h4 : 4 ≤ stream.length) (h5 : 5 ≤ announced stream)
      (hlt : stream.length < announced stream) : Refused G stream .short
  | unmarshal (h5 : 5 ≤ announced stream) (hle : announced stream ≤ stream.length)
      (hnone : G.unmarshalMessage (stream.take (announced stream)) = none) :
      Refused G stream .unmarshal

theorem take_announced {stream : List UInt8} (h5 : 5 ≤ announced stream)
    (hle : announced stream ≤ stream.length) :
    ((stream.take (announced stream)).take 4) = stream.take 4
      ∧ (stream.take (announced stream)).length = announced stream := by
  refine ⟨?_, List.length_take_of_le hle⟩
  rw [List.take_take, Nat.min_eq_left (by omega)]

/-- The announced bytes of a stream are a document, or nothing decodes from them. -/
theorem refused_or_document (G : GoBson) (stream : List UInt8) :
    (∃ err, Refused G stream err)
      ∨ ∃ (doc : GoDocument G) (rest : List UInt8), stream = doc.bytes ++ rest := by
  by_cases h4 : 4 ≤ stream.length
  · by_cases h5 : 5 ≤ announced stream
    · by_cases hle : announced stream ≤ stream.length
      · cases hm : G.unmarshalMessage (stream.take (announced stream)) with
        | none => exact .inl ⟨_, .unmarshal h5 hle hm⟩
        | some m =>
            obtain ⟨htake, hlen⟩ := take_announced h5 hle
            have hlt : announced stream < 256 ^ (stream.take 4).length := leNat_lt _
            rw [List.length_take_of_le h4] at hlt
            have hprefix : stream.take 4 = leBytes 4 (announced stream) :=
              take_four_eq_leBytes h4 rfl
            exact .inr ⟨⟨stream.take (announced stream), m, by omega, by omega,
              by rw [htake, hlen, hprefix], hm⟩, stream.drop (announced stream),
              (List.take_append_drop _ stream).symm⟩
      · exact .inl ⟨_, .short h4 h5 (Nat.lt_of_not_le hle)⟩
    · exact .inl ⟨_, .size h4 (Nat.lt_of_not_le h5)⟩
  · exact .inl ⟨_, .document (Nat.lt_of_not_le h4)⟩

theorem goReadMessage_of_refused {stream : List UInt8} {err : GoError}
    (h : Refused G stream err) : (goReadMessage G stream).1 = .error err := by
  cases h with
  | document hlt => simp only [goReadMessage, readFull, if_neg (Nat.not_le_of_lt hlt)]
  | size h4 hlt =>
      have hlt' : leNat (stream.take 4) < 5 := hlt
      simp only [goReadMessage, readFull, if_pos h4, if_pos hlt', announced]
  | short h4 h5 hlt =>
      have h5' : ¬leNat (stream.take 4) < 5 := Nat.not_lt_of_le h5
      have hshort : ¬leNat (stream.take 4) - 4 ≤ (stream.drop 4).length := by
        rw [List.length_drop]
        unfold announced at hlt h5
        omega
      simp only [goReadMessage, readFull, if_pos h4, if_neg h5', if_neg hshort]
  | unmarshal h5 hle hnone =>
      obtain ⟨htake, hlen⟩ := take_announced h5 hle
      have hread := goReadMessage_append G (stream.drop (announced stream))
        (h5.trans_eq hlen.symm) ((congrArg leNat htake).trans hlen.symm)
      rw [List.take_append_drop, hnone] at hread
      rw [hread]
      rfl

/-- **What a call returns**: the error of a stream that is refused, and otherwise the
message of the document at the head of the stream, nothing after it being read. -/
theorem goReadMessage_cases (G : GoBson) (stream : List UInt8) :
    (∃ err, Refused G stream err ∧ (goReadMessage G stream).1 = .error err)
      ∨ ∃ (doc : GoDocument G) (rest : List UInt8), stream = doc.bytes ++ rest
        ∧ goReadMessage G stream = (.ok doc.message, rest) := by
  rcases refused_or_document G stream with ⟨err, herr⟩ | ⟨doc, rest, rfl⟩
  · exact .inl ⟨err, herr, goReadMessage_of_refused herr⟩
  · exact .inr ⟨doc, rest, rfl, doc.takes rest⟩

theorem goReadMessage_error_iff {stream : List UInt8} {err : GoError} :
    (goReadMessage G stream).1 = .error err ↔ Refused G stream err := by
  refine ⟨fun h => ?_, goReadMessage_of_refused⟩
  rcases goReadMessage_cases G stream with ⟨err', hrefused, herr'⟩ | ⟨doc, rest, -, hread⟩
  · rw [herr'] at h
    exact Except.error.inj h ▸ hrefused
  · rw [hread] at h
    cases h

theorem goReadMessage_ok_iff {stream : List UInt8} {m : GoMessage} :
    (goReadMessage G stream).1 = .ok m ↔ ∃ doc : GoDocument G,
      doc.message = m ∧ stream = doc.bytes ++ (goReadMessage G stream).2 := by
  constructor
  · intro h
    rcases goReadMessage_cases G stream with ⟨err, -, herr⟩ | ⟨doc, rest, hstream, hread⟩
    · rw [herr] at h
      cases h
    · rw [hread] at h
      exact ⟨doc, Except.ok.inj h, by rw [hread]; exact hstream⟩
  · rintro ⟨doc, rfl, hstream⟩
    rw [hstream, doc.takes]

/-! ## The law -/

/-- **The client frames any stream.** However the reads cut it, the `k`-th call on a
stream of documents returns the `k`-th document's message and has used the
bytes of the documents up to it; and a call on any stream returns an error
exactly where the stream is refused, and a message only from the document at
its head. -/
theorem client_frames_stream (G : GoBson) :
    (∀ (docs : List (GoDocument G)) (rest : List UInt8) (conn : Pieces UInt8),
      conn.flatten = docs.flatMap GoDocument.bytes ++ rest →
      ∀ (k : Nat) (hk : k < docs.length),
        (call (goConnReadMessage G) k conn).1 = .ok docs[k].message
          ∧ (call (goConnReadMessage G) k conn).2.flatten
            = (docs.drop (k + 1)).flatMap GoDocument.bytes ++ rest)
    ∧ ∀ conn : Pieces UInt8,
      (∀ err, (goConnReadMessage G conn).1 = .error err ↔ Refused G conn.flatten err)
      ∧ ∀ m, (goConnReadMessage G conn).1 = .ok m ↔ ∃ doc : GoDocument G, doc.message = m
        ∧ conn.flatten = doc.bytes ++ (goConnReadMessage G conn).2.flatten := by
  refine ⟨fun docs rest conn hstream k hk => ?_, fun conn => ?_⟩
  · obtain ⟨hresult, hleft⟩ := (goConnReadMessage_refines G).call k conn
    rw [hresult, hleft, hstream, call_of_takes GoDocument.takes rest docs k hk]
    exact ⟨rfl, rfl⟩
  · obtain ⟨hresult, hleft⟩ := goConnReadMessage_refines G conn
    rw [hresult, hleft]
    exact ⟨fun err => goReadMessage_error_iff, fun m => goReadMessage_ok_iff⟩

/-- Two pongs that arrive byte by byte. -/
def twoPongs : List (GoDocument .plain) :=
  [.ofFields .plain .pong 12937 (payloadFields (.pong [7])) (by decide),
    .ofFields .plain .pong 12937 (payloadFields (.pong [])) (by decide)]

theorem second_pong_framed :
    (call (goConnReadMessage .plain) 1
        ((twoPongs.flatMap GoDocument.bytes).map fun b => [b])).1
      = .ok ⟨Kind.pong.code, .ofMillis 12937, encodeDoc (payloadFields (.pong []))⟩
    ∧ (call (goConnReadMessage .plain) 1
        ((twoPongs.flatMap GoDocument.bytes).map fun b => [b])).2.flatten = [] :=
  (client_frames_stream .plain).1 twoPongs [] _
    (by rw [← List.flatMap_def, List.flatMap_singleton', List.append_nil]) 1 (by decide)

end Vespa
