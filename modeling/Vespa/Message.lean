import Vespa.Libbson

/-!
# The IPC message

`Message` of `ipc.h` as the C program sees it: a kind and a timestamp in
front of a union of four payload structs. The union is kept as the three
machine words it occupies, and the payload structs are overlays of those
words, so that writing one member and reading another does here what it
does in C. Memory that was never written is an arbitrary word.

`Decoded` is what a message means: a timestamp and a payload of one of
the four kinds, with the bytes themselves in place of pointers and lengths.
`Message.view?` relates the two.
-/

namespace Vespa

open Bson

/-! ## Kinds -/

inductive Kind where
  | event | error | ping | pong
deriving DecidableEq, Repr

def Kind.code : Kind → BitVec 32
  | .event => 1
  | .error => 2
  | .ping => 3
  | .pong => 4

def kInvalidMessage : BitVec 32 := 0

/-- The kind a `switch` over `MessageKind` takes; `none` is its default. -/
def Kind.ofCode? (c : BitVec 32) : Option Kind :=
  if c = Kind.event.code then some .event
  else if c = Kind.error.code then some .error
  else if c = Kind.ping.code then some .ping
  else if c = Kind.pong.code then some .pong
  else none

theorem Kind.ofCode?_eq_some {c : BitVec 32} {k : Kind} :
    Kind.ofCode? c = some k ↔ c = k.code := by
  constructor
  · intro h
    unfold Kind.ofCode? at h
    split_ifs at h <;> (obtain rfl := Option.some.inj h; assumption)
  · rintro rfl
    cases k <;> rfl

@[simp] theorem Kind.ofCode?_code (k : Kind) : Kind.ofCode? k.code = some k :=
  Kind.ofCode?_eq_some.mpr rfl

/-! ## Memory words -/

/-- A machine word of the union: an integer, or garbage that is no valid pointer; or
a pointer to a buffer, with the bytes from there to the buffer's end. -/
inductive Word where
  | int (v : BitVec 64)
  | ptr (buf : List UInt8)
deriving DecidableEq, Repr

/-- Read `n` bytes through a pointer. Nothing is accessed when `n` is 0. -/
def Word.read (w : Word) (n : Nat) : Except Halt (List UInt8) :=
  match w with
  | .ptr buf => if n ≤ buf.length then .ok (buf.take n) else .error .undefined
  | .int _ => if n = 0 then .ok [] else .error .undefined

/-- Read an integer member. The bits of a pointer are no integer the program stored. -/
def Word.toInt : Word → Except Halt (BitVec 64)
  | .int v => .ok v
  | .ptr _ => .error .undefined

def Word.cstr : Word → Except Halt (List UInt8)
  | .ptr buf =>
    match Codec.takeCString buf with
    | some (s, _) => .ok s
    | none => .error .undefined
  | .int _ => .error .undefined

def Word.bytes? : Word → Word → Option (List UInt8)
  | .ptr buf, .int n => if n.toNat ≤ buf.length then some (buf.take n.toNat) else none
  | _, _ => none

/-! ## The message and its payload overlays -/

structure Event where
  topic : Word
  topicLen : Word

structure Error where
  code : Word
  message : Word
  messageLen : Word

structure Ping where
  digest : Word
  digestLen : Word

structure Pong where
  digest : Word
  digestLen : Word

/-- `Message`: the envelope and the words of the payload union. -/
structure Message where
  kind : BitVec 32
  timestamp : BitVec 64
  word0 : Word
  word1 : Word
  word2 : Word
deriving DecidableEq, Repr

def blank : Message := ⟨kInvalidMessage, 0, .int 0, .int 0, .int 0⟩

namespace Message

def event (m : Message) : Event := ⟨m.word0, m.word1⟩

def error (m : Message) : Error := ⟨m.word0, m.word1, m.word2⟩

def ping (m : Message) : Ping := ⟨m.word0, m.word1⟩

def pong (m : Message) : Pong := ⟨m.word0, m.word1⟩

def setEvent (m : Message) (p : Event) : Message :=
  { m with word0 := p.topic, word1 := p.topicLen }

def setPing (m : Message) (p : Ping) : Message :=
  { m with word0 := p.digest, word1 := p.digestLen }

end Message

def initEventMessage (m : Message) (topic topicLen : Word) : Message :=
  { m with kind := Kind.event.code, timestamp := 1337 }.setEvent ⟨topic, topicLen⟩

def initPingMessage (m : Message) (digest digestLen : Word) : Message :=
  { m with kind := Kind.ping.code, timestamp := 12937 }.setPing ⟨digest, digestLen⟩

/-- `InitPongMessage`, which fills the `ping` member of the union. -/
def initPongMessage (m : Message) (digest digestLen : Word) : Message :=
  { m with kind := Kind.pong.code, timestamp := 12937 }.setPing ⟨digest, digestLen⟩

/-! ## What a message means -/

inductive Payload where
  | event (topic : List UInt8)
  | error (code : BitVec 64) (message : List UInt8)
  | ping (digest : List UInt8)
  | pong (digest : List UInt8)
deriving DecidableEq, Repr

def Payload.kind : Payload → Kind
  | .event _ => .event
  | .error _ _ => .error
  | .ping _ => .ping
  | .pong _ => .pong

structure Decoded where
  timestamp : BitVec 64
  payload : Payload
deriving DecidableEq, Repr

def Message.payload? (m : Message) : Option Payload :=
  match Kind.ofCode? m.kind with
  | some .event => (Word.bytes? m.event.topic m.event.topicLen).map .event
  | some .error =>
    match m.error.code with
    | .int code => (Word.bytes? m.error.message m.error.messageLen).map (.error code)
    | .ptr _ => none
  | some .ping => (Word.bytes? m.ping.digest m.ping.digestLen).map .ping
  | some .pong => (Word.bytes? m.pong.digest m.pong.digestLen).map .pong
  | none => none

/-- The message a `Message` object holds, when its kind is one of the four and
its pointers and lengths describe bytes. -/
def Message.view? (m : Message) : Option Decoded :=
  m.payload?.map fun p => ⟨m.timestamp, p⟩

theorem Word.bytes?_eq_some {w l : Word} {bs : List UInt8} :
    Word.bytes? w l = some bs ↔
      ∃ buf n, w = .ptr buf ∧ l = .int n ∧ n.toNat ≤ buf.length ∧ bs = buf.take n.toNat := by
  constructor
  · intro h
    unfold Word.bytes? at h
    split at h
    · split at h
      · exact ⟨_, _, rfl, rfl, ‹_›, (Option.some.inj h).symm⟩
      · cases h
    · cases h
  · rintro ⟨buf, n, rfl, rfl, hn, rfl⟩
    simp [Word.bytes?, hn]

theorem Word.bytes?_stored {bs : List UInt8} (h : bs.length < 2 ^ 64) :
    Word.bytes? (.ptr bs) (.int (BitVec.ofNat 64 bs.length)) = some bs := by
  have hlen : (BitVec.ofNat 64 bs.length).toNat = bs.length := by
    rw [BitVec.toNat_ofNat, Nat.mod_eq_of_lt h]
  exact Word.bytes?_eq_some.mpr ⟨bs, _, rfl, rfl, by rw [hlen], by rw [hlen, List.take_length]⟩

theorem Message.kind_of_view? {m : Message} {d : Decoded} (h : m.view? = some d) :
    m.kind = d.payload.kind.code ∧ m.timestamp = d.timestamp := by
  obtain ⟨p, hp, rfl⟩ := Option.map_eq_some_iff.mp h
  refine ⟨?_, rfl⟩
  unfold Message.payload? at hp
  split at hp
  case h_5 => cases hp
  case h_2 hk =>
    split at hp
    · obtain ⟨_, -, rfl⟩ := Option.map_eq_some_iff.mp hp
      exact Kind.ofCode?_eq_some.mp hk
    · cases hp
  all_goals
    rename_i hk
    obtain ⟨_, -, rfl⟩ := Option.map_eq_some_iff.mp hp
    exact Kind.ofCode?_eq_some.mp hk

end Vespa
