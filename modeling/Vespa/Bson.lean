import Vespa.Codec

/-!
# BSON documents

The BSON format as a codec: the value types with their tags, elements
(type byte, NUL-terminated key, value) and documents (total length,
packed elements, trailing NUL).

Embedded documents stay *raw*: a `document` value is the byte string of
the embedded document, and reading it is a second call. That is how the
libraries hand them out (a pointer and a length, or a raw slice), it keeps
`Value` a flat type, and validity of the nested bytes is a recursion over
the depth (`valid`) instead of a nested inductive.

The layout law comes from `Codec`: `fields_encodeDoc` is the round trip,
`encodeDoc_fields` says a document whose elements all parse is the
encoding of its elements.
-/

namespace Vespa.Bson

/-! ## Types and values -/

inductive BsonType where
  | double | utf8 | document | array | binary | undefined | oid | bool
  | dateTime | null | regex | dbPointer | code | symbol | codeWScope
  | int32 | timestamp | int64 | decimal128 | maxKey | minKey
deriving DecidableEq, Repr

namespace BsonType

def tag : BsonType → UInt8
  | double => 0x01
  | utf8 => 0x02
  | document => 0x03
  | array => 0x04
  | binary => 0x05
  | undefined => 0x06
  | oid => 0x07
  | bool => 0x08
  | dateTime => 0x09
  | null => 0x0A
  | regex => 0x0B
  | dbPointer => 0x0C
  | code => 0x0D
  | symbol => 0x0E
  | codeWScope => 0x0F
  | int32 => 0x10
  | timestamp => 0x11
  | int64 => 0x12
  | decimal128 => 0x13
  | maxKey => 0x7F
  | minKey => 0xFF

def all : List BsonType :=
  [double, utf8, document, array, binary, undefined, oid, bool, dateTime,
    null, regex, dbPointer, code, symbol, codeWScope, int32, timestamp,
    int64, decimal128, maxKey, minKey]

def ofTag? (b : UInt8) : Option BsonType :=
  all.find? fun t => t.tag == b

theorem ofTag?_eq_some {b : UInt8} {t : BsonType} :
    ofTag? b = some t ↔ b = t.tag := by
  constructor
  · intro h
    have htag := List.find?_some h
    exact (eq_of_beq htag).symm
  · rintro rfl
    cases t <;> rfl

end BsonType

def subtypeBinary : UInt8 := 0x00

/-- The deprecated subtype whose data repeats its own length. -/
def subtypeBinaryDeprecated : UInt8 := 0x02

/-- An element's value. Strings and embedded documents are byte strings. -/
inductive Value where
  | double (bits : BitVec 64)
  | utf8 (s : List UInt8)
  | document (raw : List UInt8)
  | array (raw : List UInt8)
  | binary (subtype : UInt8) (data : List UInt8)
  | undefined
  | oid (bits : BitVec 96)
  | bool (b : Bool)
  | dateTime (ms : BitVec 64)
  | null
  | regex (pattern options : List UInt8)
  | dbPointer (collection : List UInt8) (oid : BitVec 96)
  | code (s : List UInt8)
  | symbol (s : List UInt8)
  | codeWScope (s scope : List UInt8)
  | int32 (v : BitVec 32)
  | timestamp (bits : BitVec 64)
  | int64 (v : BitVec 64)
  | decimal128 (bits : BitVec 128)
  | maxKey
  | minKey
deriving DecidableEq, Repr

namespace Value

def type : Value → BsonType
  | double _ => .double
  | utf8 _ => .utf8
  | document _ => .document
  | array _ => .array
  | binary _ _ => .binary
  | undefined => .undefined
  | oid _ => .oid
  | bool _ => .bool
  | dateTime _ => .dateTime
  | null => .null
  | regex _ _ => .regex
  | dbPointer _ _ => .dbPointer
  | code _ => .code
  | symbol _ => .symbol
  | codeWScope _ _ => .codeWScope
  | int32 _ => .int32
  | timestamp _ => .timestamp
  | int64 _ => .int64
  | decimal128 _ => .decimal128
  | maxKey => .maxKey
  | minKey => .minKey

def texts : Value → List (List UInt8)
  | utf8 s | code s | symbol s | codeWScope s _ => [s]
  | regex pattern options => [pattern, options]
  | dbPointer collection _ => [collection]
  | _ => []

def documents : Value → List (List UInt8)
  | document raw | array raw | codeWScope _ raw => [raw]
  | _ => []

end Value

structure Element where
  key : List UInt8
  value : Value
deriving DecidableEq, Repr

/-! ## Scalar layouts -/

namespace Layout

open Codec

def byte : Codec UInt8 where
  encode b := [b]
  decode
    | [] => none
    | b :: bs => some (b, bs)
  Valid _ := True
  decode_eq_some {bs b rest} := by cases bs <;> simp [eq_comm]

theorem two_pow_eight_mul (n : Nat) : 2 ^ (8 * n) = 256 ^ n := by
  rw [Nat.pow_mul]

/-- A machine word, as its `n` little-endian bytes. -/
def word (n : Nat) : Codec (BitVec (8 * n)) where
  encode w := leBytes n w.toNat
  decode bs := ((Codec.nat n).decode bs).map fun (v, rest) => (BitVec.ofNat (8 * n) v, rest)
  Valid _ := True
  decode_eq_some {bs w rest} := by
    constructor
    · intro h
      obtain ⟨⟨v, rest'⟩, hc, heq⟩ := Option.map_eq_some_iff.mp h
      obtain ⟨hv, rfl⟩ := (Codec.nat n).of_decode hc
      obtain ⟨rfl, rfl⟩ : BitVec.ofNat (8 * n) v = w ∧ rest' = rest := by simpa using heq
      have hmod : v % 2 ^ (8 * n) = v := by
        rw [two_pow_eight_mul, Nat.mod_eq_of_lt hv]
      exact ⟨trivial, by rw [BitVec.toNat_ofNat, hmod]; rfl⟩
    · rintro ⟨-, rfl⟩
      have hw : w.toNat < 256 ^ n := two_pow_eight_mul n ▸ w.isLt
      have hdec := (Codec.nat n).decode_encode hw rest
      rw [show leBytes n w.toNat ++ rest = (Codec.nat n).encode w.toNat ++ rest from rfl, hdec]
      simp

def bool : Codec Bool where
  encode b := [if b then 1 else 0]
  decode
    | 0 :: bs => some (false, bs)
    | 1 :: bs => some (true, bs)
    | _ => none
  Valid _ := True
  decode_eq_some {bs b rest} := by
    constructor
    · intro h
      split at h <;> simp_all
    · rintro ⟨-, rfl⟩
      cases b <;> rfl

/-- `n` bytes the last of which is NUL; the NUL is not part of the value. -/
def nulTerminated : Nat → Codec (List UInt8)
  | 0 => Codec.fail
  | n + 1 => (Codec.bytes n).followedBy 0

theorem nulTerminated_length : ∀ {n : Nat} {s : List UInt8},
    (nulTerminated n).Valid s → s.length + 1 = n
  | 0, _, h => h.elim
  | _ + 1, _, h => congrArg (· + 1) h

def string : Codec (List UInt8) :=
  (Codec.nat 4).dep (fun s => s.length + 1) nulTerminated nulTerminated_length

def counted : Codec (List UInt8) :=
  (Codec.nat 4).dep List.length Codec.bytes id

def binaryData (h : Nat × UInt8) : Codec (UInt8 × List UInt8) :=
  (if h.2 = subtypeBinaryDeprecated then counted.filter (fun d => d.length + 4 == h.1)
    else Codec.bytes h.1).inj (Prod.mk h.2) (fun p => if p.1 = h.2 then some p.2 else none)
    (by rintro d ⟨sub, d'⟩; simp [Prod.ext_iff, eq_comm])

def binaryHeader (p : UInt8 × List UInt8) : Nat × UInt8 :=
  (if p.1 = subtypeBinaryDeprecated then p.2.length + 4 else p.2.length, p.1)

theorem binaryHeader_of_valid {h : Nat × UInt8} {p : UInt8 × List UInt8}
    (hp : (binaryData h).Valid p) : binaryHeader p = h := by
  obtain ⟨n, sub⟩ := h
  obtain ⟨d, rfl, hd⟩ := hp
  by_cases hsub : sub = subtypeBinaryDeprecated
  · simp only [hsub, if_true] at hd
    simp [binaryHeader, hsub, eq_of_beq hd.2]
  · simp only [hsub, if_false] at hd
    simp [binaryHeader, hsub, show d.length = n from hd]

def binary : Codec (UInt8 × List UInt8) :=
  ((Codec.nat 4).seq byte).dep binaryHeader binaryData binaryHeader_of_valid

/-- An embedded document, kept raw: as many bytes as its first four say. -/
def rawDocument : Codec (List UInt8) where
  encode raw := raw
  decode bs :=
    let n := leNat (bs.take 4)
    if 5 ≤ n ∧ n ≤ bs.length then some (bs.take n, bs.drop n) else none
  Valid raw := 5 ≤ raw.length ∧ leNat (raw.take 4) = raw.length
  decode_eq_some {bs raw rest} := by
    constructor
    · intro h
      dsimp only at h
      split at h
      · rename_i hn
        obtain ⟨rfl, rfl⟩ := Prod.mk.inj (Option.some.inj h)
        have hlen := List.length_take_of_le hn.2
        refine ⟨⟨by omega, ?_⟩, (List.take_append_drop _ bs).symm⟩
        rw [List.take_take, Nat.min_eq_left (by omega), hlen]
      · cases h
    · rintro ⟨⟨h5, hlen⟩, rfl⟩
      have htake : (raw ++ rest).take 4 = raw.take 4 :=
        List.take_append_of_le_length (by omega)
      simp [htake, hlen, h5]

def scopeSize (p : List UInt8 × List UInt8) : Nat :=
  4 + (string.encode p.1).length + p.2.length

def codeWScope : Codec (List UInt8 × List UInt8) :=
  (Codec.nat 4).dep scopeSize
    (fun n => (string.seq rawDocument).filter fun p => scopeSize p == n)
    (fun h => eq_of_beq h.2)

end Layout

/-! ## Elements -/

open Layout Codec in
def valueOf : BsonType → Codec Value
  | .double => (word 8).inj .double (fun | .double w => some w | _ => none)
      (by intro a b; cases b <;> simp [eq_comm])
  | .utf8 => string.inj .utf8 (fun | .utf8 s => some s | _ => none)
      (by intro a b; cases b <;> simp [eq_comm])
  | .document => rawDocument.inj .document (fun | .document r => some r | _ => none)
      (by intro a b; cases b <;> simp [eq_comm])
  | .array => rawDocument.inj .array (fun | .array r => some r | _ => none)
      (by intro a b; cases b <;> simp [eq_comm])
  | .binary => binary.inj (fun p => .binary p.1 p.2)
      (fun | .binary sub d => some (sub, d) | _ => none)
      (by intro a b; cases b <;> simp [Prod.ext_iff, eq_comm])
  | .undefined => unit.inj (fun _ => .undefined) (fun | .undefined => some () | _ => none)
      (by intro a b; cases b <;> simp)
  | .oid => (word 12).inj .oid (fun | .oid w => some w | _ => none)
      (by intro a b; cases b <;> simp [eq_comm])
  | .bool => Layout.bool.inj .bool (fun | .bool b => some b | _ => none)
      (by intro a b; cases b <;> simp [eq_comm])
  | .dateTime => (word 8).inj .dateTime (fun | .dateTime w => some w | _ => none)
      (by intro a b; cases b <;> simp [eq_comm])
  | .null => unit.inj (fun _ => .null) (fun | .null => some () | _ => none)
      (by intro a b; cases b <;> simp)
  | .regex => (cstring.seq cstring).inj (fun p => .regex p.1 p.2)
      (fun | .regex p o => some (p, o) | _ => none)
      (by intro a b; cases b <;> simp [Prod.ext_iff, eq_comm])
  | .dbPointer => (string.seq (word 12)).inj (fun p => .dbPointer p.1 p.2)
      (fun | .dbPointer s w => some (s, w) | _ => none)
      (by intro a b; cases b <;> simp [Prod.ext_iff, eq_comm])
  | .code => string.inj .code (fun | .code s => some s | _ => none)
      (by intro a b; cases b <;> simp [eq_comm])
  | .symbol => string.inj .symbol (fun | .symbol s => some s | _ => none)
      (by intro a b; cases b <;> simp [eq_comm])
  | .codeWScope => codeWScope.inj (fun p => .codeWScope p.1 p.2)
      (fun | .codeWScope s r => some (s, r) | _ => none)
      (by intro a b; cases b <;> simp [Prod.ext_iff, eq_comm])
  | .int32 => (word 4).inj .int32 (fun | .int32 w => some w | _ => none)
      (by intro a b; cases b <;> simp [eq_comm])
  | .timestamp => (word 8).inj .timestamp (fun | .timestamp w => some w | _ => none)
      (by intro a b; cases b <;> simp [eq_comm])
  | .int64 => (word 8).inj .int64 (fun | .int64 w => some w | _ => none)
      (by intro a b; cases b <;> simp [eq_comm])
  | .decimal128 => (word 16).inj .decimal128 (fun | .decimal128 w => some w | _ => none)
      (by intro a b; cases b <;> simp [eq_comm])
  | .maxKey => unit.inj (fun _ => .maxKey) (fun | .maxKey => some () | _ => none)
      (by intro a b; cases b <;> simp)
  | .minKey => unit.inj (fun _ => .minKey) (fun | .minKey => some () | _ => none)
      (by intro a b; cases b <;> simp)

theorem type_of_valid {t : BsonType} {v : Value} (h : (valueOf t).Valid v) :
    v.type = t := by
  cases t <;> (obtain ⟨a, rfl, -⟩ := h; rfl)

def typeByte : Codec BsonType where
  encode t := [t.tag]
  decode
    | [] => none
    | b :: bs => (BsonType.ofTag? b).map fun t => (t, bs)
  Valid _ := True
  decode_eq_some {bs t rest} := by
    cases bs with
    | nil => simp
    | cons b bs => simp [BsonType.ofTag?_eq_some]

def elementOf (h : BsonType × List UInt8) : Codec Element :=
  (valueOf h.1).inj (Element.mk h.2) (fun e => if e.key = h.2 then some e.value else none)
    (by rintro v ⟨key, value⟩; simp [eq_comm])

theorem header_of_valid {h : BsonType × List UInt8} {e : Element}
    (he : (elementOf h).Valid e) : (e.value.type, e.key) = h := by
  obtain ⟨v, rfl, hv⟩ := he
  rw [type_of_valid hv]

def element : Codec Element :=
  (typeByte.seq Codec.cstring).dep (fun e => (e.value.type, e.key)) elementOf header_of_valid

/-- An element the format can carry: a key without NUL and a value of bounded
length. -/
def Element.Valid (e : Element) : Prop :=
  0 ∉ e.key ∧ (valueOf e.value.type).Valid e.value

theorem element_valid {e : Element} : element.Valid e ↔ e.Valid := by
  obtain ⟨key, value⟩ := e
  simp only [element, Codec.dep, Codec.seq, typeByte, Codec.cstring, elementOf,
    Codec.inj, Element.Valid, true_and, Element.mk.injEq]
  constructor
  · rintro ⟨hkey, v, rfl, hv⟩
    exact ⟨hkey, hv⟩
  · rintro ⟨hkey, hv⟩
    exact ⟨hkey, value, rfl, hv⟩

theorem element_encode_ne_nil (e : Element) : element.encode e ≠ [] := by
  simp [element, Codec.dep, Codec.seq, typeByte]

theorem element_encode (key : List UInt8) (v : Value) :
    element.encode ⟨key, v⟩ = v.type.tag :: (key ++ 0 :: (valueOf v.type).encode v) := by
  simp [element, Codec.dep, Codec.seq, typeByte, Codec.cstring, elementOf, Codec.inj]

theorem length_element (key : List UInt8) (v : Value) :
    (element.encode ⟨key, v⟩).length = key.length + ((valueOf v.type).encode v).length + 2 := by
  simp only [element_encode, List.length_cons, List.length_append]
  omega

/-! ## Documents -/

/-- The largest document the libraries handle, in bytes. -/
def maxSize : Nat := 2 ^ 31 - 1

def packed (es : List Element) : List UInt8 := es.flatMap element.encode

/-- A document: total length, elements, trailing NUL. -/
def encodeDoc (es : List Element) : List UInt8 :=
  leBytes 4 ((packed es).length + 5) ++ packed es ++ [0]

/-- The header check: the length prefix is the length of the buffer, within
bounds, and the buffer ends in NUL. -/
def headerOK (bs : List UInt8) : Bool :=
  decide (5 ≤ bs.length) && decide (bs.length ≤ maxSize)
    && leNat (bs.take 4) == bs.length && bs.getLast? == some 0

def body (bs : List UInt8) : List UInt8 := (bs.drop 4).dropLast

/-- Iterate over the elements; the second component is where the iteration got
stuck, empty when it reached the end. -/
def iterate (bs : List UInt8) : List Element × List UInt8 :=
  element.decodeMany bs.length (body bs)

def fields (bs : List UInt8) : List Element := (iterate bs).1

/-- Full validity to a nesting depth: the header, every element, every string
under the text check `textOK`, every embedded document. -/
def valid (textOK : List UInt8 → Bool) : Nat → List UInt8 → Bool
  | 0, _ => false
  | depth + 1, bs =>
    headerOK bs && (iterate bs).2.isEmpty && (fields bs).all fun e =>
      textOK e.key && e.value.texts.all textOK
        && e.value.documents.all fun raw => valid textOK depth raw

@[simp] theorem length_encodeDoc (es : List Element) :
    (encodeDoc es).length = (packed es).length + 5 := by
  simp only [encodeDoc, List.length_append, leBytes_length, List.length_singleton]
  omega

theorem body_encodeDoc (es : List Element) : body (encodeDoc es) = packed es := by
  rw [body, encodeDoc, List.append_assoc, List.drop_left' (leBytes_length _ _)]
  simp

/-- **Round trip.** Iterating over an encoded document yields its elements. -/
theorem iterate_encodeDoc {es : List Element} (hes : ∀ e ∈ es, e.Valid) :
    iterate (encodeDoc es) = (es, []) := by
  have hlen : es.length ≤ (encodeDoc es).length := by
    have := element.length_le_length_flatMap element_encode_ne_nil es
    simp only [length_encodeDoc, packed]
    omega
  have hnil : element.decode [] = none := rfl
  have h := element.decodeMany_flatMap hnil (fun e he => element_valid.mpr (hes e he)) hlen
  rw [List.append_nil] at h
  rw [iterate, body_encodeDoc]
  exact h

theorem fields_encodeDoc {es : List Element} (hes : ∀ e ∈ es, e.Valid) :
    fields (encodeDoc es) = es := by
  rw [fields, iterate_encodeDoc hes]

theorem headerOK_iff {bs : List UInt8} : headerOK bs = true ↔
    5 ≤ bs.length ∧ bs.length ≤ maxSize ∧ leNat (bs.take 4) = bs.length
      ∧ bs.getLast? = some 0 := by
  simp only [headerOK, Bool.and_eq_true, decide_eq_true_eq, beq_iff_eq, and_assoc]

theorem headerOK_encodeDoc {es : List Element} (hsize : (encodeDoc es).length ≤ maxSize) :
    headerOK (encodeDoc es) = true := by
  have hlen := length_encodeDoc es
  have hlead : leNat ((encodeDoc es).take 4) = (encodeDoc es).length := by
    have htake : (encodeDoc es).take 4 = leBytes 4 ((packed es).length + 5) := by
      rw [encodeDoc, List.append_assoc, List.take_left' (leBytes_length _ _)]
    have hlt : (packed es).length + 5 < 256 ^ 4 := by
      simp only [maxSize] at hsize
      omega
    rw [htake, leNat_leBytes_of_lt hlt, hlen]
  exact headerOK_iff.mpr ⟨by omega, hsize, hlead, by simp [encodeDoc]⟩

theorem eq_of_headerOK {bs : List UInt8} (h : headerOK bs = true) :
    bs = leBytes 4 ((body bs).length + 5) ++ body bs ++ [0] := by
  obtain ⟨h5, -, hlead, hlast⟩ := headerOK_iff.mp h
  have htake : (bs.take 4).length = 4 := List.length_take_of_le (by omega)
  have hbody : (body bs).length + 5 = bs.length := by
    simp only [body, List.length_dropLast, List.length_drop]
    omega
  have hhead : leBytes 4 bs.length = bs.take 4 := by
    rw [← hlead]
    simpa only [htake] using leBytes_leNat (bs.take 4)
  have htail : body bs ++ [0] = bs.drop 4 := by
    have hne : bs.drop 4 ≠ [] := List.ne_nil_of_length_pos (by simp; omega)
    have hlast' : (bs.drop 4).getLast? = some 0 := by
      rw [List.getLast?_drop, if_neg (by omega), hlast]
    have hget := List.getLast?_eq_some_getLast hne
    rw [hlast'] at hget
    have h0 := Option.some.inj hget
    rw [body, h0, List.dropLast_concat_getLast hne]
  rw [hbody, hhead, List.append_assoc, htail, List.take_append_drop]

/-- **Canonicity.** A document that is iterated to its end is the encoding of
the elements found. -/
theorem encodeDoc_fields {bs : List UInt8} (hhead : headerOK bs = true)
    (hend : (iterate bs).2 = []) : encodeDoc (fields bs) = bs := by
  have hbody := (element.of_decodeMany bs.length (body bs)).2
  rw [show (element.decodeMany bs.length (body bs)).2 = [] from hend,
    List.append_nil] at hbody
  have hpacked : packed (fields bs) = body bs := hbody.symm
  rw [encodeDoc, hpacked, ← eq_of_headerOK hhead]

theorem valid_of_mem_fields {bs : List UInt8} {e : Element} (h : e ∈ fields bs) :
    e.Valid :=
  element_valid.mp ((element.of_decodeMany bs.length (body bs)).1 e h)

/-! ## The values messages are made of

Sizes and validity of the handful of types that occur in hand-written
documents, so that nothing above this file unfolds a layout. -/

theorem length_int32 (w : BitVec 32) : ((valueOf .int32).encode (.int32 w)).length = 4 :=
  leBytes_length 4 w.toNat

theorem length_int64 (w : BitVec 64) : ((valueOf .int64).encode (.int64 w)).length = 8 :=
  leBytes_length 8 w.toNat

theorem length_dateTime (w : BitVec 64) :
    ((valueOf .dateTime).encode (.dateTime w)).length = 8 :=
  leBytes_length 8 w.toNat

theorem length_document (raw : List UInt8) :
    ((valueOf .document).encode (.document raw)).length = raw.length := rfl

theorem length_utf8 (s : List UInt8) :
    ((valueOf .utf8).encode (.utf8 s)).length = s.length + 5 := by
  show (leBytes 4 (s.length + 1) ++ (s ++ [0])).length = s.length + 5
  simp only [List.length_append, leBytes_length, List.length_singleton]
  omega

theorem length_binary (d : List UInt8) :
    ((valueOf .binary).encode (.binary subtypeBinary d)).length = d.length + 5 := by
  show (leBytes 4 d.length ++ [subtypeBinary] ++ d).length = d.length + 5
  simp only [List.length_append, leBytes_length, List.length_singleton]
  omega

theorem valid_int32 (w : BitVec 32) : (valueOf .int32).Valid (.int32 w) :=
  ⟨w, rfl, trivial⟩

theorem valid_int64 (w : BitVec 64) : (valueOf .int64).Valid (.int64 w) :=
  ⟨w, rfl, trivial⟩

theorem valid_dateTime (w : BitVec 64) : (valueOf .dateTime).Valid (.dateTime w) :=
  ⟨w, rfl, trivial⟩

theorem valid_utf8 {s : List UInt8} (h : s.length < maxSize) :
    (valueOf .utf8).Valid (.utf8 s) := by
  refine ⟨s, rfl, ?_, rfl⟩
  show s.length + 1 < 256 ^ 4
  simp only [maxSize] at h
  omega

theorem valid_binary {d : List UInt8} (h : d.length < maxSize) :
    (valueOf .binary).Valid (.binary subtypeBinary d) := by
  refine ⟨(subtypeBinary, d), rfl, ⟨?_, trivial⟩, d, rfl, rfl⟩
  show d.length < 256 ^ 4
  simp only [maxSize] at h
  omega

theorem valid_document {es : List Element} (h : (encodeDoc es).length ≤ maxSize) :
    (valueOf .document).Valid (.document (encodeDoc es)) := by
  have hhead := headerOK_iff.mp (headerOK_encodeDoc h)
  exact ⟨_, rfl, hhead.1, hhead.2.2.1⟩

/-- Validity of an encoded document is validity of its strings and of the
documents embedded in it. -/
theorem valid_encodeDoc {textOK : List UInt8 → Bool} {depth : Nat} {es : List Element}
    (hes : ∀ e ∈ es, e.Valid) (hsize : (encodeDoc es).length ≤ maxSize) :
    valid textOK (depth + 1) (encodeDoc es) = es.all fun e =>
      textOK e.key && e.value.texts.all textOK
        && e.value.documents.all fun raw => valid textOK depth raw := by
  rw [valid, headerOK_encodeDoc hsize, fields, iterate_encodeDoc hes]
  simp

end Vespa.Bson
