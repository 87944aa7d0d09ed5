import Vespa.Bson
import Vespa.Run

/-!
# libbson as the C code uses it

The handful of libbson calls of `event.c` and `common.h`, over the format
of `Bson`: opening a buffer, validating it, the typed accessors of an
iterator and appending to a document.

Three things differ between versions of the library or are left open by
its documentation, and none of them is decided here: what `bson_validate`
asks of keys and strings beyond their lengths, how deep it follows embedded
documents, and whether `bson_init_static` asserts on a NULL buffer or
returns false. They are the fields of `Libbson`; every result holds for
each choice.
-/

namespace Vespa

open Bson

/-- What libbson leaves open. -/
structure Libbson where
  /-- The check of `bson_validate(·, BSON_VALIDATE_NONE, ·)` on keys and strings. -/
  textOK : List UInt8 → Bool
  maxDepth : Nat
  /-- Whether `bson_init_static` asserts that its buffer is not NULL. -/
  nullAborts : Bool
  /-- ASCII text passes every version's check. -/
  textOK_ascii : ∀ s, (∀ b ∈ s, b < 128) → textOK s = true
  two_le_maxDepth : 2 ≤ maxDepth

/-- A library that checks lengths only and returns false on NULL. -/
def Libbson.lenient : Libbson where
  textOK _ := true
  maxDepth := 100
  nullAborts := false
  textOK_ascii _ _ := rfl
  two_le_maxDepth := by decide

theorem Libbson.exists_depth (lib : Libbson) : ∃ depth, lib.maxDepth = depth + 2 :=
  ⟨lib.maxDepth - 2, (Nat.sub_add_cancel lib.two_le_maxDepth).symm⟩

/-- `bson_init_static(&doc, data, length)`; `none` is the NULL pointer. -/
def bsonInitStatic (lib : Libbson) : Option (List UInt8) → Except Halt Bool
  | none => if lib.nullAborts then .error .abort else .ok false
  | some bs => .ok (headerOK bs)

def bsonValidate (lib : Libbson) (bs : List UInt8) : Bool :=
  valid lib.textOK lib.maxDepth bs

/-! ## Typed accessors: the zero value when the element has another type -/

def iterInt32 : Value → BitVec 32
  | .int32 v => v
  | _ => 0

def iterInt64 : Value → BitVec 64
  | .int64 v => v
  | _ => 0

/-- `bson_iter_binary`: the data and, as its length, the reported size. -/
def iterBinary : Value → List UInt8
  | .binary _ d => d
  | _ => []

def iterUtf8 : Value → List UInt8
  | .utf8 s => s
  | _ => []

/-- `bson_iter_document`; `none` is the NULL pointer with length 0. -/
def iterDocument : Value → Option (List UInt8)
  | .document raw => some raw
  | _ => none

theorem length_iterBinary_lt {e : Element} (he : e.Valid) :
    (iterBinary e.value).length < 2 ^ 64 := by
  obtain ⟨key, v⟩ := e
  cases v with
  | binary sub d =>
      obtain ⟨-, p, hp, ⟨hlen, -⟩, -⟩ := he
      obtain ⟨rfl, rfl⟩ := Value.binary.inj hp
      have hlen : (if p.1 = subtypeBinaryDeprecated then p.2.length + 4 else p.2.length)
          < 256 ^ 4 := hlen
      simp only [iterBinary]
      split_ifs at hlen <;> omega
  | _ => simp [iterBinary]

theorem length_iterUtf8_lt {e : Element} (he : e.Valid) : (iterUtf8 e.value).length < 2 ^ 64 := by
  obtain ⟨key, v⟩ := e
  cases v with
  | utf8 s =>
      obtain ⟨-, s', hs, hlen, -⟩ := he
      obtain rfl := Value.utf8.inj hs
      have hlen : s.length + 1 < 256 ^ 4 := hlen
      simp only [iterUtf8]
      omega
  | _ => simp [iterUtf8]

/-! ## Appending -/

/-- `bson_append_*`: nothing is appended when the document would grow past the
maximum; the callers ignore the result. -/
def bsonAppend (B : List Element) (key : List UInt8) (v : Value) : List Element :=
  if (encodeDoc (B ++ [⟨key, v⟩])).length ≤ maxSize then B ++ [⟨key, v⟩] else B

theorem bsonAppend_of_fits {B : List Element} {key : List UInt8} {v : Value}
    (h : (encodeDoc (B ++ [⟨key, v⟩])).length ≤ maxSize) :
    bsonAppend B key v = B ++ [⟨key, v⟩] := if_pos h

theorem bsonAppend_cases (B : List Element) (key : List UInt8) (v : Value) :
    (bsonAppend B key v = B ++ [⟨key, v⟩] ∧ (encodeDoc (B ++ [⟨key, v⟩])).length ≤ maxSize)
      ∨ bsonAppend B key v = B := by
  unfold bsonAppend
  split_ifs with h
  · exact .inl ⟨rfl, h⟩
  · exact .inr rfl

theorem length_encodeDoc_le_append (B C : List Element) :
    (encodeDoc B).length ≤ (encodeDoc (B ++ C)).length := by
  simp only [length_encodeDoc, packed, List.flatMap_append, List.length_append]
  omega

/-- **What validation accepts is well formed.** An accepted buffer has a good
header and its iterator reaches the end. -/
theorem of_bsonValidate {lib : Libbson} {bs : List UInt8}
    (h : bsonValidate lib bs = true) : headerOK bs = true ∧ (iterate bs).2 = [] := by
  obtain ⟨d, hd⟩ := lib.exists_depth
  rw [bsonValidate, hd] at h
  simp only [valid, Bool.and_eq_true, List.isEmpty_iff] at h
  exact h.1

theorem headerOK_of_mem_documents {lib : Libbson} {bs raw : List UInt8} {e : Element}
    (h : bsonValidate lib bs = true) (he : e ∈ fields bs) (hraw : raw ∈ e.value.documents) :
    headerOK raw = true := by
  obtain ⟨d, hd⟩ := lib.exists_depth
  rw [bsonValidate, hd, valid, Bool.and_eq_true, List.all_eq_true] at h
  have hdocs := (Bool.and_eq_true _ _ ▸ h.2 e he).2
  have hvalid := List.all_eq_true.mp hdocs raw hraw
  simp only [valid, Bool.and_eq_true] at hvalid
  exact hvalid.1.1

end Vespa
