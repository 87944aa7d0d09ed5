import Mathlib.Data.List.Basic
import Mathlib.Tactic.SplitIfs

/-!
# JSON documents as event streams

A streaming reader does not build a document: it calls a handler for what it meets,
in order, and stops where the handler says so. `Json.events` is what it meets in a
document; `feed` hands a handler events until it returns false.

A `SaxReader` is what is relied on of such a reader: on the text of a document it
reports the document's events, and a parse succeeds exactly on the text of a
document whose events the handler takes.
-/

namespace Vespa

/-! ## Documents -/

/-- The type a reader reports a number at. -/
inductive JsonNumber where
  | int (i : BitVec 32)
  | uint (u : BitVec 32)
  | int64 (i : BitVec 64)
  | uint64 (u : BitVec 64)
  | double (bits : BitVec 64)
deriving DecidableEq, Repr

/-- Strings and keys are their bytes, escapes resolved. -/
inductive Json where
  | null
  | bool (b : Bool)
  | number (n : JsonNumber)
  | string (s : List UInt8)
  | array (items : List Json)
  | object (members : List (List UInt8 × Json))

namespace Json

/-- The first member of a name. -/
def member? (key : List UInt8) : Json → Option Json
  | .object members => members.lookup key
  | _ => none

def string? : Json → Option (List UInt8)
  | .string s => some s
  | _ => none

end Json

/-! ## Events -/

inductive SaxEvent where
  | null
  | bool (b : Bool)
  | rawNumber (str : List UInt8)
  | number (n : JsonNumber)
  | string (s : List UInt8)
  | startObject
  | key (s : List UInt8)
  | endObject (memberCount : Nat)
  | startArray
  | endArray (elementCount : Nat)
deriving DecidableEq, Repr

def SaxEvent.key? : SaxEvent → Option (List UInt8)
  | .key s => some s
  | _ => none

namespace Json

mutual

def events : Json → List SaxEvent
  | .null => [.null]
  | .bool b => [.bool b]
  | .number n => [.number n]
  | .string s => [.string s]
  | .array items => .startArray :: itemEvents items ++ [.endArray items.length]
  | .object members => .startObject :: memberEvents members ++ [.endObject members.length]

def itemEvents : List Json → List SaxEvent
  | [] => []
  | item :: items => item.events ++ itemEvents items

def memberEvents : List (List UInt8 × Json) → List SaxEvent
  | [] => []
  | (key, value) :: members => .key key :: value.events ++ memberEvents members

end

mutual

/-- The keys of a document at every depth, each before those of its value. -/
def keys : Json → List (List UInt8)
  | .null | .bool _ | .number _ | .string _ => []
  | .array items => itemKeys items
  | .object members => memberKeys members

def itemKeys : List Json → List (List UInt8)
  | [] => []
  | item :: items => item.keys ++ itemKeys items

def memberKeys : List (List UInt8 × Json) → List (List UInt8)
  | [] => []
  | (key, value) :: members => key :: value.keys ++ memberKeys members

end

mutual

theorem filterMap_key?_events : ∀ doc : Json, doc.events.filterMap SaxEvent.key? = doc.keys
  | .null | .bool _ | .number _ | .string _ => by
      rw [events, keys]
      rfl
  | .array items => by
      rw [events, keys, List.filterMap_append, List.filterMap_cons_none rfl,
        filterMap_key?_itemEvents items]
      exact List.append_nil _
  | .object members => by
      rw [events, keys, List.filterMap_append, List.filterMap_cons_none rfl,
        filterMap_key?_memberEvents members]
      exact List.append_nil _

theorem filterMap_key?_itemEvents :
    ∀ items : List Json, (itemEvents items).filterMap SaxEvent.key? = itemKeys items
  | [] => by
      rw [itemEvents, itemKeys]
      rfl
  | item :: items => by
      rw [itemEvents, itemKeys, List.filterMap_append, filterMap_key?_events item,
        filterMap_key?_itemEvents items]

theorem filterMap_key?_memberEvents : ∀ members : List (List UInt8 × Json),
    (memberEvents members).filterMap SaxEvent.key? = memberKeys members
  | [] => by
      rw [memberEvents, memberKeys]
      rfl
  | (key, value) :: members => by
      have hkey : SaxEvent.key? (.key key) = some key := rfl
      rw [memberEvents, memberKeys, List.filterMap_append, List.filterMap_cons_some hkey,
        filterMap_key?_events value, filterMap_key?_memberEvents members]

end

end Json

/-! ## Handlers -/

universe u

variable {σ : Type u}

/-- The calls of a handler, up to the first that returns false. -/
def feed (handler : σ → SaxEvent → Bool × σ) : σ → List SaxEvent → Bool × σ
  | s, [] => (true, s)
  | s, e :: es =>
    match handler s e with
    | (true, s) => feed handler s es
    | (false, s) => (false, s)

/-- **A handler that takes every event** takes any number of them; `next` is what an
event makes of its state. -/
theorem feed_of_accepts {handler : σ → SaxEvent → Bool × σ} {next : σ → SaxEvent → σ}
    (haccepts : ∀ s e, handler s e = (true, next s e)) (s : σ) (es : List SaxEvent) :
    feed handler s es = (true, es.foldl next s) := by
  induction es generalizing s with
  | nil => rfl
  | cons e es ih =>
      rw [feed, haccepts]
      exact ih (next s e)

/-- A streaming reader: the document of a well-formed text, and the events reported on
a text up to its end or its first error. -/
structure SaxReader where
  document? : List UInt8 → Option Json
  reported : List UInt8 → List SaxEvent
  reported_document : ∀ text doc, document? text = some doc → reported text = doc.events

def SaxReader.parse (R : SaxReader) (handler : σ → SaxEvent → Bool × σ) (text : List UInt8)
    (s : σ) : Bool × σ :=
  let (accepted, s) := feed handler s (R.reported text)
  (accepted && (R.document? text).isSome, s)

theorem SaxReader.reported_only {text : List UInt8} {doc : Json} (t : List UInt8) (d : Json)
    (h : (if t = text then some doc else none) = some d) :
    (if t = text then doc.events else []) = d.events := by
  split_ifs at h ⊢
  rw [Option.some.inj h]

/-- A reader of a single text. -/
def SaxReader.only (text : List UInt8) (doc : Json) : SaxReader where
  document? t := if t = text then some doc else none
  reported t := if t = text then doc.events else []
  reported_document := SaxReader.reported_only

theorem SaxReader.document?_only (text : List UInt8) (doc : Json) :
    (SaxReader.only text doc).document? text = some doc := by
  rw [only]
  exact if_pos rfl

end Vespa
