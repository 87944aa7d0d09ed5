import Vespa.EventProvenance

/-!
# Unknown fields

Is a message document with additional fields read as the document without
them? `Extends D D'` says that `D'` is `D` with elements inserted, anywhere
and of any type, under keys the readers do not look for: at the top level,
and inside every `data` document. Two reads, one of each, go in step. The
loop of one takes extra turns, and an extra turn changes nothing; on the
fields they share, both make the same assignments or stop in the same way.
-/

namespace Vespa

open Bson

/-! ## Insertions into a list -/

section Insertion

variable {α β : Type} {Same : α → α → Prop} {Ignored : α → Prop}

/-- The second list is the first with ignored elements inserted and every other
element kept up to `Same`. -/
inductive Inserted (Same : α → α → Prop) (Ignored : α → Prop) : List α → List α → Prop
  | nil : Inserted Same Ignored [] []
  | keep {x y : α} {xs ys : List α} :
      Same x y → Inserted Same Ignored xs ys → Inserted Same Ignored (x :: xs) (y :: ys)
  | insert {y : α} {xs ys : List α} :
      Ignored y → Inserted Same Ignored xs ys → Inserted Same Ignored xs (y :: ys)

theorem Inserted.filterMap_eq {f : α → Option β} (hsame : ∀ x y, Same x y → f x = f y)
    (hignored : ∀ y, Ignored y → f y = none) {xs ys : List α}
    (h : Inserted Same Ignored xs ys) : xs.filterMap f = ys.filterMap f := by
  induction h with
  | nil => rfl
  | keep hxy _ ih => rw [List.filterMap_cons, List.filterMap_cons, hsame _ _ hxy, ih]
  | insert hy _ ih => rw [List.filterMap_cons_none (hignored _ hy), ih]

end Insertion

/-! ## Extended documents -/

def UnknownField (e : Element) : Prop :=
  e.key ≠ kindKey ∧ e.key ≠ timestampKey ∧ e.key ≠ dataKey

instance (e : Element) : Decidable (UnknownField e) := instDecidableAnd

/-- A field of `data` that neither `ReadPing` nor `ReadEvent` looks for. -/
def UnknownInData (e : Element) : Prop := e.key ≠ digestKey ∧ e.key ≠ topicKey

instance (e : Element) : Decidable (UnknownInData e) := instDecidableAnd

/-- The same field, or a `data` document and an extension of it. -/
inductive SameField : Element → Element → Prop
  | same (e : Element) : SameField e e
  | data {raw raw' : List UInt8} :
      Inserted (· = ·) UnknownInData (fields raw) (fields raw') →
      SameField ⟨dataKey, .document raw⟩ ⟨dataKey, .document raw'⟩

/-- `D'` is `D` with unknown fields inserted. -/
def Extends (D D' : List UInt8) : Prop := Inserted SameField UnknownField (fields D) (fields D')

theorem payloadStores_inserted {es es' : List Element}
    (h : Inserted (· = ·) UnknownInData es es') (k : Kind) :
    payloadStores k es = payloadStores k es' := by
  have hsame : ∀ (f : Element → Option Store) (x y : Element), x = y → f x = f y :=
    fun f _ _ hxy => congrArg f hxy
  cases k with
  | ping => exact h.filterMap_eq (hsame _) fun e he => if_neg he.1
  | event => exact h.filterMap_eq (hsame _) fun e he => if_neg he.2
  | pong | error => rfl

/-! ## Two reads in step -/

/-- An extra turn of the loop. -/
theorem readFields_unknown {lib : Libbson} {e : Element} (he : UnknownField e)
    (es : List Element) (r : Reader) : readFields lib (e :: es) r = readFields lib es r := by
  rw [readFields, if_neg he.1, if_neg he.2.1, if_neg he.2.2]

theorem readData_inserted {lib : Libbson} {raw raw' : List UInt8}
    (hraw : headerOK raw = true) (hraw' : headerOK raw' = true)
    (h : Inserted (· = ·) UnknownInData (fields raw) (fields raw')) (r : Reader) :
    readData lib (.document raw) r = readData lib (.document raw') r := by
  cases hk : Kind.ofCode? r.msg.kind with
  | none => rw [readData_invalid hraw hk, readData_invalid hraw' hk]
  | some k =>
      have hcode := Kind.ofCode?_eq_some.mp hk
      rw [readData_document hraw hcode, readData_document hraw' hcode,
        payloadStores_inserted h k]

/-- A turn both loops take. -/
theorem readFields_same {lib : Libbson} {e e' : Element} {es es' : List Element}
    (h : SameField e e') (hdoc : ∀ raw, dataDoc? e = some raw → headerOK raw = true)
    (hdoc' : ∀ raw, dataDoc? e' = some raw → headerOK raw = true)
    (hrest : ∀ r, readFields lib es r = readFields lib es' r) (r : Reader) :
    readFields lib (e :: es) r = readFields lib (e' :: es') r := by
  cases h with
  | same e => simp only [readFields, hrest]
  | @data raw raw' hins =>
      have hraw := hdoc raw (dataDoc?_eq_some.mpr ⟨rfl, rfl⟩)
      have hraw' := hdoc' raw' (dataDoc?_eq_some.mpr ⟨rfl, rfl⟩)
      simp only [readFields_dataKey, hrest, readData_inserted hraw hraw' hins r]

/-- **In step.** The loops over a document and over an extension of it end alike:
with the same assignments, at the same early return, or by the same abort. -/
theorem readFields_inserted {lib : Libbson} {es es' : List Element}
    (h : Inserted SameField UnknownField es es')
    (hdoc : ∀ e ∈ es, ∀ raw, dataDoc? e = some raw → headerOK raw = true)
    (hdoc' : ∀ e ∈ es', ∀ raw, dataDoc? e = some raw → headerOK raw = true) (r : Reader) :
    readFields lib es r = readFields lib es' r := by
  induction h generalizing r with
  | nil => rfl
  | keep hsame _ ih =>
      refine readFields_same hsame (hdoc _ List.mem_cons_self) (hdoc' _ List.mem_cons_self) ?_ r
      exact ih (fun e he => hdoc e (List.mem_cons_of_mem _ he))
        (fun e he => hdoc' e (List.mem_cons_of_mem _ he))
  | insert hunknown _ ih =>
      rw [readFields_unknown hunknown]
      exact ih hdoc (fun e he => hdoc' e (List.mem_cons_of_mem _ he)) r

/-- **Unknown fields are ignored**, by `ReadMessage` and by `ReadMessageFromBytes`. -/
theorem unknown_fields_ignored {lib : Libbson} {D D' : List UInt8}
    (hD : bsonValidate lib D = true) (hD' : bsonValidate lib D' = true) (h : Extends D D')
    (prior : Message) :
    readMessage lib D (Reader.start prior) = readMessage lib D' (Reader.start prior)
      ∧ readMessageFromBytes lib D (Reader.start prior)
        = readMessageFromBytes lib D' (Reader.start prior) := by
  have hread : ∀ r, readFields lib (fields D) r = readFields lib (fields D') r :=
    readFields_inserted h (headerOK_dataDoc? hD) (headerOK_dataDoc? hD')
  refine ⟨hread _, ?_⟩
  rw [readMessageFromBytes_eq, readMessageFromBytes_eq, if_pos hD, if_pos hD', hread]

/-- The fields of `smallPing`, with a null in front, a boolean inside `data` and an
empty document at the end. -/
def extendedPing : List Element :=
  [⟨codeKey, .null⟩, ⟨kindKey, .int32 Kind.ping.code⟩, ⟨timestampKey, .int64 12937⟩,
    ⟨dataKey, .document (encodeDoc
      [⟨codeKey, .bool true⟩, ⟨digestKey, .binary subtypeBinary [7]⟩])⟩,
    ⟨messageKey, .document (encodeDoc [])⟩]

theorem extends_smallPing : Extends smallPing.bytes (encodeDoc extendedPing) := by
  have hfields : fields smallPing.bytes
      = [⟨kindKey, .int32 Kind.ping.code⟩, ⟨timestampKey, .int64 12937⟩,
        ⟨dataKey, .document (encodeDoc [⟨digestKey, .binary subtypeBinary [7]⟩])⟩] :=
    smallPing.fields_bytes
  have hfields' : fields (encodeDoc extendedPing) = extendedPing := by decide +kernel
  have hdata : fields (encodeDoc [⟨digestKey, .binary subtypeBinary [7]⟩])
      = [⟨digestKey, .binary subtypeBinary [7]⟩] := smallPing.fields_data
  have hdata' : fields (encodeDoc
      [⟨codeKey, .bool true⟩, ⟨digestKey, .binary subtypeBinary [7]⟩])
      = [⟨codeKey, .bool true⟩, ⟨digestKey, .binary subtypeBinary [7]⟩] := by decide +kernel
  rw [Extends, hfields, hfields', extendedPing]
  refine .insert (by decide) (.keep (.same _) (.keep (.same _) (.keep (.data ?_)
    (.insert (by decide) .nil))))
  rw [hdata, hdata']
  exact .insert (by decide) (.keep rfl .nil)

theorem unknown_fields_ignored_small_ping :
    readMessage .lenient smallPing.bytes (Reader.start blank)
        = readMessage .lenient (encodeDoc extendedPing) (Reader.start blank)
      ∧ readMessageFromBytes .lenient smallPing.bytes (Reader.start blank)
        = readMessageFromBytes .lenient (encodeDoc extendedPing) (Reader.start blank) :=
  unknown_fields_ignored smallPing.bsonValidate_bytes (by decide +kernel) extends_smallPing blank

end Vespa
