import Vespa.Json
import Vespa.Message

/-!
# Does a parsed manifest reflect its document? (`manifest_json.cc`, `manifest.h`)

`ManifestParseJson` streams a text to a `ManifestJsonHandler` that points at the
caller's `Manifest`. The handler takes every event and remembers the last key;
it never writes the `Manifest`. So the call succeeds on every well-formed text,
an array or a number as well, and the `Manifest` reflects the document only
where it did so before the call.
-/

namespace Vespa

/-! ## Manifests -/

/-- `FOR_EACH_MANIFEST_TYPE` -/
inductive ManifestKind where
  | process
  | widget
deriving DecidableEq, Repr

def kInvalidManifest : BitVec 32 := 0

def ManifestKind.code : ManifestKind → BitVec 32
  | .process => 1
  | .widget => 2

def ManifestKind.str : ManifestKind → List UInt8
  | .process => ascii "Process"
  | .widget => ascii "Widget"

def manifestKindToStr (rhs : BitVec 32) : List UInt8 :=
  if rhs = ManifestKind.process.code then ManifestKind.process.str
  else if rhs = ManifestKind.widget.code then ManifestKind.widget.str
  else if rhs = kInvalidManifest then ascii "Invalid"
  else ascii "Unknown"

/-- `Manifest`; the kind is any integer where it was never set. -/
structure Manifest where
  kind : BitVec 32
  apiVersion : Word
  name : Word
deriving DecidableEq, Repr

/-! ## The handler -/

/-- `ManifestJsonHandler`, with the `Manifest` behind its pointer. -/
structure ManifestJsonHandler where
  manifest : Manifest
  current_key : List UInt8
deriving DecidableEq, Repr

namespace ManifestJsonHandler

/-- `Null`, `Bool`, `String` and the others, which print what they are given. -/
def report (h : ManifestJsonHandler) : Bool × ManifestJsonHandler := (true, h)

/-- `Key` -/
def key (h : ManifestJsonHandler) (str : List UInt8) : Bool × ManifestJsonHandler :=
  (true, { h with current_key := str })

/-- The method a reader calls for an event. -/
def handle (h : ManifestJsonHandler) : SaxEvent → Bool × ManifestJsonHandler
  | .null => h.report
  | .bool _ => h.report
  | .rawNumber _ => h.report
  | .number (.int _) => h.report
  | .number (.uint _) => h.report
  | .number (.int64 _) => h.report
  | .number (.uint64 _) => h.report
  | .number (.double _) => h.report
  | .string _ => h.report
  | .startObject => h.report
  | .key str => h.key str
  | .endObject _ => h.report
  | .startArray => h.report
  | .endArray _ => h.report

end ManifestJsonHandler

def manifestParseJson (R : SaxReader) (m : Manifest) (data : List UInt8) : Bool × Manifest :=
  let handler : ManifestJsonHandler := ⟨m, []⟩
  match R.parse ManifestJsonHandler.handle data handler with
  | (true, handler) => (true, handler.manifest)
  | (false, handler) => (false, handler.manifest)

/-! ## What the handler does -/

section
variable {R : SaxReader} {m : Manifest} {data : List UInt8}

/-- The handler after an event. -/
def ManifestJsonHandler.remember (h : ManifestJsonHandler) (e : SaxEvent) : ManifestJsonHandler :=
  { h with current_key := e.key?.getD h.current_key }

theorem ManifestJsonHandler.handle_eq (h : ManifestJsonHandler) (e : SaxEvent) :
    h.handle e = (true, h.remember e) := by
  cases e with
  | number n => cases n <;> rfl
  | _ => rfl

/-- After any events the handler has the last key, and the `Manifest` it had. -/
theorem ManifestJsonHandler.foldl_remember (h : ManifestJsonHandler) (es : List SaxEvent) :
    es.foldl ManifestJsonHandler.remember h
      = { h with current_key := (es.filterMap SaxEvent.key?).getLastD h.current_key } := by
  induction es generalizing h with
  | nil => rfl
  | cons e es ih =>
      rw [List.foldl_cons, ih]
      cases hkey : e.key? with
      | none =>
          rw [List.filterMap_cons_none hkey]
          simp only [remember, hkey, Option.getD_none]
      | some k =>
          rw [List.filterMap_cons_some hkey, List.getLastD_cons]
          simp only [remember, hkey, Option.getD_some]

theorem parse_handle (R : SaxReader) (h : ManifestJsonHandler) (data : List UInt8) :
    R.parse ManifestJsonHandler.handle data h = ((R.document? data).isSome,
      { h with current_key :=
        ((R.reported data).filterMap SaxEvent.key?).getLastD h.current_key }) := by
  rw [SaxReader.parse, feed_of_accepts ManifestJsonHandler.handle_eq,
    ManifestJsonHandler.foldl_remember]
  rfl

/-- **All that is known of a document** when the handler is through is its last key, at
whatever depth. -/
theorem parse_handle_document {doc : Json} (hdoc : R.document? data = some doc) :
    R.parse ManifestJsonHandler.handle data ⟨m, []⟩ = (true, ⟨m, doc.keys.getLastD []⟩) := by
  rw [parse_handle, hdoc, R.reported_document data doc hdoc, Json.filterMap_key?_events]
  rfl

/-- **The `Manifest` is never written**, and the call succeeds on every document. -/
theorem manifestParseJson_eq (R : SaxReader) (m : Manifest) (data : List UInt8) :
    manifestParseJson R m data = ((R.document? data).isSome, m) := by
  cases hdoc : R.document? data with
  | none =>
      -- some events were reported, and then an error
      simp only [manifestParseJson, parse_handle, hdoc]
      rfl
  | some doc =>
      -- the key the handler goes out with never reaches the caller
      simp only [manifestParseJson, parse_handle_document hdoc]
      rfl

end

/-! ## The law -/

/-- The `Manifest` holds what the document says: its kind, its `apiVersion` and the
`name` in its `metadata`. -/
structure Reflects (doc : Json) (m : Manifest) : Prop where
  kind : ∃ k : ManifestKind, (doc.member? (ascii "kind")).bind Json.string? = some k.str
    ∧ manifestKindToStr m.kind = k.str
  apiVersion : ∃ s, (doc.member? (ascii "apiVersion")).bind Json.string? = some s
    ∧ m.apiVersion.cstr = .ok s
  name : ∃ s, ((doc.member? (ascii "metadata")).bind fun metadata =>
    (metadata.member? (ascii "name")).bind Json.string?) = some s ∧ m.name.cstr = .ok s

structure ParsedManifest (R : SaxReader) (m : Manifest) (data : List UInt8) : Prop where
  parsed : (manifestParseJson R m data).1 = true →
    ∃ doc, R.document? data = some doc ∧ Reflects doc (manifestParseJson R m data).2
  failed : (manifestParseJson R m data).1 = false → (manifestParseJson R m data).2 = m

/-- **When a manifest reflects its document**: exactly when the text is not of a
document, or the `Manifest` already reflected it. -/
theorem parsedManifest_iff (R : SaxReader) (m : Manifest) (data : List UInt8) :
    ParsedManifest R m data ↔ ∀ doc, R.document? data = some doc → Reflects doc m := by
  have heq := manifestParseJson_eq R m data
  constructor
  · intro h doc hdoc
    have htrue : (manifestParseJson R m data).1 = true := by rw [heq, hdoc]; rfl
    obtain ⟨doc', hdoc', hreflects⟩ := h.parsed htrue
    obtain rfl := Option.some.inj (hdoc.symm.trans hdoc')
    rw [heq] at hreflects
    exact hreflects
  · intro h
    refine ⟨fun htrue => ?_, fun _ => by rw [heq]⟩
    rw [heq] at htrue ⊢
    obtain ⟨doc, hdoc⟩ := Option.isSome_iff_exists.mp htrue
    exact ⟨doc, hdoc, h doc hdoc⟩

/-- The text in the hive's `main`, and the document it is of. -/
def manifestText : List UInt8 :=
  ascii "\x7b\"apiVersion\": \"v1\", \"kind\": \"Process\", "
    ++ ascii "\"metadata\": \x7b \"name\": \"test\" \x7d \x7d"

def manifestDocument : Json := .object [(ascii "apiVersion", .string (ascii "v1")),
  (ascii "kind", .string (ascii "Process")),
  (ascii "metadata", .object [(ascii "name", .string (ascii "test"))])]

/-- The hive's own text is parsed, and the kind is still none of the two. -/
theorem manifest_not_parsed :
    ¬∀ (R : SaxReader) (m : Manifest) (data : List UInt8), ParsedManifest R m data := by
  intro hall
  have heq := manifestParseJson_eq (.only manifestText manifestDocument)
    ⟨kInvalidManifest, .int 0, .int 0⟩ manifestText
  rw [SaxReader.document?_only] at heq
  obtain ⟨doc, -, hreflects⟩ := (hall (.only manifestText manifestDocument)
    ⟨kInvalidManifest, .int 0, .int 0⟩ manifestText).parsed (by rw [heq]; rfl)
  rw [heq] at hreflects
  obtain ⟨k, -, hkind⟩ := hreflects.kind
  cases k with
  | process => exact absurd hkind (by decide)
  | widget => exact absurd hkind (by decide)

end Vespa
