import Vespa.EventRead

/-!
# Whose assignments does an accepted message hold?

An accepted document leaves behind a message put together from whatever
fields it had, in whatever order. `Sound` asks that the result be complete
and of one kind: its kind, its timestamp and the payload member its kind
selects were all assigned during the call, the payload last by the reader of
that very kind. Two calls on the same bytes then agree, whatever their
memory held before.

Whether a document is sound can be told from its fields alone. They are
scanned with the kind *in force*, the last `kind` field so far: `guarded`
says that no payload document comes before there is one, and `Complete`
that the kind in force at the end is the one under which the last payload
was read. A document that makes the process abort on the way is sound
because it is never accepted.
-/

namespace Vespa

open Bson

/-! ## Scanning a document -/

/-- The kind in force after a field. -/
def inForce (k : BitVec 32) (e : Element) : BitVec 32 :=
  if e.key = kindKey then iterInt32 e.value else k

def lastKind (k : BitVec 32) (es : List Element) : BitVec 32 := es.foldl inForce k

def dataDoc? (e : Element) : Option (List UInt8) :=
  if e.key = dataKey then iterDocument e.value else none

/-- A `data` field without a document makes a library that asserts abort. -/
def aborts (lib : Libbson) (e : Element) : Bool :=
  lib.nullAborts && e.key == dataKey && (iterDocument e.value).isNone

/-- Every payload document comes under a valid kind. -/
def guarded : BitVec 32 → List Element → Bool
  | _, [] => true
  | k, e :: es =>
    ((dataDoc? e).isNone || (Kind.ofCode? k).isSome) && guarded (inForce k e) es

/-- The payload document has a field its reader looks for. -/
def carries : Kind → List Element → Bool
  | .ping, es => es.any fun e => e.key == digestKey
  | .event, es => es.any fun e => e.key == topicKey
  | .pong, _ => false
  | .error, _ => false

/-- The kind whose reader assigns a payload at a field, if one does. -/
def payloadKind? (k : BitVec 32) (e : Element) : Option Kind :=
  match dataDoc? e, Kind.ofCode? k with
  | some raw, some kind => if carries kind (fields raw) then some kind else none
  | _, _ => none

def payloadKinds : BitVec 32 → List Element → List Kind
  | _, [] => []
  | k, e :: es => (payloadKind? k e).toList ++ payloadKinds (inForce k e) es

/-- The document has a timestamp, and the kind it ends with is the one its last
payload was read under. -/
def Complete (es : List Element) : Prop :=
  (∃ e ∈ es, e.key = timestampKey) ∧
    ∃ k : Kind, lastKind kInvalidMessage es = k.code
      ∧ (payloadKinds kInvalidMessage es).getLast? = some k

/-! ## The assignments of a scan -/

def fieldStores (k : BitVec 32) (e : Element) : List Store :=
  if e.key = kindKey then [.kind (iterInt32 e.value)]
  else if e.key = timestampKey then [.timestamp (iterInt64 e.value)]
  else match dataDoc? e, Kind.ofCode? k with
    | some raw, some kind => payloadStores kind (fields raw)
    | _, _ => []

/-- The assignments made for the fields of a guarded document. -/
def storesOf : BitVec 32 → List Element → List Store
  | _, [] => []
  | k, e :: es => fieldStores k e ++ storesOf (inForce k e) es

theorem dataDoc?_eq_some {e : Element} {raw : List UInt8} :
    dataDoc? e = some raw ↔ e.key = dataKey ∧ e.value = .document raw := by
  unfold dataDoc?
  split_ifs with h
  · cases hv : e.value <;> simp [iterDocument, h]
  · simp [h]

theorem payloadStores_eq_nil {k : Kind} {es : List Element} :
    payloadStores k es = [] ↔ carries k es = false := by
  cases k with
  | ping | event => simp [payloadStores, carries, List.filterMap_eq_nil_iff]
  | pong | error => exact iff_of_true rfl rfl

theorem getLast?_filterMap_payloadStores (k : Kind) (es : List Element) :
    ((payloadStores k es).filterMap Store.reader?).getLast?
      = if carries k es then some k else none := by
  have hall : (payloadStores k es).filterMap Store.reader?
      = List.replicate (payloadStores k es).length k := by
    refine List.eq_replicate_iff.mpr ⟨?_, fun b hb => ?_⟩
    · rw [List.length_filterMap_eq_countP, List.countP_eq_length]
      intro s hs
      simp [reader?_payloadStores hs]
    · obtain ⟨s, hs, hb⟩ := List.mem_filterMap.mp hb
      exact Option.some.inj (hb.symm.trans (reader?_payloadStores hs))
  rw [hall, List.getLast?_replicate]
  cases hc : carries k es with
  | true =>
      have hne : payloadStores k es ≠ [] := fun h => by
        rw [payloadStores_eq_nil.mp h] at hc
        cases hc
      simp [hne]
  | false => simp [payloadStores_eq_nil.mpr hc]

theorem getLast?_filterMap_fieldStores (k : BitVec 32) (e : Element) :
    ((fieldStores k e).filterMap Store.reader?).getLast? = payloadKind? k e := by
  have hdata : e.key = kindKey ∨ e.key = timestampKey → dataDoc? e = none := by
    intro h
    unfold dataDoc?
    rw [if_neg]
    rintro h'
    rw [h'] at h
    exact h.elim dataKey_ne.1 dataKey_ne.2
  unfold fieldStores payloadKind?
  split_ifs with hk ht
  · simp [hdata (.inl hk), Store.reader?]
  · simp [hdata (.inr ht), Store.reader?]
  · cases dataDoc? e with
    | none => rfl
    | some raw =>
        cases Kind.ofCode? k with
        | none => rfl
        | some kind => exact getLast?_filterMap_payloadStores kind (fields raw)

/-- **The last payload assignment** is the last kind that carried one. -/
theorem getLast?_filterMap_storesOf (k : BitVec 32) (es : List Element) :
    ((storesOf k es).filterMap Store.reader?).getLast? = (payloadKinds k es).getLast? := by
  induction es generalizing k with
  | nil => rfl
  | cons e es ih =>
      rw [storesOf, payloadKinds, List.filterMap_append, List.getLast?_append,
        List.getLast?_append, ih, getLast?_filterMap_fieldStores]
      cases payloadKind? k e <;> rfl

/-- Where neither `kind` nor `timestamp` is assigned, a payload is. -/
theorem reader?_of_mem_fieldStores {k : BitVec 32} {e : Element} {s : Store}
    (hk : e.key ≠ kindKey) (ht : e.key ≠ timestampKey) (hs : s ∈ fieldStores k e) :
    s.reader? ≠ none := by
  rw [fieldStores, if_neg hk, if_neg ht] at hs
  cases hd : dataDoc? e <;> cases ho : Kind.ofCode? k <;> simp only [hd, ho] at hs
  case some.some =>
    rw [reader?_payloadStores hs]
    exact Option.some_ne_none _
  all_goals cases hs

theorem kind_mem_fieldStores {k : BitVec 32} {e : Element} :
    (∃ c, Store.kind c ∈ fieldStores k e) ↔ e.key = kindKey := by
  by_cases hk : e.key = kindKey
  · simp [fieldStores, hk]
  · refine iff_of_false ?_ hk
    rintro ⟨c, hc⟩
    by_cases ht : e.key = timestampKey
    · simp [fieldStores, ht, timestampKey_ne] at hc
    · exact reader?_of_mem_fieldStores hk ht hc rfl

theorem timestamp_mem_fieldStores {k : BitVec 32} {e : Element} :
    (∃ t, Store.timestamp t ∈ fieldStores k e) ↔ e.key = timestampKey := by
  by_cases ht : e.key = timestampKey
  · simp [fieldStores, ht, timestampKey_ne]
  · refine iff_of_false ?_ ht
    rintro ⟨t, hmem⟩
    by_cases hk : e.key = kindKey
    · simp [fieldStores, hk] at hmem
    · exact reader?_of_mem_fieldStores hk ht hmem rfl

theorem timestamp_mem_storesOf (k : BitVec 32) (es : List Element) :
    (∃ t, Store.timestamp t ∈ storesOf k es) ↔ ∃ e ∈ es, e.key = timestampKey := by
  induction es generalizing k with
  | nil => simp [storesOf]
  | cons e es ih =>
      simp only [storesOf, List.mem_append, exists_or, timestamp_mem_fieldStores, ih,
        List.exists_mem_cons_iff]

theorem kind_mem_storesOf (k : BitVec 32) (es : List Element) (h : lastKind k es ≠ k) :
    ∃ c, Store.kind c ∈ storesOf k es := by
  induction es generalizing k with
  | nil => exact absurd rfl h
  | cons e es ih =>
      by_cases he : e.key = kindKey
      · obtain ⟨c, hc⟩ := (kind_mem_fieldStores (k := k)).mpr he
        exact ⟨c, List.mem_append_left _ hc⟩
      · have hk : inForce k e = k := if_neg he
        have hlast : lastKind (inForce k e) es ≠ inForce k e := by
          rw [hk]
          rwa [lastKind, List.foldl_cons, hk] at h
        obtain ⟨c, hc⟩ := ih (inForce k e) hlast
        exact ⟨c, List.mem_append_right _ hc⟩

/-! ## What the loop does -/

/-- The kind in force is the one the message holds, unless none came yet. -/
def Tracks (k : BitVec 32) (r : Reader) : Prop := r.msg.kind = k ∨ k = kInvalidMessage

theorem kind_run_fieldStores {k : BitVec 32} {e : Element} {r : Reader} :
    (r.run (fieldStores k e)).msg.kind = inForce r.msg.kind e := by
  unfold fieldStores inForce
  split_ifs with hk ht
  · rfl
  · rfl
  · cases dataDoc? e with
    | none => rfl
    | some raw =>
        cases Kind.ofCode? k with
        | none => rfl
        | some kind => exact kind_run_payloadStores r fun _ hs => reader?_payloadStores hs

theorem Tracks.step {k : BitVec 32} {e : Element} {r : Reader} (h : Tracks k r) :
    Tracks (inForce k e) (r.run (fieldStores k e)) := by
  rw [Tracks, kind_run_fieldStores]
  unfold inForce
  split_ifs
  · exact .inl rfl
  · exact h

theorem kind_run_storesOf (k : BitVec 32) (es : List Element) (r : Reader) :
    (r.run (storesOf k es)).msg.kind = lastKind r.msg.kind es := by
  induction es generalizing k r with
  | nil => rfl
  | cons e es ih =>
      rw [storesOf, Reader.run_append, ih, kind_run_fieldStores, lastKind, lastKind,
        List.foldl_cons]

theorem lastKind_start (es : List Element) (k k' : BitVec 32) :
    lastKind k es = lastKind k' es ∨ (lastKind k es = k ∧ lastKind k' es = k') := by
  induction es with
  | nil => exact .inr ⟨rfl, rfl⟩
  | cons e es ih =>
      simp only [lastKind, List.foldl_cons]
      by_cases he : e.key = kindKey
      · simp only [inForce, if_pos he, true_or]
      · simp only [inForce, if_neg he]
        exact ih

theorem lastKind_of_invalid {es : List Element} {k : Kind}
    (h : lastKind kInvalidMessage es = k.code) (k₀ : BitVec 32) : lastKind k₀ es = k.code := by
  rcases lastKind_start es k₀ kInvalidMessage with heq | ⟨-, heq⟩
  · rw [heq, h]
  · rw [heq] at h
    cases k <;> cases h

/-- **One guarded field.** The loop makes its assignments and goes on. -/
theorem readFields_step {lib : Libbson} {k : BitVec 32} {e : Element} {r : Reader}
    (es : List Element) (hr : Tracks k r) (hab : aborts lib e = false)
    (hdoc : ∀ raw, dataDoc? e = some raw → headerOK raw = true ∧ Kind.ofCode? k ≠ none) :
    readFields lib (e :: es) r = readFields lib es (r.run (fieldStores k e)) := by
  rw [readFields, fieldStores]
  split_ifs with hk ht hd
  · rfl
  · rfl
  · cases hv : iterDocument e.value with
    | none =>
        have hnull : lib.nullAborts = false := by
          simpa [aborts, hd, hv] using hab
        simp only [readData_other hv, hnull, dataDoc?, if_pos hd, hv]
        rfl
    | some raw =>
        have hraw : dataDoc? e = some raw := by rw [dataDoc?, if_pos hd, hv]
        obtain ⟨-, hval⟩ := dataDoc?_eq_some.mp hraw
        obtain ⟨hhead, hkind⟩ := hdoc raw hraw
        obtain ⟨kind, hkind⟩ := Option.ne_none_iff_exists'.mp hkind
        obtain rfl := Kind.ofCode?_eq_some.mp hkind
        have hheld : r.msg.kind = kind.code := by
          rcases hr with hr | hr
          · exact hr
          · cases kind <;> cases hr
        rw [hval, readData_document hhead hheld]
        simp only [hraw, Kind.ofCode?_code]
  · have hnone : dataDoc? e = none := if_neg hd
    simp only [hnone]
    rfl

/-- **A guarded run of fields.** -/
theorem readFields_guarded {lib : Libbson} {pre rest : List Element} {k : BitVec 32} {r : Reader}
    (hr : Tracks k r) (hab : ∀ e ∈ pre, aborts lib e = false)
    (hdoc : ∀ e ∈ pre, ∀ raw, dataDoc? e = some raw → headerOK raw = true)
    (hg : guarded k pre = true) :
    readFields lib (pre ++ rest) r = readFields lib rest (r.run (storesOf k pre)) := by
  induction pre generalizing k r with
  | nil => rfl
  | cons e pre ih =>
      simp only [guarded, Bool.and_eq_true, Bool.or_eq_true, Option.isNone_iff_eq_none,
        Option.isSome_iff_ne_none] at hg
      have hstep := readFields_step (pre ++ rest) hr (hab e List.mem_cons_self)
        fun raw hraw => ⟨hdoc e List.mem_cons_self raw hraw,
          hg.1.resolve_left (by rw [hraw]; exact Option.some_ne_none raw)⟩
      have hrest := ih hr.step (fun e' he' => hab e' (List.mem_cons_of_mem _ he'))
        (fun e' he' => hdoc e' (List.mem_cons_of_mem _ he')) hg.2
      rw [List.cons_append, hstep, hrest, storesOf, Reader.run_append]

theorem headerOK_dataDoc? {lib : Libbson} {bytes : List UInt8}
    (hvalid : bsonValidate lib bytes = true) :
    ∀ e ∈ fields bytes, ∀ raw, dataDoc? e = some raw → headerOK raw = true := by
  intro e he raw hraw
  refine headerOK_of_mem_documents hvalid he ?_
  rw [(dataDoc?_eq_some.mp hraw).2]
  exact List.mem_singleton.mpr rfl

theorem readMessageFromBytes_guarded {lib : Libbson} {bytes : List UInt8}
    (hvalid : bsonValidate lib bytes = true)
    (hthrough : ∀ e ∈ fields bytes, aborts lib e = false)
    (hg : guarded kInvalidMessage (fields bytes) = true) (prior : Message) :
    readMessageFromBytes lib bytes (Reader.start prior)
      = .ok (true, (Reader.start prior).run (storesOf kInvalidMessage (fields bytes))) := by
  have hstart : Tracks kInvalidMessage (Reader.start prior) := .inr rfl
  have hrun : readFields lib (fields bytes ++ []) (Reader.start prior) = _ :=
    readFields_guarded hstart hthrough (headerOK_dataDoc? hvalid) hg
  rw [List.append_nil] at hrun
  rw [readMessageFromBytes_eq, if_pos hvalid, hrun]
  rfl

theorem readFields_aborts {lib : Libbson} {e : Element} {r : Reader}
    (rest : List Element) (h : aborts lib e = true) :
    readFields lib (e :: rest) r = .error .abort := by
  simp only [aborts, Bool.and_eq_true, beq_iff_eq, Option.isNone_iff_eq_none] at h
  obtain ⟨⟨hnull, hkey⟩, hv⟩ := h
  rw [readFields_dataKey hkey, readData_other hv, hnull]
  rfl

/-- **An unguarded run of fields** under an invalid kind returns early, and the
kind stays invalid. -/
theorem readFields_unguarded {lib : Libbson} {pre rest : List Element} {r : Reader}
    (hab : ∀ e ∈ pre, aborts lib e = false)
    (hdoc : ∀ e ∈ pre, ∀ raw, dataDoc? e = some raw → headerOK raw = true)
    (hg : guarded r.msg.kind pre = false) :
    ∃ r', readFields lib (pre ++ rest) r = .ok r' ∧ Kind.ofCode? r'.msg.kind = none := by
  induction pre generalizing r with
  | nil => cases hg
  | cons e pre ih =>
      by_cases hhere : (dataDoc? e).isNone || (Kind.ofCode? r.msg.kind).isSome
      · have hg' : guarded (inForce r.msg.kind e) pre = false := by
          simpa [guarded, hhere] using hg
        have hstep := readFields_step (pre ++ rest) (k := r.msg.kind) (.inl rfl)
          (hab e List.mem_cons_self) fun raw hraw =>
            ⟨hdoc e List.mem_cons_self raw hraw, by
              simpa [hraw, Option.isSome_iff_ne_none] using hhere⟩
        rw [List.cons_append, hstep]
        exact ih (fun e' he' => hab e' (List.mem_cons_of_mem _ he'))
          (fun e' he' => hdoc e' (List.mem_cons_of_mem _ he'))
          (by rw [kind_run_fieldStores]; exact hg')
      · simp only [Bool.or_eq_true, Option.isNone_iff_eq_none, Option.isSome_iff_ne_none,
          not_or, not_not] at hhere
        obtain ⟨raw, hraw⟩ := Option.ne_none_iff_exists'.mp hhere.1
        obtain ⟨hkey, hval⟩ := dataDoc?_eq_some.mp hraw
        refine ⟨r, ?_, hhere.2⟩
        rw [List.cons_append, readFields_dataKey hkey, hval,
          readData_invalid (hdoc e List.mem_cons_self raw hraw) hhere.2]

/-! ## The three ways of a scan -/

/-- The fields before the one that makes the process abort. -/
def reached (lib : Libbson) (es : List Element) : List Element :=
  es.takeWhile fun e => !aborts lib e

theorem aborts_of_mem_reached {lib : Libbson} {es : List Element} :
    ∀ e ∈ reached lib es, aborts lib e = false := by
  intro e he
  simpa using List.all_eq_true.mp List.all_takeWhile e he

theorem reached_cases (lib : Libbson) (es : List Element) :
    (∃ e rest, es = reached lib es ++ e :: rest ∧ aborts lib e = true)
      ∨ (reached lib es = es ∧ ∀ e ∈ es, aborts lib e = false) := by
  have hsplit : reached lib es ++ es.dropWhile (fun e => !aborts lib e) = es :=
    List.takeWhile_append_dropWhile
  cases hdrop : es.dropWhile fun e => !aborts lib e with
  | nil =>
      rw [hdrop, List.append_nil] at hsplit
      exact .inr ⟨hsplit, hsplit ▸ aborts_of_mem_reached⟩
  | cons e rest =>
      rw [hdrop] at hsplit
      refine .inl ⟨e, rest, hsplit.symm, ?_⟩
      have hhead := List.head?_dropWhile_not (fun e => !aborts lib e) es
      simpa [hdrop] using hhead

/-- **How a valid buffer is read.** A payload document comes before its kind, and the
message is left without one; or an aborting field is reached, in every memory;
or the scan goes through. -/
theorem scan_cases {lib : Libbson} {bytes : List UInt8} (hvalid : bsonValidate lib bytes = true) :
    (guarded kInvalidMessage (reached lib (fields bytes)) = false
        ∧ ∀ prior : Message, prior.kind = kInvalidMessage →
          ∃ r, readMessageFromBytes lib bytes (Reader.start prior) = .ok (true, r)
            ∧ Kind.ofCode? r.msg.kind = none)
      ∨ (guarded kInvalidMessage (reached lib (fields bytes)) = true
        ∧ (∃ e ∈ fields bytes, aborts lib e = true)
        ∧ ∀ prior, readMessageFromBytes lib bytes (Reader.start prior) = .error .abort)
      ∨ (guarded kInvalidMessage (fields bytes) = true
        ∧ reached lib (fields bytes) = fields bytes
        ∧ ∀ e ∈ fields bytes, aborts lib e = false) := by
  have hdoc : ∀ e ∈ reached lib (fields bytes), ∀ raw,
      dataDoc? e = some raw → headerOK raw = true :=
    fun e he => headerOK_dataDoc? hvalid e (List.takeWhile_subset _ he)
  cases hg : guarded kInvalidMessage (reached lib (fields bytes)) with
  | false =>
      obtain ⟨rest, hsplit⟩ : ∃ rest, fields bytes = reached lib (fields bytes) ++ rest :=
        ⟨_, List.takeWhile_append_dropWhile.symm⟩
      refine .inl ⟨rfl, fun prior hprior => ?_⟩
      obtain ⟨r, hr, hnone⟩ : ∃ r, readFields lib (reached lib (fields bytes) ++ rest)
          (Reader.start prior) = .ok r ∧ Kind.ofCode? r.msg.kind = none :=
        readFields_unguarded aborts_of_mem_reached hdoc (by rw [← hg, ← hprior]; rfl)
      refine ⟨r, ?_, hnone⟩
      rw [readMessageFromBytes_eq, if_pos hvalid, hsplit, hr]
      rfl
  | true =>
      rcases reached_cases lib (fields bytes) with ⟨e, rest, hsplit, hab⟩ | ⟨hall, hab⟩
      · refine .inr (.inl ⟨rfl, ⟨e, hsplit ▸ by simp, hab⟩, fun prior => ?_⟩)
        have hstart : Tracks kInvalidMessage (Reader.start prior) := .inr rfl
        rw [readMessageFromBytes_eq, if_pos hvalid, hsplit,
          readFields_guarded hstart aborts_of_mem_reached hdoc hg, readFields_aborts rest hab]
        rfl
      · exact .inr (.inr ⟨hall ▸ hg, hall, hab⟩)

/-! ## Memory that no longer matters -/

/-- A member that an assignment sets, and that every assignment either sets or
leaves alone, ends up the same from any two memories. -/
theorem foldl_apply_agree {α : Type} (f : Message → α) (sets : Store → Prop)
    (hkeeps : ∀ s m₁ m₂, f m₁ = f m₂ → f (Store.apply m₁ s) = f (Store.apply m₂ s))
    (hsets : ∀ s, sets s → ∀ m₁ m₂, f (Store.apply m₁ s) = f (Store.apply m₂ s))
    (ss : List Store) (m₁ m₂ : Message) (h : f m₁ = f m₂ ∨ ∃ s ∈ ss, sets s) :
    f (ss.foldl Store.apply m₁) = f (ss.foldl Store.apply m₂) := by
  induction ss generalizing m₁ m₂ with
  | nil =>
      rcases h with h | ⟨s, hs, -⟩
      · exact h
      · cases hs
  | cons s ss ih =>
      rw [List.foldl_cons, List.foldl_cons]
      refine ih _ _ ?_
      rcases h with h | ⟨s', hs', h⟩
      · exact .inl (hkeeps s m₁ m₂ h)
      · rcases List.mem_cons.mp hs' with rfl | hs'
        · exact .inl (hsets s' h m₁ m₂)
        · exact .inr ⟨s', hs', h⟩

theorem kind_agree {ss : List Store} {c : BitVec 32} (hc : Store.kind c ∈ ss) (m₁ m₂ : Message) :
    (ss.foldl Store.apply m₁).kind = (ss.foldl Store.apply m₂).kind := by
  refine foldl_apply_agree Message.kind (fun s => ∃ c, s = .kind c) ?_ ?_ ss m₁ m₂
    (.inr ⟨_, hc, c, rfl⟩)
  · intro s m₁ m₂ hm
    cases s <;> first | rfl | exact hm
  · rintro s ⟨c, rfl⟩ m₁ m₂
    rfl

theorem timestamp_agree {ss : List Store} {t : BitVec 64} (ht : Store.timestamp t ∈ ss)
    (m₁ m₂ : Message) :
    (ss.foldl Store.apply m₁).timestamp = (ss.foldl Store.apply m₂).timestamp := by
  refine foldl_apply_agree Message.timestamp (fun s => ∃ t, s = .timestamp t) ?_ ?_ ss m₁ m₂
    (.inr ⟨_, ht, t, rfl⟩)
  · intro s m₁ m₂ hm
    cases s <;> first | rfl | exact hm
  · rintro s ⟨t, rfl⟩ m₁ m₂
    rfl

/-- The readers that assign at all assign the first two words. -/
theorem words_agree {ss : List Store} {s : Store} (hs : s ∈ ss) (hread : s.reader? ≠ none)
    (m₁ m₂ : Message) :
    (ss.foldl Store.apply m₁).word0 = (ss.foldl Store.apply m₂).word0
      ∧ (ss.foldl Store.apply m₁).word1 = (ss.foldl Store.apply m₂).word1 := by
  have hwords := foldl_apply_agree (fun m => (m.word0, m.word1)) (fun s => s.reader? ≠ none)
    (fun s m₁ m₂ hm => by cases s <;> first | rfl | exact hm)
    (fun s hsets m₁ m₂ => by
      cases s with
      | kind c | timestamp t => exact absurd rfl hsets
      | digest d | topic t => rfl)
    ss m₁ m₂ (.inr ⟨s, hs, hread⟩)
  exact Prod.mk.inj hwords

/-- The log holds an assignment to the kind and one to the timestamp, and its
last payload assignment is by the reader of kind `k`. -/
structure WrittenBy (log : List Store) (k : Kind) : Prop where
  kind : ∃ c, Store.kind c ∈ log
  timestamp : ∃ t, Store.timestamp t ∈ log
  payload : (log.filterMap Store.reader?).getLast? = some k

theorem WrittenBy.exists_store {log : List Store} {k : Kind} (h : WrittenBy log k) :
    ∃ s ∈ log, s.reader? = some k := by
  obtain ⟨s, hs, hk⟩ := List.mem_filterMap.mp (List.mem_of_getLast? h.payload)
  exact ⟨s, hs, hk⟩

/-- **Written over.** Assignments that set everything a message of kind `k` has
leave the same message in any memory. -/
theorem WrittenBy.agree {ss : List Store} {k : Kind} (h : WrittenBy ss k) (m₁ m₂ : Message)
    (hk : (ss.foldl Store.apply m₁).kind = k.code) :
    (ss.foldl Store.apply m₁).kind = (ss.foldl Store.apply m₂).kind
      ∧ (ss.foldl Store.apply m₁).timestamp = (ss.foldl Store.apply m₂).timestamp
      ∧ (ss.foldl Store.apply m₁).payload? = (ss.foldl Store.apply m₂).payload? := by
  obtain ⟨c, hc⟩ := h.kind
  obtain ⟨t, ht⟩ := h.timestamp
  obtain ⟨s, hs, hread⟩ := h.exists_store
  have hkind := kind_agree hc m₁ m₂
  have hk' := hkind ▸ hk
  obtain ⟨h0, h1⟩ := words_agree hs (by rw [hread]; exact Option.some_ne_none k) m₁ m₂
  refine ⟨hkind, timestamp_agree ht m₁ m₂, ?_⟩
  cases s with
  | kind c | timestamp t => cases hread
  | digest d | topic t =>
      obtain rfl := Option.some.inj hread
      simp only [Message.payload?, hk, hk', Kind.ofCode?_code, Message.ping, Message.event,
        h0, h1]

/-! ## Soundness of acceptance -/

/-- What acceptance of `bytes` should mean: the message is of one of the four kinds,
all of it was assigned during the call, its payload by that kind's reader, and
nothing depends on the memory. -/
structure Sound (lib : Libbson) (bytes : List UInt8) : Prop where
  written : ∀ prior r, readMessageFromBytes lib bytes (Reader.start prior) = .ok (true, r) →
    ∃ k : Kind, r.msg.kind = k.code ∧ WrittenBy r.log k
  independent : ∀ prior₁ prior₂ r₁ r₂,
    readMessageFromBytes lib bytes (Reader.start prior₁) = .ok (true, r₁) →
    readMessageFromBytes lib bytes (Reader.start prior₂) = .ok (true, r₂) →
    r₁.msg.kind = r₂.msg.kind ∧ r₁.msg.timestamp = r₂.msg.timestamp
      ∧ r₁.msg.payload? = r₂.msg.payload?

theorem sound_of_never {lib : Libbson} {bytes : List UInt8}
    (h : ∀ prior r, readMessageFromBytes lib bytes (Reader.start prior) ≠ .ok (true, r)) :
    Sound lib bytes where
  written prior r hr := absurd hr (h prior r)
  independent prior₁ _ r₁ _ hr₁ _ := absurd hr₁ (h prior₁ r₁)

theorem writtenBy_storesOf {es : List Element} {k : Kind} :
    (lastKind kInvalidMessage es = k.code ∧ WrittenBy (storesOf kInvalidMessage es) k)
      ↔ (∃ e ∈ es, e.key = timestampKey) ∧ lastKind kInvalidMessage es = k.code
        ∧ (payloadKinds kInvalidMessage es).getLast? = some k := by
  rw [← timestamp_mem_storesOf kInvalidMessage es, ← getLast?_filterMap_storesOf]
  constructor
  · rintro ⟨hk, hw⟩
    exact ⟨hw.timestamp, hk, hw.payload⟩
  · rintro ⟨ht, hk, hp⟩
    refine ⟨hk, kind_mem_storesOf kInvalidMessage es ?_, ht, hp⟩
    rw [hk]
    cases k <;> decide

theorem sound_iff_complete {lib : Libbson} {bytes : List UInt8}
    (hrun : ∀ prior, readMessageFromBytes lib bytes (Reader.start prior)
      = .ok (true, (Reader.start prior).run (storesOf kInvalidMessage (fields bytes)))) :
    Sound lib bytes ↔ Complete (fields bytes) := by
  have hread : ∀ prior r, readMessageFromBytes lib bytes (Reader.start prior) = .ok (true, r) ↔
      r = (Reader.start prior).run (storesOf kInvalidMessage (fields bytes)) := by
    intro prior r
    rw [hrun]
    simp [eq_comm]
  have hlog : ∀ prior, ((Reader.start prior).run (storesOf kInvalidMessage (fields bytes))).log
      = storesOf kInvalidMessage (fields bytes) := fun prior => by
    rw [Reader.run_log]
    rfl
  constructor
  · intro h
    obtain ⟨k, hk, hw⟩ := h.written blank _ ((hread blank _).mpr rfl)
    rw [kind_run_storesOf] at hk
    rw [hlog] at hw
    obtain ⟨ht, hk, hp⟩ := writtenBy_storesOf.mp ⟨hk, hw⟩
    exact ⟨ht, k, hk, hp⟩
  · rintro ⟨ht, k, hk, hp⟩
    obtain ⟨-, hw⟩ := writtenBy_storesOf.mpr ⟨ht, hk, hp⟩
    have hkind : ∀ prior : Message,
        ((storesOf kInvalidMessage (fields bytes)).foldl Store.apply prior).kind = k.code := by
      intro prior
      have hrun := kind_run_storesOf kInvalidMessage (fields bytes) (Reader.start prior)
      rw [Reader.run_msg] at hrun
      exact hrun.trans (lastKind_of_invalid hk _)
    refine ⟨?_, ?_⟩
    · rintro prior r hr
      obtain rfl := (hread prior r).mp hr
      exact ⟨k, by rw [Reader.run_msg]; exact hkind prior, by rw [hlog]; exact hw⟩
    · rintro prior₁ prior₂ r₁ r₂ hr₁ hr₂
      obtain rfl := (hread prior₁ r₁).mp hr₁
      obtain rfl := (hread prior₂ r₂).mp hr₂
      rw [Reader.run_msg, Reader.run_msg]
      exact hw.agree prior₁ prior₂ (hkind prior₁)

/-- **When acceptance means a whole message.** Exactly when the buffer is
refused, or no payload document comes before its kind and the scan either
aborts or is complete. -/
theorem sound_iff (lib : Libbson) (bytes : List UInt8) :
    Sound lib bytes ↔ (bsonValidate lib bytes = true →
      guarded kInvalidMessage (reached lib (fields bytes)) = true
        ∧ ((∃ e ∈ fields bytes, aborts lib e = true) ∨ Complete (fields bytes))) := by
  cases hvalid : bsonValidate lib bytes with
  | false =>
      have hrefused : ∀ prior r,
          readMessageFromBytes lib bytes (Reader.start prior) ≠ .ok (true, r) := by
        intro prior r h
        rw [(of_readMessageFromBytes h).1] at hvalid
        cases hvalid
      exact iff_of_true (sound_of_never hrefused) (by simp)
  | true =>
      rcases scan_cases hvalid with ⟨hg, hread⟩ | ⟨hg, hab, habort⟩ | ⟨hg, hall, hab⟩
      · refine iff_of_false ?_ (by simp [hg])
        intro h
        obtain ⟨r, hr, hnone⟩ := hread blank rfl
        obtain ⟨k, hk, -⟩ := h.written blank r hr
        rw [hk, Kind.ofCode?_code] at hnone
        cases hnone
      · have haborts : ∀ prior r,
            readMessageFromBytes lib bytes (Reader.start prior) ≠ .ok (true, r) := by
          intro prior r h
          rw [habort prior] at h
          cases h
        exact iff_of_true (sound_of_never haborts) fun _ => ⟨hg, .inl hab⟩
      · have hnone : ¬∃ e ∈ fields bytes, aborts lib e = true := by
          rintro ⟨e, he, h⟩
          rw [hab e he] at h
          cases h
        rw [hall, hg, or_iff_right hnone]
        simp only [true_and, forall_const]
        exact sound_iff_complete fun prior => readMessageFromBytes_guarded hvalid hab hg prior

theorem empty_document_not_sound : ¬∀ (lib : Libbson) (bytes : List UInt8), Sound lib bytes := by
  intro h
  obtain ⟨k, hk, -⟩ := (h .lenient [5, 0, 0, 0, 0]).written blank (Reader.start blank) (by decide)
  cases k <;> cases hk

end Vespa
