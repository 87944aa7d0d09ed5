import Vespa.EventProvenance

/-!
# The order of the fields

`ReadMessage` matches fields by their keys, but the reader it takes for
`data` is chosen by the kind the message holds at that moment. So the order
matters, and `readMessage_msg` says how much: of a document with one `kind`,
one `timestamp` and one `data`, all that counts is on which side of `data`
the other two are. With `kind` behind it, `data` is read as the kind that
the memory happens to hold, and not at all, nor anything after it, when
that is not a kind.

A `MessageDocument` is a validated document with each of the three fields
once, and a `Reordering` of it permutes its fields and those of its `data`;
the result is again a `MessageDocument`.
-/

namespace Vespa

open Bson

/-! ## Message documents -/

structure MessageDocument (lib : Libbson) where
  bytes : List UInt8
  kind : Kind
  stamp : Value
  data : List UInt8
  valid : bsonValidate lib bytes = true
  kinds : (fields bytes).filter (·.key == kindKey) = [⟨kindKey, .int32 kind.code⟩]
  stamps : (fields bytes).filter (·.key == timestampKey) = [⟨timestampKey, stamp⟩]
  datas : (fields bytes).filter (·.key == dataKey) = [⟨dataKey, .document data⟩]

def replaceData (doc : List UInt8) (e : Element) : Element :=
  if e.key = dataKey then ⟨dataKey, .document doc⟩ else e

/-- A permutation of the fields of `data`, and one of the fields of the document
with that `data`. -/
structure Reordering {lib : Libbson} (w : MessageDocument lib) where
  data : List Element
  top : List Element
  data_perm : data.Perm (fields w.data)
  top_perm : top.Perm ((fields w.bytes).map (replaceData (encodeDoc data)))

@[simp] theorem replaceData_key (doc : List UInt8) (e : Element) :
    (replaceData doc e).key = e.key := by
  unfold replaceData
  split_ifs with h
  · exact h.symm
  · rfl

theorem replaceData_of_ne {doc : List UInt8} {e : Element} (h : e.key ≠ dataKey) :
    replaceData doc e = e := if_neg h

/-! ## Reordered documents are valid -/

theorem length_packed_perm {es es' : List Element} (h : es.Perm es') :
    (packed es).length = (packed es').length := (h.flatMap_right element.encode).length_eq

theorem length_packed_map {f : Element → Element} {es : List Element}
    (h : ∀ e ∈ es, (element.encode (f e)).length = (element.encode e).length) :
    (packed (es.map f)).length = (packed es).length := by
  induction es with
  | nil => rfl
  | cons e es ih =>
      have hrest := ih fun e' he' => h e' (List.mem_cons_of_mem _ he')
      simp only [packed] at hrest
      simp only [packed, List.map_cons, List.flatMap_cons, List.length_append,
        h e List.mem_cons_self, hrest]

/-- **A permutation of a valid document is valid**, and of the same length. -/
theorem valid_perm {textOK : List UInt8 → Bool} {depth : Nat} {raw : List UInt8}
    {es : List Element} (hraw : Bson.valid textOK (depth + 1) raw = true)
    (h : es.Perm (fields raw)) :
    Bson.valid textOK (depth + 1) (encodeDoc es) = true
      ∧ (encodeDoc es).length = raw.length := by
  simp only [Bson.valid, Bool.and_eq_true, List.isEmpty_iff] at hraw
  obtain ⟨⟨hhead, hend⟩, hall⟩ := hraw
  have hlen : (encodeDoc es).length = raw.length := by
    have hraw := congrArg List.length (encodeDoc_fields hhead hend)
    rw [length_encodeDoc] at hraw ⊢
    rw [length_packed_perm h, hraw]
  refine ⟨?_, hlen⟩
  rw [valid_encodeDoc (fun e he => valid_of_mem_fields (h.mem_iff.mp he))
    (hlen ▸ (headerOK_iff.mp hhead).2.1)]
  exact List.all_eq_true.mpr fun e he => List.all_eq_true.mp hall e (h.mem_iff.mp he)

namespace MessageDocument

variable {lib : Libbson}

theorem valid_data (w : MessageDocument lib) :
    ∃ depth, lib.maxDepth = depth + 2 ∧ Bson.valid lib.textOK (depth + 1) w.data = true := by
  obtain ⟨depth, hdepth⟩ := lib.exists_depth
  have hmem : (⟨dataKey, .document w.data⟩ : Element) ∈ fields w.bytes :=
    List.mem_of_mem_filter (w.datas ▸ List.mem_singleton_self _)
  have hvalid := w.valid
  rw [bsonValidate, hdepth, Bson.valid, Bool.and_eq_true, List.all_eq_true] at hvalid
  have hdocs := (Bool.and_eq_true _ _ ▸ hvalid.2 _ hmem).2
  exact ⟨depth, hdepth, List.all_eq_true.mp hdocs w.data (List.mem_singleton_self _)⟩

/-- The only `data` field is the one the document names. -/
theorem eq_of_dataKey (w : MessageDocument lib) {e : Element} (he : e ∈ fields w.bytes)
    (hkey : e.key = dataKey) : e = ⟨dataKey, .document w.data⟩ := by
  have hmem : e ∈ (fields w.bytes).filter (·.key == dataKey) :=
    List.mem_filter.mpr ⟨he, by simp [hkey]⟩
  rw [w.datas] at hmem
  exact List.mem_singleton.mp hmem

end MessageDocument

namespace Reordering

variable {lib : Libbson} {w : MessageDocument lib}

theorem length_data (p : Reordering w) : (encodeDoc p.data).length = w.data.length := by
  obtain ⟨depth, -, hvalid⟩ := w.valid_data
  exact (valid_perm hvalid p.data_perm).2

theorem length_data_le (p : Reordering w) : (encodeDoc p.data).length ≤ maxSize := by
  obtain ⟨depth, -, hvalid⟩ := w.valid_data
  rw [p.length_data]
  simp only [Bson.valid, Bool.and_eq_true] at hvalid
  exact (headerOK_iff.mp hvalid.1.1).2.1

theorem mem_top (p : Reordering w) {e : Element} (he : e ∈ p.top) :
    e ∈ fields w.bytes ∨ e = ⟨dataKey, .document (encodeDoc p.data)⟩ := by
  obtain ⟨e₀, he₀, rfl⟩ := List.mem_map.mp (p.top_perm.mem_iff.mp he)
  by_cases hkey : e₀.key = dataKey
  · exact .inr (if_pos hkey)
  · exact .inl (by rwa [replaceData_of_ne hkey])

theorem valid_top (p : Reordering w) : ∀ e ∈ p.top, e.Valid := by
  intro e he
  rcases p.mem_top he with he | rfl
  · exact valid_of_mem_fields he
  · exact ⟨nul_not_mem_keys dataKey (by simp), valid_document p.length_data_le⟩

theorem length_top (p : Reordering w) : (encodeDoc p.top).length = w.bytes.length := by
  obtain ⟨hhead, hend⟩ := of_bsonValidate w.valid
  have hbytes := congrArg List.length (encodeDoc_fields hhead hend)
  rw [length_encodeDoc] at hbytes ⊢
  rw [length_packed_perm p.top_perm, length_packed_map, hbytes]
  intro e he
  by_cases hkey : e.key = dataKey
  · obtain rfl := w.eq_of_dataKey he hkey
    simp only [replaceData, if_true, length_element, Value.type, length_document, p.length_data]
  · rw [replaceData_of_ne hkey]

theorem fields_top (p : Reordering w) : fields (encodeDoc p.top) = p.top :=
  fields_encodeDoc p.valid_top

/-- **A reordered document is valid.** -/
theorem bsonValidate_top (p : Reordering w) : bsonValidate lib (encodeDoc p.top) = true := by
  obtain ⟨depth, hdepth, hdata⟩ := w.valid_data
  have hsize : (encodeDoc p.top).length ≤ maxSize := by
    rw [p.length_top]
    exact (headerOK_iff.mp (of_bsonValidate w.valid).1).2.1
  have hvalid := w.valid
  rw [bsonValidate, hdepth, Bson.valid, Bool.and_eq_true, List.all_eq_true] at hvalid
  rw [bsonValidate, hdepth, valid_encodeDoc p.valid_top hsize, List.all_eq_true]
  intro e he
  rcases p.mem_top he with he | rfl
  · exact hvalid.2 e he
  · have hkey : lib.textOK dataKey = true := textOK_keys lib dataKey (by simp)
    simp [Value.texts, Value.documents, hkey, (valid_perm hdata p.data_perm).1]

theorem filter_top {key : List UInt8} {e : Element} (p : Reordering w)
    (h : (fields w.bytes).filter (·.key == key) = [e]) :
    (fields (encodeDoc p.top)).filter (·.key == key)
      = [replaceData (encodeDoc p.data) e] := by
  have hmap : ((fields w.bytes).map (replaceData (encodeDoc p.data))).filter (·.key == key)
      = [replaceData (encodeDoc p.data) e] := by
    rw [List.filter_map, show (fun e => e.key == key) ∘ replaceData (encodeDoc p.data)
      = fun e => e.key == key from funext fun e => by simp, h]
    rfl
  rw [p.fields_top, ← List.perm_singleton, ← hmap]
  exact p.top_perm.filter _

theorem kinds_top (p : Reordering w) :
    (fields (encodeDoc p.top)).filter (·.key == kindKey) = [⟨kindKey, .int32 w.kind.code⟩] := by
  rw [p.filter_top w.kinds, replaceData_of_ne (Ne.symm dataKey_ne.1)]

theorem stamps_top (p : Reordering w) :
    (fields (encodeDoc p.top)).filter (·.key == timestampKey) = [⟨timestampKey, w.stamp⟩] := by
  rw [p.filter_top w.stamps, replaceData_of_ne (Ne.symm dataKey_ne.2)]

theorem datas_top (p : Reordering w) : (fields (encodeDoc p.top)).filter (·.key == dataKey)
    = [⟨dataKey, .document (encodeDoc p.data)⟩] := by
  rw [p.filter_top w.datas]
  rfl

/-- The document with the reordered fields. -/
def document (p : Reordering w) : MessageDocument lib where
  bytes := encodeDoc p.top
  kind := w.kind
  stamp := w.stamp
  data := encodeDoc p.data
  valid := p.bsonValidate_top
  kinds := p.kinds_top
  stamps := p.stamps_top
  datas := p.datas_top

end Reordering

/-! ## The last field with a key -/

/-- The value of the last field with a key: the one an assigning loop ends with. -/
def lastValue (key : List UInt8) (es : List Element) : Option Value :=
  ((es.filter (·.key == key)).getLast?).map Element.value

theorem lastValue_cons (key : List UInt8) (e : Element) (es : List Element) :
    lastValue key (e :: es)
      = (lastValue key es).or (if e.key = key then some e.value else none) := by
  by_cases he : e.key = key
  · rw [lastValue, List.filter_cons_of_pos (by simp [he]), List.getLast?_cons, lastValue,
      if_pos he]
    cases (es.filter (·.key == key)).getLast? <;> rfl
  · rw [lastValue, List.filter_cons_of_neg (by simp [he]), lastValue, if_neg he, Option.or_none]

theorem lastValue_perm {key : List UInt8} {es es' : List Element} (h : es.Perm es')
    (honce : (es.filter (·.key == key)).length ≤ 1) : lastValue key es = lastValue key es' := by
  have hperm := h.filter (·.key == key)
  have heq : es.filter (·.key == key) = es'.filter (·.key == key) := by
    cases hf : es.filter (·.key == key) with
    | nil => exact (List.nil_perm.mp (hf ▸ hperm)).symm
    | cons e tl =>
        obtain rfl : tl = [] := List.length_eq_zero_iff.mp (by rw [hf] at honce; simpa using honce)
        exact (List.singleton_perm.mp (hf ▸ hperm))
  rw [lastValue, lastValue, heq]

/-- The bytes the reader of a kind leaves in a message: those of the last field it
looks for. -/
def payloadBytes? : Kind → List Element → Option (List UInt8)
  | .ping, es => (lastValue digestKey es).map iterBinary
  | .event, es => (lastValue topicKey es).map iterUtf8
  | .pong, _ => none
  | .error, _ => none

def Message.withBytes (m : Message) : Option (List UInt8) → Message
  | some data => { m with word0 := .ptr data, word1 := .int (BitVec.ofNat 64 data.length) }
  | none => m

theorem foldl_lastValue {key : List UInt8} (mk : Value → Store)
    (hover : ∀ m v v', Store.apply (Store.apply m (mk v)) (mk v') = Store.apply m (mk v'))
    (es : List Element) (m : Message) :
    (es.filterMap fun e => if e.key = key then some (mk e.value) else none).foldl Store.apply m
      = ((lastValue key es).map fun v => Store.apply m (mk v)).getD m := by
  induction es generalizing m with
  | nil => rfl
  | cons e es ih =>
      rw [lastValue_cons]
      by_cases he : e.key = key
      · simp only [List.filterMap_cons, if_pos he, List.foldl_cons, ih]
        cases lastValue key es with
        | none => rfl
        | some v => exact hover m e.value v
      · simp only [List.filterMap_cons, if_neg he, ih, Option.or_none]

/-- **What a payload reader leaves behind.** -/
theorem foldl_payloadStores (k : Kind) (es : List Element) (m : Message) :
    (payloadStores k es).foldl Store.apply m = m.withBytes (payloadBytes? k es) := by
  cases k with
  | ping =>
      refine (foldl_lastValue (fun v => .digest (iterBinary v)) (fun _ _ _ => rfl) es m).trans ?_
      rw [payloadBytes?]
      cases lastValue digestKey es <;> rfl
  | event =>
      refine (foldl_lastValue (fun v => .topic (iterUtf8 v)) (fun _ _ _ => rfl) es m).trans ?_
      rw [payloadBytes?]
      cases lastValue topicKey es <;> rfl
  | pong | error => rfl

/-! ## Reading on each side of `data` -/

/-- What the fields without `data` make of a message. -/
def envelope (es : List Element) (m : Message) : Message :=
  { m with
    kind := ((lastValue kindKey es).map iterInt32).getD m.kind
    timestamp := ((lastValue timestampKey es).map iterInt64).getD m.timestamp }

theorem envelope_cons (e : Element) (es : List Element) (m : Message) :
    envelope (e :: es) m = envelope es
      (if e.key = kindKey then Store.apply m (.kind (iterInt32 e.value))
        else if e.key = timestampKey then Store.apply m (.timestamp (iterInt64 e.value))
        else m) := by
  by_cases hk : e.key = kindKey
  · have ht : e.key ≠ timestampKey := hk ▸ timestampKey_ne.symm
    simp only [envelope, lastValue_cons, if_pos hk, if_neg ht, Option.or_none, Store.apply]
    cases lastValue kindKey es <;> rfl
  · by_cases ht : e.key = timestampKey
    · simp only [envelope, lastValue_cons, if_neg hk, if_pos ht, Option.or_none, Store.apply]
      cases lastValue timestampKey es <;> rfl
    · simp only [envelope, lastValue_cons, if_neg hk, if_neg ht, Option.or_none]

theorem envelope_withBytes (es : List Element) (m : Message) (data? : Option (List UInt8)) :
    envelope es (m.withBytes data?) = (envelope es m).withBytes data? := by
  cases data? <;> rfl

theorem readFields_envelope (lib : Libbson) {pre : List Element}
    (hpre : ∀ e ∈ pre, e.key ≠ dataKey) (rest : List Element) (r : Reader) :
    ∃ r', readFields lib (pre ++ rest) r = readFields lib rest r'
      ∧ r'.msg = envelope pre r.msg := by
  induction pre generalizing r with
  | nil => exact ⟨r, rfl, rfl⟩
  | cons e pre ih =>
      have hpre' : ∀ e' ∈ pre, e'.key ≠ dataKey :=
        fun e' he' => hpre e' (List.mem_cons_of_mem _ he')
      rw [List.cons_append, readFields, envelope_cons, if_neg (hpre e List.mem_cons_self)]
      split_ifs with hk ht
      · exact ih hpre' (r.store (.kind (iterInt32 e.value)))
      · exact ih hpre' (r.store (.timestamp (iterInt64 e.value)))
      · exact ih hpre' r

/-- A field with this key comes before `data`. -/
def precedesData (key : List UInt8) (es : List Element) : Bool :=
  (es.takeWhile (·.key != dataKey)).any (·.key == key)

/-- What `ReadMessage` makes of a message, from where `kind` and `timestamp` stand
and from what each reader finds in `data`. -/
def readInto (kindFirst stampFirst : Bool) (k : Kind) (t : BitVec 64)
    (payload : Kind → Option (List UInt8)) (m : Message) : Message :=
  if kindFirst then
    { m with kind := k.code, timestamp := t }.withBytes (payload k)
  else
    match Kind.ofCode? m.kind with
    | some held => { m with kind := k.code, timestamp := t }.withBytes (payload held)
    | none => if stampFirst then { m with timestamp := t } else m

/-- The message a read leaves behind. -/
def finalMessage (lib : Libbson) (B : List UInt8) (prior : Message) : Except Halt Message :=
  (readMessage lib B (Reader.start prior)).map Reader.msg

theorem readFields_data {lib : Libbson} {d : Element} {raw : List UInt8} {post : List Element}
    {r : Reader} (hd : dataDoc? d = some raw) (hraw : headerOK raw = true)
    (hpost : ∀ e ∈ post, e.key ≠ dataKey) :
    (readFields lib (d :: post) r).map Reader.msg = .ok
      (match Kind.ofCode? r.msg.kind with
      | some held => envelope post (r.msg.withBytes (payloadBytes? held (fields raw)))
      | none => r.msg) := by
  obtain ⟨hkey, hval⟩ := dataDoc?_eq_some.mp hd
  rw [readFields_dataKey hkey, hval]
  cases hk : Kind.ofCode? r.msg.kind with
  | none =>
      rw [readData_invalid hraw hk]
      rfl
  | some held =>
      rw [readData_document hraw (Kind.ofCode?_eq_some.mp hk)]
      obtain ⟨r', hread, hmsg⟩ := readFields_envelope lib hpost []
        (r.run (payloadStores held (fields raw)))
      rw [List.append_nil] at hread
      simp only [hread, readFields, Except.map, hmsg, Reader.run_msg, foldl_payloadStores]

namespace MessageDocument

variable {lib : Libbson}

/-- The one `data` field, and no other on either side of it. -/
theorem split (w : MessageDocument lib) :
    ∃ pre post, fields w.bytes = pre ++ ⟨dataKey, .document w.data⟩ :: post
      ∧ (∀ e ∈ pre, e.key ≠ dataKey) ∧ ∀ e ∈ post, e.key ≠ dataKey := by
  obtain ⟨pre, post, hsplit, hpre, -, hpost⟩ := List.filter_eq_cons_iff.mp w.datas
  refine ⟨pre, post, hsplit, fun e he hkey => hpre e he (by simp [hkey]), fun e he hkey => ?_⟩
  exact List.filter_eq_nil_iff.mp hpost e he (by simp [hkey])

/-- **Either side of `data`.** A field that occurs once is before it or behind it. -/
theorem sides {pre post : List Element} {d e : Element} {key : List UInt8}
    (hpre : ∀ e ∈ pre, e.key ≠ dataKey) (hd : d.key = dataKey) (hne : key ≠ dataKey)
    (honce : (pre ++ d :: post).filter (·.key == key) = [e]) :
    lastValue key pre = (if precedesData key (pre ++ d :: post) then some e.value else none)
      ∧ lastValue key post
        = if precedesData key (pre ++ d :: post) then none else some e.value := by
  have htake : (pre ++ d :: post).takeWhile (·.key != dataKey) = pre := by
    rw [List.takeWhile_append_of_pos (by simpa using hpre),
      List.takeWhile_cons_of_neg (by simp [hd]), List.append_nil]
  have hskip : (d.key == key) ≠ true := by simp [hd, Ne.symm hne]
  simp only [List.filter_append, List.filter_cons, if_neg hskip] at honce
  simp only [precedesData, htake, lastValue]
  rcases List.append_eq_singleton_iff.mp honce with ⟨hl, hr⟩ | ⟨hl, hr⟩
  · have hany : pre.any (·.key == key) = false :=
      List.any_eq_false.mpr (List.filter_eq_nil_iff.mp hl)
    rw [hl, hr, hany]
    exact ⟨rfl, rfl⟩
  · have hmem : e ∈ pre.filter (·.key == key) := hl ▸ List.mem_singleton_self e
    have hany : pre.any (·.key == key) = true :=
      List.any_eq_true.mpr ⟨e, List.mem_filter.mp hmem⟩
    rw [hl, hr, hany]
    exact ⟨rfl, rfl⟩

/-- **`ReadMessage` on a document with its fields in any order.** -/
theorem readMessage_msg (w : MessageDocument lib) (prior : Message) :
    finalMessage lib w.bytes prior = .ok
      (readInto (precedesData kindKey (fields w.bytes)) (precedesData timestampKey (fields w.bytes))
        w.kind (iterInt64 w.stamp) (fun k => payloadBytes? k (fields w.data)) prior) := by
  obtain ⟨pre, post, hsplit, hpre, hpost⟩ := w.split
  have hraw : headerOK w.data = true := by
    refine headerOK_dataDoc? w.valid ⟨dataKey, .document w.data⟩ ?_ w.data ?_
    · rw [hsplit]
      simp
    · exact dataDoc?_eq_some.mpr ⟨rfl, rfl⟩
  obtain ⟨r, hread, hmsg⟩ := readFields_envelope lib hpre
    (⟨dataKey, .document w.data⟩ :: post) (Reader.start prior)
  obtain ⟨hkpre, hkpost⟩ := sides hpre rfl (Ne.symm dataKey_ne.1) (hsplit ▸ w.kinds)
  obtain ⟨htpre, htpost⟩ := sides hpre rfl (Ne.symm dataKey_ne.2) (hsplit ▸ w.stamps)
  rw [finalMessage, readMessage, hsplit, hread,
    readFields_data (dataDoc?_eq_some.mpr ⟨rfl, rfl⟩) hraw hpost, hmsg]
  simp only [envelope_withBytes, readInto, Reader.start_msg]
  simp only [envelope, hkpre, hkpost, htpre, htpost]
  cases precedesData kindKey (pre ++ ⟨dataKey, .document w.data⟩ :: post) with
  | true =>
      cases precedesData timestampKey (pre ++ ⟨dataKey, .document w.data⟩ :: post) <;>
        simp [iterInt32]
  | false =>
      cases precedesData timestampKey (pre ++ ⟨dataKey, .document w.data⟩ :: post) <;>
        cases hheld : Kind.ofCode? prior.kind <;> simp [iterInt32, hheld]

end MessageDocument

/-! ## The orders that read alike -/

theorem Message.withBytes_inj {m : Message} {v : BitVec 64} (hm : m.word0 = .int v)
    {x y : Option (List UInt8)} (h : m.withBytes x = m.withBytes y) : x = y := by
  have hword := congrArg Message.word0 h
  cases x <;> cases y <;> simp [Message.withBytes, hm] at hword ⊢
  exact hword

@[simp] theorem Message.withBytes_kind (m : Message) (data? : Option (List UInt8)) :
    (m.withBytes data?).kind = m.kind := by
  cases data? <;> rfl

section ReadInto

variable {k : Kind} {t : BitVec 64} {f f' : Kind → Option (List UInt8)}

theorem readInto_kindFirst (b : Bool) (m : Message) :
    readInto true b k t f m = { m with kind := k.code, timestamp := t }.withBytes (f k) := rfl

theorem readInto_held {m : Message} {held : Kind} (b : Bool) (hm : m.kind = held.code) :
    readInto false b k t f m
      = { m with kind := k.code, timestamp := t }.withBytes (f held) := by
  simp only [readInto, hm, Kind.ofCode?_code, Bool.false_eq_true, if_false]

theorem readInto_invalid {m : Message} (b : Bool) (hm : Kind.ofCode? m.kind = none) :
    readInto false b k t f m = if b then { m with timestamp := t } else m := by
  simp only [readInto, hm, Bool.false_eq_true, if_false]

/-- In a memory without a kind the two orders end in different kinds. -/
theorem readInto_kind_ne (b b' : Bool) :
    readInto true b k t f blank ≠ readInto false b' k t f' blank := by
  intro h
  have hkind := congrArg Message.kind h
  rw [readInto_kindFirst, readInto_invalid b' rfl, Message.withBytes_kind] at hkind
  cases k <;> cases b' <;> cases hkind

/-- Which differences a memory can bring out. With `kind` in front, none but in the
payload of that kind; with `kind` behind `data`, the payload of any kind, and
which side the timestamp is on. -/
theorem readInto_eq_iff {a a' b b' : Bool} :
    (∀ m, readInto a b k t f m = readInto a' b' k t f' m)
      ↔ (a = true ∧ a' = true ∧ f k = f' k)
        ∨ (a = false ∧ a' = false ∧ b = b' ∧ ∀ held, f held = f' held) := by
  constructor
  · intro h
    match a, a' with
    | true, true => exact .inl ⟨rfl, rfl, Message.withBytes_inj rfl (h blank)⟩
    | true, false => exact absurd (h blank) (readInto_kind_ne b b')
    | false, true => exact absurd (h blank).symm (readInto_kind_ne b' b)
    | false, false =>
        refine .inr ⟨rfl, rfl, ?_, fun held => ?_⟩
        · -- a stale timestamp that is not the document's
          have hstale := h { blank with timestamp := t + 1 }
          rw [readInto_invalid b rfl, readInto_invalid b' rfl] at hstale
          have hstamp := congrArg Message.timestamp hstale
          cases b <;> cases b' <;> simp at hstamp ⊢
        · -- a stale kind
          have hstale := h { blank with kind := held.code }
          rw [readInto_held b rfl, readInto_held b' rfl] at hstale
          exact Message.withBytes_inj rfl hstale
  · rintro (⟨rfl, rfl, hf⟩ | ⟨rfl, rfl, rfl, hf⟩) m
    · rw [readInto_kindFirst, readInto_kindFirst, hf]
    · rw [show f = f' from funext hf]

end ReadInto

namespace Reordering

variable {lib : Libbson} {w : MessageDocument lib}

/-- Either `kind` is in front of `data` in both orders and the last field that its
reader looks for in `data` is the same; or `kind` is behind `data` in both, the
timestamp is on one side of it, and no reader finds another last field. -/
def KeepsSides (p : Reordering w) : Prop :=
  (precedesData kindKey p.top = true ∧ precedesData kindKey (fields w.bytes) = true
      ∧ payloadBytes? w.kind p.data = payloadBytes? w.kind (fields w.data))
    ∨ (precedesData kindKey p.top = false ∧ precedesData kindKey (fields w.bytes) = false
      ∧ precedesData timestampKey p.top = precedesData timestampKey (fields w.bytes)
      ∧ ∀ k, payloadBytes? k p.data = payloadBytes? k (fields w.data))

/-- What the readers look for in `data` is there at most once. -/
def Once (es : List Element) : Prop :=
  (es.filter (·.key == digestKey)).length ≤ 1 ∧ (es.filter (·.key == topicKey)).length ≤ 1

theorem payloadBytes?_perm {es es' : List Element} (h : es.Perm es') (honce : Once es) (k : Kind) :
    payloadBytes? k es = payloadBytes? k es' := by
  cases k with
  | ping => simp only [payloadBytes?, lastValue_perm h honce.1]
  | event => simp only [payloadBytes?, lastValue_perm h honce.2]
  | pong | error => rfl

/-- With `kind` in front and no field of `data` repeated, the order does not matter. -/
theorem keepsSides_of_kindFirst {p : Reordering w} (hp : precedesData kindKey p.top = true)
    (hw : precedesData kindKey (fields w.bytes) = true) (honce : Once p.data) : p.KeepsSides :=
  .inl ⟨hp, hw, payloadBytes?_perm p.data_perm honce w.kind⟩

/-- **When the order does not matter.** Exactly when `kind` stays on its side of
`data`, and with it what depends on it. -/
theorem readMessage_reordered_iff (p : Reordering w) :
    (∀ prior, finalMessage lib p.document.bytes prior = finalMessage lib w.bytes prior)
      ↔ p.KeepsSides := by
  have hdata : fields p.document.data = p.data :=
    fields_encodeDoc fun e he => valid_of_mem_fields (p.data_perm.mem_iff.mp he)
  have htop : fields p.document.bytes = p.top := p.fields_top
  simp only [MessageDocument.readMessage_msg, htop, hdata, Except.ok.injEq]
  exact readInto_eq_iff

end Reordering

/-! ## What the writers emit -/

namespace WireMessage

variable {lib : Libbson}

theorem filter_bytes (w : WireMessage lib) :
    (fields w.bytes).filter (·.key == kindKey) = [⟨kindKey, .int32 w.payload.kind.code⟩]
      ∧ (fields w.bytes).filter (·.key == timestampKey) = [⟨timestampKey, w.stamp⟩]
      ∧ (fields w.bytes).filter (·.key == dataKey)
        = [⟨dataKey, .document (encodeDoc (payloadFields w.payload))⟩] := by
  rw [w.fields_bytes]
  exact ⟨rfl, rfl, rfl⟩

def document (w : WireMessage lib) : MessageDocument lib where
  bytes := w.bytes
  kind := w.payload.kind
  stamp := w.stamp
  data := encodeDoc (payloadFields w.payload)
  valid := w.bsonValidate_bytes
  kinds := w.filter_bytes.1
  stamps := w.filter_bytes.2.1
  datas := w.filter_bytes.2.2

/-- Both writers put `kind` in front. -/
theorem precedesData_bytes (w : WireMessage lib) :
    precedesData kindKey (fields w.document.bytes) = true
      ∧ precedesData timestampKey (fields w.document.bytes) = true := by
  have hfields : fields w.document.bytes = _ := w.fields_bytes
  rw [hfields]
  exact ⟨rfl, rfl⟩

theorem map_replaceData (w : WireMessage lib) :
    (fields w.document.bytes).map (replaceData (encodeDoc (payloadFields w.payload)))
      = messageFields w.payload.kind w.stamp (payloadFields w.payload) := by
  have hfields : fields w.document.bytes = _ := w.fields_bytes
  rw [hfields]
  rfl

theorem data_perm (w : WireMessage lib) :
    (payloadFields w.payload).Perm (fields w.document.data) := by
  have hdata : fields w.document.data = _ := w.fields_data
  rw [hdata]

/-- The writers' three fields in another order. -/
def reorder (w : WireMessage lib) (top : List Element)
    (h : top.Perm (messageFields w.payload.kind w.stamp (payloadFields w.payload))) :
    Reordering w.document where
  data := payloadFields w.payload
  top := top
  data_perm := w.data_perm
  top_perm := w.map_replaceData.symm ▸ h

end WireMessage

/-! ## Two reorderings of one ping -/

theorem stamp_first_perm :
    [⟨timestampKey, .int64 12937⟩, ⟨kindKey, .int32 Kind.ping.code⟩,
      ⟨dataKey, .document (encodeDoc (payloadFields (.ping [7])))⟩].Perm
      (messageFields .ping (.int64 12937) (payloadFields (.ping [7]))) := by
  decide

theorem data_first_perm :
    [⟨dataKey, .document (encodeDoc (payloadFields (.ping [7])))⟩,
      ⟨kindKey, .int32 Kind.ping.code⟩, ⟨timestampKey, .int64 12937⟩].Perm
      (messageFields .ping (.int64 12937) (payloadFields (.ping [7]))) := by
  decide

theorem readMessage_stamp_first : ∀ prior,
    finalMessage .lenient (smallPing.reorder _ stamp_first_perm).document.bytes prior
      = finalMessage .lenient smallPing.document.bytes prior :=
  (Reordering.readMessage_reordered_iff (smallPing.reorder _ stamp_first_perm)).mpr
    (Reordering.keepsSides_of_kindFirst rfl smallPing.precedesData_bytes.1 ⟨by decide, by decide⟩)

theorem data_first_is_not_read :
    ¬∀ (lib : Libbson) (w : MessageDocument lib) (p : Reordering w) (prior : Message),
      finalMessage lib p.document.bytes prior = finalMessage lib w.bytes prior := by
  intro h
  have hread := h .lenient smallPing.document (smallPing.reorder _ data_first_perm) blank
  rw [MessageDocument.readMessage_msg, MessageDocument.readMessage_msg] at hread
  have hkind := congrArg Message.kind (Except.ok.inj hread)
  exact absurd hkind (by decide +kernel)

end Vespa
