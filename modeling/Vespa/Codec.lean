import Mathlib.Data.List.Basic
import Mathlib.Tactic.Linarith
import Mathlib.Tactic.Ring
import Mathlib.Tactic.SplitIfs

/-!
# Codecs: printers and prefix parsers that undo each other

A `Codec α` pairs a printer with a parser that reads one value off the
front of a byte string, and carries the one law every use of it needs:
the parser returns `a` and `rest` exactly when `a` is a value the format
can carry and the input is `a`'s encoding followed by `rest`. Both the
round trip (`decode_encode`) and the canonicity of what is accepted
(`of_decode`) are read off that law.

The combinators (`seq`, `inj`, `filter`, `dep`) keep the law, so a format
assembled from them is lawful by construction. `dep` is the one that
matters: a tag is read first and chooses the codec of what follows, which
covers type bytes, length prefixes and redundant lengths alike.

`decodeMany` is the loop over a packed run of values; it stops at the
first one that does not parse and reports what is left.
-/

namespace Vespa

/-! ## Little-endian numbers -/

/-- The `n` low-order bytes of `v`, least significant first. -/
def leBytes : Nat → Nat → List UInt8
  | 0, _ => []
  | n + 1, v => UInt8.ofNat v :: leBytes n (v / 256)

def leNat : List UInt8 → Nat
  | [] => 0
  | b :: bs => b.toNat + 256 * leNat bs

@[simp] theorem leBytes_length : ∀ (n v : Nat), (leBytes n v).length = n
  | 0, _ => rfl
  | n + 1, v => by simp [leBytes, leBytes_length n]

theorem leNat_leBytes : ∀ (n v : Nat), leNat (leBytes n v) = v % 256 ^ n
  | 0, v => by simp [leBytes, leNat, Nat.mod_one]
  | n + 1, v => by
      have hlow : (UInt8.ofNat v).toNat = v % 256 := by simp
      rw [leBytes, leNat, hlow, leNat_leBytes n, Nat.pow_succ', Nat.mod_mul]

theorem leNat_lt (bs : List UInt8) : leNat bs < 256 ^ bs.length := by
  induction bs with
  | nil => simp [leNat]
  | cons b bs ih =>
      have hb : b.toNat < 256 := b.toNat_lt
      rw [leNat, List.length_cons, Nat.pow_succ']
      omega

theorem leBytes_leNat (bs : List UInt8) : leBytes bs.length (leNat bs) = bs := by
  induction bs with
  | nil => rfl
  | cons b bs ih =>
      have hb : b.toNat < 256 := b.toNat_lt
      have hlow : UInt8.ofNat (b.toNat + 256 * leNat bs) = b := by
        apply UInt8.toNat_inj.mp
        rw [UInt8.toNat_ofNat']
        omega
      have hhigh : (b.toNat + 256 * leNat bs) / 256 = leNat bs := by omega
      rw [List.length_cons, leNat, leBytes, hlow, hhigh, ih]

theorem leNat_leBytes_of_lt {n v : Nat} (h : v < 256 ^ n) :
    leNat (leBytes n v) = v := by
  rw [leNat_leBytes, Nat.mod_eq_of_lt h]

def ascii (s : String) : List UInt8 := s.toList.map fun c => UInt8.ofNat c.toNat

/-! ## Lawful codecs -/

/-- A printer, a prefix parser, the values the format can carry, and the
law that ties the three together. -/
structure Codec (α : Type) where
  encode : α → List UInt8
  decode : List UInt8 → Option (α × List UInt8)
  Valid : α → Prop
  decode_eq_some : ∀ {bs a rest},
    decode bs = some (a, rest) ↔ Valid a ∧ bs = encode a ++ rest

namespace Codec

variable {α β : Type}

theorem decode_encode (c : Codec α) {a : α} (h : c.Valid a) (rest : List UInt8) :
    c.decode (c.encode a ++ rest) = some (a, rest) :=
  c.decode_eq_some.mpr ⟨h, rfl⟩

theorem of_decode (c : Codec α) {bs rest : List UInt8} {a : α}
    (h : c.decode bs = some (a, rest)) : c.Valid a ∧ bs = c.encode a ++ rest :=
  c.decode_eq_some.mp h

def bytes (n : Nat) : Codec (List UInt8) where
  encode a := a
  decode bs := if n ≤ bs.length then some (bs.take n, bs.drop n) else none
  Valid a := a.length = n
  decode_eq_some {bs a rest} := by
    constructor
    · intro h
      split at h
      · obtain ⟨rfl, rfl⟩ := Prod.mk.inj (Option.some.inj h)
        exact ⟨List.length_take_of_le ‹_›, (List.take_append_drop n bs).symm⟩
      · cases h
    · rintro ⟨rfl, rfl⟩
      simp

def nat (n : Nat) : Codec Nat where
  encode v := leBytes n v
  decode bs := if n ≤ bs.length then some (leNat (bs.take n), bs.drop n) else none
  Valid v := v < 256 ^ n
  decode_eq_some {bs v rest} := by
    constructor
    · intro h
      split at h
      · rename_i hle
        obtain ⟨rfl, rfl⟩ := Prod.mk.inj (Option.some.inj h)
        have hlen : (bs.take n).length = n := List.length_take_of_le hle
        have hlt := leNat_lt (bs.take n)
        have hback := leBytes_leNat (bs.take n)
        rw [hlen] at hlt hback
        exact ⟨hlt, by rw [hback, List.take_append_drop]⟩
      · cases h
    · rintro ⟨hv, rfl⟩
      simp [leNat_leBytes_of_lt hv]

/-- A byte string up to its first NUL, which is consumed. -/
def takeCString : List UInt8 → Option (List UInt8 × List UInt8)
  | [] => none
  | b :: bs =>
    if b = 0 then some ([], bs)
    else (takeCString bs).map fun (s, rest) => (b :: s, rest)

theorem takeCString_eq_some : ∀ {bs s rest : List UInt8},
    takeCString bs = some (s, rest) ↔ 0 ∉ s ∧ bs = (s ++ [0]) ++ rest
  | [], s, rest => by simp [takeCString]
  | b :: bs, s, rest => by
      by_cases hb : b = 0
      · subst hb
        cases s <;> simp [takeCString]
        intro h
        simp [h]
      · have ih := @takeCString_eq_some bs
        cases s with
        | nil => simp [takeCString, hb]
        | cons x xs =>
            have hx := @ih xs rest
            simp only [takeCString, if_neg hb, Option.map_eq_some_iff,
              Prod.exists, Prod.mk.injEq, List.cons.injEq]
            constructor
            · rintro ⟨s', r', hdec, ⟨rfl, rfl⟩, rfl⟩
              obtain ⟨hnul, rfl⟩ := hx.mp hdec
              exact ⟨by simp [hnul, Ne.symm hb], by simp⟩
            · rintro ⟨hnul, heq⟩
              simp only [List.cons_append, List.cons.injEq] at heq
              obtain ⟨rfl, rfl⟩ := heq
              have hxs : (0 : UInt8) ∉ xs := fun h => hnul (List.mem_cons_of_mem _ h)
              exact ⟨xs, rest, hx.mpr ⟨hxs, rfl⟩, ⟨rfl, rfl⟩, rfl⟩

def cstring : Codec (List UInt8) where
  encode s := s ++ [0]
  decode := takeCString
  Valid s := 0 ∉ s
  decode_eq_some := takeCString_eq_some

def unit : Codec Unit where
  encode _ := []
  decode bs := some ((), bs)
  Valid _ := True
  decode_eq_some {bs a rest} := by simp

def fail : Codec α where
  encode _ := []
  decode _ := none
  Valid _ := False
  decode_eq_some := by simp

def seq (c : Codec α) (d : Codec β) : Codec (α × β) where
  encode p := c.encode p.1 ++ d.encode p.2
  decode bs :=
    match c.decode bs with
    | none => none
    | some (a, bs') => (d.decode bs').map fun (b, rest) => ((a, b), rest)
  Valid p := c.Valid p.1 ∧ d.Valid p.2
  decode_eq_some {bs p rest} := by
    obtain ⟨a, b⟩ := p
    constructor
    · intro h
      split at h
      · cases h
      · rename_i a' bs' hc
        obtain ⟨ha, rfl⟩ := c.of_decode hc
        obtain ⟨⟨b', rest'⟩, hd, heq⟩ := Option.map_eq_some_iff.mp h
        obtain ⟨hb, rfl⟩ := d.of_decode hd
        obtain ⟨⟨rfl, rfl⟩, rfl⟩ : (a' = a ∧ b' = b) ∧ rest' = rest := by
          simpa using heq
        exact ⟨⟨ha, hb⟩, by simp⟩
    · rintro ⟨⟨ha, hb⟩, rfl⟩
      simp [c.decode_encode ha, d.decode_encode hb]

/-- The same format under a constructor `mk` whose partial inverse is `un`. -/
def inj (c : Codec α) (mk : α → β) (un : β → Option α)
    (hun : ∀ {a b}, un b = some a ↔ b = mk a) : Codec β where
  encode b := ((un b).map c.encode).getD []
  decode bs := (c.decode bs).map fun (a, rest) => (mk a, rest)
  Valid b := ∃ a, b = mk a ∧ c.Valid a
  decode_eq_some {bs b rest} := by
    constructor
    · intro h
      obtain ⟨⟨a, rest'⟩, hc, heq⟩ := Option.map_eq_some_iff.mp h
      obtain ⟨ha, rfl⟩ := c.of_decode hc
      obtain ⟨rfl, rfl⟩ : mk a = b ∧ rest' = rest := by simpa using heq
      exact ⟨⟨a, rfl, ha⟩, by rw [hun.mpr rfl]; rfl⟩
    · rintro ⟨⟨a, rfl, ha⟩, rfl⟩
      rw [hun.mpr rfl]
      simp [c.decode_encode ha]

def filter (c : Codec α) (p : α → Bool) : Codec α where
  encode := c.encode
  decode bs :=
    match c.decode bs with
    | none => none
    | some (a, rest) => if p a then some (a, rest) else none
  Valid a := c.Valid a ∧ p a = true
  decode_eq_some {bs a rest} := by
    constructor
    · intro h
      split at h
      · cases h
      · rename_i a' rest' hc
        split at h
        · rename_i hp
          obtain ⟨rfl, rfl⟩ := Prod.mk.inj (Option.some.inj h)
          obtain ⟨ha, rfl⟩ := c.of_decode hc
          exact ⟨⟨ha, hp⟩, rfl⟩
        · cases h
    · rintro ⟨⟨ha, hp⟩, rfl⟩
      simp [c.decode_encode ha, hp]

def followedBy (c : Codec α) (w : UInt8) : Codec α where
  encode a := c.encode a ++ [w]
  decode bs :=
    match c.decode bs with
    | some (a, b :: rest) => if b = w then some (a, rest) else none
    | _ => none
  Valid := c.Valid
  decode_eq_some {bs a rest} := by
    constructor
    · intro h
      split at h
      · rename_i a' b rest' hc
        split at h
        · rename_i hb
          obtain ⟨rfl, rfl⟩ := Prod.mk.inj (Option.some.inj h)
          obtain ⟨ha, rfl⟩ := c.of_decode hc
          exact ⟨ha, by simp [hb]⟩
        · cases h
      · cases h
    · rintro ⟨ha, rfl⟩
      have hdec := c.decode_encode ha (w :: rest)
      simp only [List.append_assoc, List.cons_append, List.nil_append]
      rw [hdec]
      simp

/-- A tag, then a value in the format the tag names. `tag` recovers the tag
from the value, so a value is carried under its own tag only. -/
def dep (c : Codec α) (tag : β → α) (d : α → Codec β)
    (htag : ∀ {a b}, (d a).Valid b → tag b = a) : Codec β where
  encode b := c.encode (tag b) ++ (d (tag b)).encode b
  decode bs :=
    match c.decode bs with
    | none => none
    | some (a, bs') => (d a).decode bs'
  Valid b := c.Valid (tag b) ∧ (d (tag b)).Valid b
  decode_eq_some {bs b rest} := by
    constructor
    · intro h
      split at h
      · cases h
      · rename_i a bs' hc
        obtain ⟨ha, rfl⟩ := c.of_decode hc
        obtain ⟨hb, rfl⟩ := (d a).of_decode h
        obtain rfl := htag hb
        exact ⟨⟨ha, hb⟩, by simp⟩
    · rintro ⟨⟨ha, hb⟩, rfl⟩
      simp [c.decode_encode ha, (d (tag b)).decode_encode hb]

/-! ## Packed runs -/

/-- Decode values until one does not parse or the fuel runs out; the second
component is what was not consumed. -/
def decodeMany (c : Codec α) : Nat → List UInt8 → List α × List UInt8
  | 0, bs => ([], bs)
  | n + 1, bs =>
    match c.decode bs with
    | none => ([], bs)
    | some (a, bs') =>
      let r := c.decodeMany n bs'
      (a :: r.1, r.2)

theorem decodeMany_flatMap (c : Codec α) {rest : List UInt8} (hrest : c.decode rest = none)
    {as : List α} {n : Nat} (hvalid : ∀ a ∈ as, c.Valid a) (hn : as.length ≤ n) :
    c.decodeMany n (as.flatMap c.encode ++ rest) = (as, rest) := by
  induction as generalizing n with
  | nil => cases n <;> simp [decodeMany, hrest]
  | cons a as ih =>
      obtain ⟨n, rfl⟩ : ∃ m, n = m + 1 := ⟨n - 1, by simp only [List.length_cons] at hn; omega⟩
      have ha : c.Valid a := hvalid a (List.mem_cons_self ..)
      have has : ∀ a ∈ as, c.Valid a := fun x hx => hvalid x (List.mem_cons_of_mem _ hx)
      have hlen : as.length ≤ n := by simpa using hn
      rw [List.flatMap_cons, List.append_assoc, decodeMany, c.decode_encode ha]
      simp [ih has hlen]

/-- Whatever the input, what was decoded is valid and spells the part of it
that was consumed. -/
theorem of_decodeMany (c : Codec α) : ∀ (n : Nat) (bs : List UInt8),
    (∀ a ∈ (c.decodeMany n bs).1, c.Valid a)
      ∧ bs = (c.decodeMany n bs).1.flatMap c.encode ++ (c.decodeMany n bs).2
  | 0, bs => by simp [decodeMany]
  | n + 1, bs => by
      rw [decodeMany]
      split
      · simp
      · rename_i a bs' hc
        obtain ⟨ha, rfl⟩ := c.of_decode hc
        obtain ⟨hall, heq⟩ := of_decodeMany c n bs'
        refine ⟨fun x hx => ?_, ?_⟩
        · rcases List.mem_cons.mp hx with rfl | hx
          · exact ha
          · exact hall x hx
        · rw [List.flatMap_cons, List.append_assoc, ← heq]

theorem length_le_length_flatMap (c : Codec α) (hpos : ∀ a, c.encode a ≠ []) (as : List α) :
    as.length ≤ (as.flatMap c.encode).length := by
  induction as with
  | nil => simp
  | cons a as ih =>
      have ha : 0 < (c.encode a).length := List.length_pos_iff.mpr (hpos a)
      rw [List.flatMap_cons, List.length_append, List.length_cons]
      omega

end Codec

end Vespa
