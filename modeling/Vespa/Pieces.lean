import Mathlib.Data.List.Basic
import Mathlib.Logic.Function.Iterate
import Mathlib.Tactic.SplitIfs

/-!
# Streams that arrive in pieces

A reader takes a value off the front of a stream and leaves the rest. What it
takes from a stream it is handed whole is settled by its definition; a
connection hands it over in pieces, cut where the transport likes.

`Takes` says that some symbols are a frame of a reader's; `call_of_takes` reads
any number of frames one after another. `Refines` says that a reader of pieces
does what a reader of the whole stream does, and `Refines.call` carries that
to every call.
-/

namespace Vespa

universe u v

variable {α : Type u} {β : Type v}

/-! ## Calls -/

/-- The `k`-th of the calls of a reader on one state, from 0. -/
def call {σ : Type u} (read : σ → β × σ) (k : Nat) (s : σ) : β × σ :=
  read ((fun s => (read s).2)^[k] s)

theorem call_succ {σ : Type u} (read : σ → β × σ) (k : Nat) (s : σ) :
    call read (k + 1) s = call read k (read s).2 := by
  rw [call, Function.iterate_succ_apply]
  rfl

/-- `read` takes `frame` for `b`, whatever follows it. -/
def Takes (read : List α → β × List α) (frame : List α) (b : β) : Prop :=
  ∀ rest, read (frame ++ rest) = (b, rest)

/-- **Frame after frame.** The `k`-th call returns the `k`-th frame's value and leaves
the frames after it. -/
theorem call_of_takes {ι : Type v} {read : List α → β × List α} {frame : ι → List α}
    {value : ι → β} (htakes : ∀ i, Takes read (frame i) (value i)) (rest : List α) :
    ∀ (is : List ι) (k : Nat) (hk : k < is.length),
      call read k (is.flatMap frame ++ rest)
        = (value is[k], (is.drop (k + 1)).flatMap frame ++ rest)
  | i :: is, 0, _ => by
      rw [List.flatMap_cons, List.append_assoc]
      exact htakes i _
  | i :: is, k + 1, hk => by
      rw [List.flatMap_cons, List.append_assoc, call_succ, htakes i]
      exact call_of_takes htakes rest is k (Nat.lt_of_succ_lt_succ hk)

/-! ## Pieces -/

/-- What the reads of a connection return, up to its end. -/
abbrev Pieces (α : Type u) := List (List α)

/-- Fill a buffer of `n` symbols, read after read. A read that brings more than is
left to fill keeps the rest for the next. -/
def Pieces.readFull : Nat → Pieces α → Option (List α) × Pieces α
  | 0, ps => (some [], ps)
  | _ + 1, [] => (none, [])
  | n + 1, p :: ps =>
    if n + 1 < p.length then (some (p.take (n + 1)), p.drop (n + 1) :: ps)
    else
      match readFull (n + 1 - p.length) ps with
      | (none, ps) => (none, ps)
      | (some symbols, ps) => (some (p ++ symbols), ps)

/-- **Pieces do not show** in what fills the buffer, nor in what is left. -/
theorem Pieces.readFull_of_le {n : Nat} {ps : Pieces α} (h : n ≤ ps.flatten.length) :
    (ps.readFull n).1 = some (ps.flatten.take n)
      ∧ (ps.readFull n).2.flatten = ps.flatten.drop n := by
  induction ps generalizing n with
  | nil =>
      obtain rfl : n = 0 := Nat.le_zero.mp h
      exact ⟨rfl, rfl⟩
  | cons p ps ih =>
      cases n with
      | zero => exact ⟨rfl, rfl⟩
      | succ n =>
          simp only [readFull, List.flatten_cons]
          split_ifs with hlt
          · -- the piece has more than is wanted
            have hle : n + 1 ≤ p.length := Nat.le_of_lt hlt
            rw [List.take_append_of_le_length hle, List.drop_append_of_le_length hle]
            exact ⟨rfl, rfl⟩
          · have hle : p.length ≤ n + 1 := Nat.le_of_not_lt hlt
            rw [List.flatten_cons, List.length_append] at h
            obtain ⟨htake, hdrop⟩ := @ih (n + 1 - p.length) (by omega)
            rw [List.take_append, List.drop_append, List.take_of_length_le hle,
              List.drop_eq_nil_of_le hle, List.nil_append]
            cases hread : readFull (n + 1 - p.length) ps with
            | mk filled left =>
                rw [hread] at htake hdrop
                obtain rfl : filled = _ := htake
                exact ⟨rfl, hdrop⟩

/-- A stream that ends first is used up. -/
theorem Pieces.readFull_of_lt {n : Nat} {ps : Pieces α} (h : ps.flatten.length < n) :
    ps.readFull n = (none, []) := by
  induction ps generalizing n with
  | nil =>
      cases n with
      | zero => cases h
      | succ n => rfl
  | cons p ps ih =>
      rw [List.flatten_cons, List.length_append] at h
      cases n with
      | zero => cases h
      | succ n =>
          have hge : ¬n + 1 < p.length := by omega
          rw [readFull, if_neg hge, ih (by omega)]

/-- `readPieces` does what `read` does on the stream they make up. -/
def Refines (readPieces : Pieces α → β × Pieces α) (read : List α → β × List α) : Prop :=
  ∀ ps : Pieces α, (readPieces ps).1 = (read ps.flatten).1
    ∧ (readPieces ps).2.flatten = (read ps.flatten).2

/-- **Call after call**, the cut of the stream does not show. -/
theorem Refines.call {readPieces : Pieces α → β × Pieces α} {read : List α → β × List α}
    (h : Refines readPieces read) :
    ∀ k, Refines (call readPieces k) (call read k)
  | 0 => h
  | k + 1 => fun ps => by
      rw [call_succ, call_succ, ← (h ps).2]
      exact h.call k (readPieces ps).2

end Vespa
