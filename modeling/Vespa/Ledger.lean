import Mathlib.Algebra.BigOperators.Group.Finset.Basic
import Mathlib.Data.Multiset.AddSub
import Mathlib.Data.Multiset.Count
import Vespa.Run

/-!
# Ledgers

A ledger is the multiset of the objects a program owns. Creating an object adds
an entry, releasing one removes it; removing what is not there is an error, so
a ledger that can be kept says that nothing was released twice.

`Machine.accounts` is the rule for runs. What each event adds is either removed
again, or owed by the state after it, or left behind; a run then owes what its
last state owes, and has left behind what its events left behind.
-/

namespace Vespa

universe u v w

inductive Entry (α : Type u) where
  | add (a : α)
  | remove (a : α)
deriving DecidableEq, Repr

variable {α : Type u} [DecidableEq α]

namespace Ledger

def post (l : Multiset α) : Entry α → Option (Multiset α)
  | .add a => some (a ::ₘ l)
  | .remove a => if a ∈ l then some (l.erase a) else none

def postAll : Multiset α → List (Entry α) → Option (Multiset α)
  | l, [] => some l
  | l, x :: xs => (post l x).bind fun l => postAll l xs

variable {l l' : Multiset α} {xs ys : List (Entry α)} {a : α}

@[simp] theorem postAll_nil : postAll l [] = some l := rfl

@[simp] theorem postAll_add : postAll l (.add a :: xs) = postAll (a ::ₘ l) xs := rfl

theorem postAll_remove (h : a ∈ l) : postAll l (.remove a :: xs) = postAll (l.erase a) xs := by
  rw [postAll, post, if_pos h]
  rfl

theorem postAll_add_remove : postAll l (.add a :: .remove a :: xs) = postAll l xs := by
  rw [postAll_add, postAll_remove (Multiset.mem_cons_self a l), Multiset.erase_cons_head]

theorem postAll_append : postAll l (xs ++ ys) = (postAll l xs).bind (postAll · ys) := by
  induction xs generalizing l with
  | nil => rfl
  | cons x xs ih =>
      rw [List.cons_append, postAll, postAll]
      cases post l x with
      | none => rfl
      | some l' => exact ih

theorem postAll_adds (as : List α) : postAll l (as.map .add) = some (as + l) := by
  induction as generalizing l with
  | nil => simp
  | cons a as ih =>
      rw [List.map_cons, postAll_add, ih, Multiset.add_cons, ← Multiset.cons_coe,
        Multiset.cons_add]

theorem postAll_removes {as : List α} (h : ∀ a, as.count a ≤ l.count a) :
    (postAll l (as.map .remove)).isSome := by
  induction as generalizing l with
  | nil => rfl
  | cons a as ih =>
      have hmem : a ∈ l := by
        have ha := h a
        rw [List.count_cons_self] at ha
        exact Multiset.count_pos.mp (Nat.lt_of_lt_of_le (Nat.succ_pos _) ha)
      rw [List.map_cons, postAll_remove hmem]
      refine ih fun b => ?_
      have hb := h b
      by_cases hba : b = a
      · subst hba
        rw [List.count_cons_self] at hb
        rw [Multiset.count_erase_self]
        omega
      · rw [List.count_cons_of_ne (Ne.symm hba)] at hb
        rwa [Multiset.count_erase_of_ne hba]

theorem postAll_removes_add (bs : List α) (l : Multiset α) :
    postAll ((bs : Multiset α) + l) (bs.map .remove) = some l := by
  induction bs with
  | nil => simp
  | cons b bs ih =>
      rw [List.map_cons, postAll_remove (by simp), ← Multiset.cons_coe, Multiset.cons_add,
        Multiset.erase_cons_head]
      exact ih

/-- What is left of what was taken, when some of it is given back. -/
theorem postAll_adds_removes {as bs : List α} (cs : List α) (h : as.Perm (bs ++ cs)) :
    postAll 0 (as.map .add ++ bs.map .remove) = some (cs : Multiset α) := by
  have htaken : (as : Multiset α) + 0 = ↑bs + ↑cs := by
    rw [add_zero]
    exact Multiset.coe_eq_coe.mpr h
  rw [postAll_append, postAll_adds, htaken]
  exact postAll_removes_add bs cs

@[simp] theorem count_remove_map_remove (as : List α) (a : α) :
    (as.map Entry.remove).count (.remove a) = as.count a :=
  List.count_map_of_injective as Entry.remove (fun _ _ => Entry.remove.inj) a

@[simp] theorem count_add_map_remove (as : List α) (a : α) :
    (as.map Entry.remove).count (.add a) = 0 := by
  simp [List.count_eq_zero]

@[simp] theorem count_add_map_add (as : List α) (a : α) :
    (as.map Entry.add).count (.add a) = as.count a :=
  List.count_map_of_injective as Entry.add (fun _ _ => Entry.add.inj) a

@[simp] theorem count_remove_map_add (as : List α) (a : α) :
    (as.map Entry.add).count (.remove a) = 0 := by
  simp [List.count_eq_zero]

@[simp] theorem count_add_cons_add (b : α) (xs : List (Entry α)) (a : α) :
    (Entry.add b :: xs).count (.add a) = [b].count a + xs.count (.add a) := by
  rw [← count_add_map_add [b], ← List.count_append]
  rfl

@[simp] theorem count_add_cons_remove (b : α) (xs : List (Entry α)) (a : α) :
    (Entry.remove b :: xs).count (.add a) = xs.count (.add a) := by
  simp

@[simp] theorem count_remove_cons_add (b : α) (xs : List (Entry α)) (a : α) :
    (Entry.add b :: xs).count (.remove a) = xs.count (.remove a) := by
  simp

@[simp] theorem count_remove_cons_remove (b : α) (xs : List (Entry α)) (a : α) :
    (Entry.remove b :: xs).count (.remove a) = [b].count a + xs.count (.remove a) := by
  simp [List.count_cons, Nat.add_comm]

/-- **Conservation.** What was there and what was added is there or was removed. -/
theorem count_postAll (h : postAll l xs = some l') (a : α) :
    l'.count a + xs.count (.remove a) = l.count a + xs.count (.add a) := by
  induction xs generalizing l with
  | nil => obtain rfl := Option.some.inj h; simp
  | cons x xs ih =>
      have hcons : ∀ (b : α) (l : Multiset α), (b ::ₘ l).count a = [b].count a + l.count a := by
        intro b l
        rw [← Multiset.singleton_add, Multiset.count_add, ← Multiset.coe_singleton,
          Multiset.coe_count]
      cases x with
      | add b =>
          have hrest := ih (l := b ::ₘ l) h
          rw [hcons] at hrest
          rw [count_add_cons_add, count_remove_cons_add]
          omega
      | remove b =>
          by_cases hb : b ∈ l
          · rw [postAll_remove hb] at h
            have hrest := ih h
            have hl := hcons b (l.erase b)
            rw [Multiset.cons_erase hb] at hl
            rw [count_add_cons_remove, count_remove_cons_remove]
            omega
          · rw [postAll, post, if_neg hb] at h
            cases h

/-- What is in a ledger was there or was added. -/
theorem mem_of_postAll (h : postAll l xs = some l') (ha : a ∈ l') : a ∈ l ∨ .add a ∈ xs := by
  have hcount := count_postAll h a
  have hpos := Multiset.count_pos.mpr ha
  by_cases hl : a ∈ l
  · exact .inl hl
  · rw [Multiset.count_eq_zero.mpr hl] at hcount
    exact .inr (List.count_pos_iff.mp (by omega))

/-! ## Holders -/

section
variable {ι : Type v} [Fintype ι]

theorem sum_update [DecidableEq ι] (f : ι → Nat) (i : ι) (n : Nat) :
    (∑ j, Function.update f i n j) + f i = (∑ j, f j) + n := by
  rw [← Finset.add_sum_erase _ _ (Finset.mem_univ i),
    ← Finset.add_sum_erase (Finset.univ) f (Finset.mem_univ i), Function.update_self]
  have hothers : ∑ j ∈ Finset.univ.erase i, Function.update f i n j
      = ∑ j ∈ Finset.univ.erase i, f j :=
    Finset.sum_congr rfl fun j hj => Function.update_of_ne (Finset.ne_of_mem_erase hj) ..
  omega

/-- How many of an object a family of holders has. -/
def held (objects : ι → List α) (a : α) : Nat := ∑ i, (objects i).count a

theorem held_update [DecidableEq ι] (objects : ι → List α) (i : ι) (xs : List α) (a : α) :
    held (Function.update objects i xs) a + (objects i).count a
      = held objects a + xs.count a := by
  have hcounts : held (Function.update objects i xs) a
      = ∑ j, Function.update (fun j => (objects j).count a) i (xs.count a) j :=
    Finset.sum_congr rfl fun j _ =>
      Function.apply_update (fun _ xs => List.count a xs) objects i xs j
  rw [hcounts]
  exact sum_update (fun j => (objects j).count a) i (xs.count a)

theorem count_le_held [DecidableEq ι] (objects : ι → List α) (i : ι) (a : α) :
    (objects i).count a ≤ held objects a := by
  have hsplit := Finset.add_sum_erase Finset.univ (fun i => (objects i).count a)
    (Finset.mem_univ i)
  rw [held]
  omega

end

end Ledger

open Ledger

/-- **Accounts of a run.** `owed` is what a state has yet to release, `left` what an
event leaves behind for good. -/
theorem Machine.accounts {σ : Type v} {ε : Type w} {M : Machine σ ε} {P : σ → Prop}
    {posts : σ → ε → List (Entry α)} {owed : σ → α → Nat} (left : σ → ε → List α)
    (kept : ∀ s e s', P s → M.step s e = some s' → P s')
    (covered : ∀ s e s' (l : Multiset α), P s → M.step s e = some s' →
      (∀ a, owed s a ≤ l.count a) → (postAll l (posts s e)).isSome)
    (balanced : ∀ s e s' a, P s → M.step s e = some s' →
      (posts s e).count (.add a) + owed s a
        = (posts s e).count (.remove a) + owed s' a + (left s e).count a)
    {es : List ε} {s s' : σ} {l : Multiset α} (hs : P s) (h : M.exec s es = some s')
    (howed : ∀ a, owed s a ≤ l.count a) :
    ∃ l', postAll l (M.trace posts s es) = some l'
      ∧ ∀ a, l'.count a + owed s a = l.count a + owed s' a + (M.trace left s es).count a := by
  induction es generalizing s l with
  | nil =>
      obtain rfl := Option.some.inj h
      exact ⟨l, rfl, fun a => by rw [trace, List.count_nil]; omega⟩
  | cons e es ih =>
      obtain ⟨s₁, he, hrest⟩ := Option.bind_eq_some_iff.mp h
      obtain ⟨l₁, hl₁⟩ := Option.isSome_iff_exists.mp (covered s e s₁ l hs he howed)
      have hcount : ∀ a, l₁.count a + owed s a
          = l.count a + owed s₁ a + (left s e).count a := fun a => by
        have h₁ := count_postAll hl₁ a
        have h₂ := balanced s e s₁ a hs he
        omega
      obtain ⟨l', hl', hcount'⟩ := ih (l := l₁) (kept s e s₁ hs he) hrest fun a => by
        have h₁ := hcount a
        have h₂ := howed a
        omega
      refine ⟨l', ?_, fun a => ?_⟩
      · rw [trace_cons_of_step he, postAll_append, hl₁]
        exact hl'
      · rw [trace_cons_of_step he, List.count_append]
        have h₁ := hcount a
        have h₂ := hcount' a
        omega

end Vespa
