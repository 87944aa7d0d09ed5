import Mathlib.Logic.Function.Basic

/-!
# Runs of an event-driven machine

`Halt` lists the ways a C process can end, or leave the language's defined
behaviour, inside one call.

A machine reacts to one event at a time; which events can occur depends on
its state. Everything said about a whole run goes through one induction,
`Invariant.reachable`.
-/

namespace Vespa

/-- How a call can fail to return. After an `undefined` access, outside every buffer,
the C program has no meaning. Nothing in the repository ignores SIGPIPE. -/
inductive Halt where
  | exit (status : Nat)
  | abort
  | undefined
  | sigpipe
deriving DecidableEq, Repr

universe u v w

/-- The initial states, and what an event does to a state: `none` where it
cannot occur. -/
structure Machine (σ : Type u) (ε : Type v) where
  init : σ → Prop
  step : σ → ε → Option σ

namespace Machine

variable {σ : Type u} {ε : Type v} {α : Type w} {M : Machine σ ε}

def exec (M : Machine σ ε) : σ → List ε → Option σ
  | s, [] => some s
  | s, e :: es => (M.step s e).bind fun s' => M.exec s' es

inductive Reachable (M : Machine σ ε) : σ → Prop where
  | init {s : σ} : M.init s → M.Reachable s
  | step {s s' : σ} {e : ε} : M.Reachable s → M.step s e = some s' → M.Reachable s'

theorem Reachable.exec : ∀ {es : List ε} {s s' : σ},
    M.Reachable s → M.exec s es = some s' → M.Reachable s'
  | [], _, _, hs, h => Option.some.inj h ▸ hs
  | e :: es, s, s', hs, h => by
      obtain ⟨s₁, hstep, hrest⟩ := Option.bind_eq_some_iff.mp h
      exact (hs.step hstep).exec hrest

/-- What every event of a run keeps, the run keeps. -/
theorem exec_induction {P : σ → Prop} {es : List ε} {s s' : σ}
    (hstep : ∀ s e s', e ∈ es → P s → M.step s e = some s' → P s')
    (hs : P s) (h : M.exec s es = some s') : P s' := by
  induction es generalizing s with
  | nil => exact Option.some.inj h ▸ hs
  | cons e es ih =>
      obtain ⟨s₁, he, hrest⟩ := Option.bind_eq_some_iff.mp h
      exact ih (fun s e s' hmem => hstep s e s' (List.mem_cons_of_mem _ hmem))
        (hstep s e s₁ List.mem_cons_self hs he) hrest

/-- A fact about a state and the number of certain events before it: what every event of
a run keeps of it, the run keeps. -/
theorem exec_countP {Q : Nat → σ → Prop} {p : ε → Bool} {es : List ε} {n : Nat} {s s' : σ}
    (hstep : ∀ n s e s', e ∈ es → Q n s → M.step s e = some s' →
      Q (n + [e].countP p) s')
    (hs : Q n s) (h : M.exec s es = some s') : Q (n + es.countP p) s' := by
  induction es generalizing n s with
  | nil => exact Option.some.inj h ▸ hs
  | cons e es ih =>
      obtain ⟨s₁, he, hrest⟩ := Option.bind_eq_some_iff.mp h
      have hrun := ih (fun n s e s' hmem => hstep n s e s' (List.mem_cons_of_mem _ hmem))
        (hstep n s e s₁ List.mem_cons_self hs he) hrest
      rwa [← List.singleton_append, List.countP_append, ← Nat.add_assoc]

/-- Every event of a run occurred in some state of it, of which what its events keep is
true. -/
theorem step_of_mem_induction {P : σ → Prop} {es : List ε} {s s' : σ}
    (hstep : ∀ s e s', e ∈ es → P s → M.step s e = some s' → P s')
    (hs : P s) (h : M.exec s es = some s') {e : ε} (he : e ∈ es) :
    ∃ s₁ s₂, P s₁ ∧ M.step s₁ e = some s₂ := by
  induction es generalizing s with
  | nil => cases he
  | cons e' es ih =>
      obtain ⟨s₁, hfirst, hrest⟩ := Option.bind_eq_some_iff.mp h
      rcases List.mem_cons.mp he with rfl | he
      · exact ⟨s, s₁, hs, hfirst⟩
      · exact ih (fun s e s' hmem => hstep s e s' (List.mem_cons_of_mem _ hmem))
          (hstep s e' s₁ List.mem_cons_self hs hfirst) hrest he

/-- Every event of a run occurred in some state of it. -/
theorem step_of_mem {es : List ε} {s s' : σ} (h : M.exec s es = some s') {e : ε} (he : e ∈ es) :
    ∃ s₁ s₂, M.step s₁ e = some s₂ := by
  obtain ⟨s₁, s₂, -, hstep⟩ :=
    step_of_mem_induction (P := fun _ => True) (fun _ _ _ _ _ _ => trivial) trivial h he
  exact ⟨s₁, s₂, hstep⟩

/-- What a run does, event after event, up to the first event that cannot occur or
does not return. -/
def trace (M : Machine σ ε) (out : σ → ε → List α) : σ → List ε → List α
  | _, [] => []
  | s, e :: es => out s e ++ (M.step s e).elim [] fun s' => M.trace out s' es

theorem trace_cons_of_step {out : σ → ε → List α} {s s' : σ} {e : ε}
    (h : M.step s e = some s') (es : List ε) :
    M.trace out s (e :: es) = out s e ++ M.trace out s' es := by
  rw [trace, h]
  rfl

/-- What a run does, where that is up to its events. -/
theorem trace_eq_flatMap {out : ε → List α} {es : List ε} {s s' : σ}
    (h : M.exec s es = some s') : M.trace (fun _ => out) s es = es.flatMap out := by
  induction es generalizing s with
  | nil => rfl
  | cons e es ih =>
      obtain ⟨s₁, he, hrest⟩ := Option.bind_eq_some_iff.mp h
      rw [trace_cons_of_step he, ih hrest, List.flatMap_cons]

/-- In every state of a run. -/
def Throughout (M : Machine σ ε) (P : σ → Prop) : σ → List ε → Prop
  | s, [] => P s
  | s, e :: es => P s ∧ ∀ s', M.step s e = some s' → M.Throughout P s' es

/-- In every step of a run. -/
def Along (M : Machine σ ε) (good : σ → ε → Prop) : σ → List ε → Prop
  | _, [] => True
  | s, e :: es => good s e ∧ ∀ s', M.step s e = some s' → M.Along good s' es

theorem Throughout.start {P : σ → Prop} {s : σ} {es : List ε} (h : M.Throughout P s es) : P s := by
  cases es with
  | nil => exact h
  | cons e es => exact h.1

/-- **Where a run goes wrong**: if a step keeps `P` exactly when it is good, a run has
`P` in every state exactly when all its steps are good. `I` is what else is
known as long as that is so. -/
theorem throughout_iff_along {I P : σ → Prop} {good : σ → ε → Prop}
    (hinv : ∀ s e s', I s → M.step s e = some s' → P s' → I s')
    (hstep : ∀ s e s', I s → P s → M.step s e = some s' → (P s' ↔ good s e))
    {es : List ε} {s s' : σ} (hI : I s) (hP : P s) (h : M.exec s es = some s') :
    M.Throughout P s es ↔ M.Along good s es := by
  induction es generalizing s with
  | nil => exact iff_of_true hP trivial
  | cons e es ih =>
      obtain ⟨s₁, he, hrest⟩ := Option.bind_eq_some_iff.mp h
      have hnext : ∀ {Q : σ → Prop}, (∀ s', M.step s e = some s' → Q s') ↔ Q s₁ := by
        intro Q
        exact ⟨fun hQ => hQ s₁ he, fun hQ s' hs' => Option.some.inj (he.symm.trans hs') ▸ hQ⟩
      simp only [Throughout, Along, hnext]
      rw [and_iff_right hP]
      have hiff := hstep s e s₁ hI hP he
      constructor
      · intro hthrough
        have hP₁ := hthrough.start
        exact ⟨hiff.mp hP₁, (ih (hinv s e s₁ hI he hP₁) hP₁ hrest).mp hthrough⟩
      · rintro ⟨hgood, halong⟩
        have hP₁ := hiff.mpr hgood
        exact (ih (hinv s e s₁ hI he hP₁) hP₁ hrest).mpr halong

structure Invariant (M : Machine σ ε) (P : σ → Prop) : Prop where
  init : ∀ s, M.init s → P s
  step : ∀ s e s', P s → M.step s e = some s' → P s'

/-- **Invariants hold in every reachable state.** -/
theorem Invariant.reachable {P : σ → Prop} (h : M.Invariant P) {s : σ}
    (hs : M.Reachable s) : P s := by
  induction hs with
  | init hs => exact h.init _ hs
  | step _ hstep ih => exact h.step _ _ _ ih hstep

end Machine

end Vespa
