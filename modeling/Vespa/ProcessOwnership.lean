import Vespa.ProcessPool

/-!
# Who owns a slot, and who is killed

A process has its slot from the call that spawned it to its close callback.
The slots of all others may change in between, and slots of failed spawns are
written over; `Pool.Inv.step_inUse` is the frame lemma behind this, one event on
a slot in use.

`OrchestratorKillAllProcesses` goes by the pids in the slots. A slot keeps its
pid after the process exited, until the handle is closed; what is killed is
therefore what is spawned and not closed, and these are the running processes
only when no handle is closing.
-/

namespace Vespa

variable {N : Nat}

/-! ## The course of a spawn -/

/-- What a call does that found a slot. -/
def spawnActions (argv : List CStr) (slot : Fin N) : List (PoolAction N) :=
  .allocVector argv.length :: argv.map .allocString
    ++ [.uvSpawn slot ⟨some argv, argv.head?, true⟩]

/-- The slot of a spawned process. -/
def Process.spawned (slot : Fin N) (argv : List CStr) (pid : Int) : Process N :=
  ⟨⟨pid, some slot⟩, ⟨some argv, argv.head?, true⟩, argv.length, some argv⟩

/-- A call is refused before it does anything, or it copies the arguments into the
first slot without a pid and `uv_spawn` fails, or succeeds. -/
theorem orchestratorSpawn_cases (argv : List CStr) (outcome : SpawnOutcome) (p : Pool N) :
    (orchestratorSpawn argv outcome p = ⟨[], -1, p⟩
        ∧ (p.num_processes ≥ N ∨ p.freeSlot = none))
      ∨ ∃ slot, p.num_processes < N ∧ p.freeSlot = some slot
        ∧ (orchestratorSpawn argv outcome p).actions = spawnActions argv slot
        ∧ ((∃ status negative, outcome = .failed status negative
            ∧ (orchestratorSpawn argv outcome p).returned = status
            ∧ (orchestratorSpawn argv outcome p).pool = { p with
                processes := Function.update p.processes slot
                  ((p.processes slot).prepare slot argv) })
          ∨ ∃ pid positive, outcome = .spawned pid positive
            ∧ (orchestratorSpawn argv outcome p).returned = slot.val
            ∧ (orchestratorSpawn argv outcome p).pool =
              ⟨p.num_processes + 1, Function.update p.processes slot (.spawned slot argv pid),
                Function.update p.handles slot .running⟩) := by
  unfold orchestratorSpawn
  by_cases hfull : p.num_processes ≥ N
  · rw [if_pos hfull]
    exact .inl ⟨rfl, .inl hfull⟩
  · rw [if_neg hfull]
    cases hfree : p.freeSlot with
    | none => exact .inl ⟨rfl, .inr rfl⟩
    | some slot =>
        refine .inr ⟨slot, by omega, rfl, ?_⟩
        cases outcome with
        | failed status negative => exact ⟨rfl, .inl ⟨status, negative, rfl, rfl, rfl⟩⟩
        | spawned pid positive => exact ⟨rfl, .inr ⟨pid, positive, rfl, rfl, rfl⟩⟩

/-- An index is returned for a process spawned into that slot. -/
theorem spawned_of_returned {argv : List CStr} {outcome : SpawnOutcome} {p : Pool N} {i : Fin N}
    (hret : (orchestratorSpawn argv outcome p).returned = i.val) :
    ∃ pid positive, outcome = .spawned pid positive ∧ p.freeSlot = some i
      ∧ (orchestratorSpawn argv outcome p).actions = spawnActions argv i
      ∧ (orchestratorSpawn argv outcome p).pool =
        ⟨p.num_processes + 1, Function.update p.processes i (.spawned i argv pid),
          Function.update p.handles i .running⟩ := by
  rcases orchestratorSpawn_cases argv outcome p with ⟨hcall, -⟩
    | ⟨slot, -, hfree, hactions, ⟨status, negative, -, hstatus, -⟩
      | ⟨pid, positive, houtcome, hslot, hpool⟩⟩
  · rw [hcall] at hret
    have : (-1 : Int) = i.val := hret
    omega
  · have : status = i.val := hstatus.symm.trans hret
    omega
  · have hval : (slot.val : Int) = i.val := hslot.symm.trans hret
    obtain rfl : slot = i := Fin.ext (by omega)
    exact ⟨pid, positive, houtcome, hfree, hactions, hpool⟩

/-! ## A slot in use -/

/-- **The frame of an event**: a slot in use keeps what it holds until its own
close callback. -/
theorem Pool.Inv.step_inUse {p p' : Pool N} (h : p.Inv) {i : Fin N}
    (hi : p.handles i ≠ .inactive) {e : PoolEvent N} (hne : e ≠ .closed i)
    (he : (poolMachine N).step p e = some p') :
    p'.processes i = p.processes i ∧ p'.handles i ≠ .inactive := by
  have hpid := (h.taken i hi).1
  cases e with
  | spawn argv outcome =>
      obtain rfl := Option.some.inj he
      rcases orchestratorSpawn_cases argv outcome p with ⟨hcall, -⟩
        | ⟨slot, -, hfree, -, ⟨status, negative, -, -, hpool⟩ | ⟨pid, positive, -, -, hpool⟩⟩
      · rw [hcall]
        exact ⟨rfl, hi⟩
      all_goals
        have hslot : i ≠ slot := fun heq => by
          have := Pool.pid_of_freeSlot hfree
          rw [← heq] at this
          omega
        rw [hpool]
      · exact ⟨Function.update_of_ne hslot .., hi⟩
      · refine ⟨Function.update_of_ne hslot .., ?_⟩
        simp only [Function.update_of_ne hslot]
        exact hi
  | exited slot =>
      obtain ⟨-, rfl⟩ := of_exited_step he
      refine ⟨rfl, ?_⟩
      simp only [Pool.owed, onProcessExit]
      by_cases heq : i = slot
      · rw [heq, Function.update_self]
        exact fun h => by cases h
      · rw [Function.update_of_ne heq]
        exact hi
  | closed slot =>
      obtain ⟨hslot, actions, p₁, hclosed, rfl⟩ := of_closed_step he
      have hdata := (h.taken slot (by rw [hslot]; exact fun h => by cases h)).2
      rw [onProcessClosed, hdata] at hclosed
      obtain ⟨-, rfl⟩ := Prod.mk.inj (Except.ok.inj hclosed)
      have heq : i ≠ slot := fun heq => hne (heq ▸ rfl)
      refine ⟨Function.update_of_ne heq .., ?_⟩
      simp only [Pool.owed, Function.update_of_ne heq]
      exact hi
  | killAll =>
      obtain rfl := Option.some.inj he
      exact ⟨rfl, hi⟩

/-- The states a run reaches from `p` before slot `i` is closed. -/
def BeforeClose (p : Pool N) (i : Fin N) (q : Pool N) : Prop :=
  ∃ es, (poolMachine N).exec p es = some q ∧ .closed i ∉ es

theorem Pool.Inv.beforeClose {p q : Pool N} (h : p.Inv) {i : Fin N}
    (hi : p.handles i ≠ .inactive) (hq : BeforeClose p i q) :
    q.Inv ∧ q.handles i ≠ .inactive ∧ q.processes i = p.processes i := by
  obtain ⟨es, hexec, hclosed⟩ := hq
  let Kept (s : Pool N) : Prop :=
    s.Inv ∧ s.handles i ≠ .inactive ∧ s.processes i = p.processes i
  have hstep : ∀ s e s', e ∈ es → Kept s → (poolMachine N).step s e = some s' → Kept s' := by
    intro s e s' hmem ⟨hinv, hused, hkept⟩ he
    have hne : e ≠ .closed i := fun heq => hclosed (heq ▸ hmem)
    obtain ⟨hframe, hused'⟩ := hinv.step_inUse hused hne he
    exact ⟨(pool_invariant N).step _ _ _ hinv he, hused', hframe.trans hkept⟩
  have hstart : Kept p := ⟨h, hi, rfl⟩
  have hend : Kept q := Machine.exec_induction hstep hstart hexec
  exact hend

/-! ## Ownership -/

/-- Slot `i` is the process's own: it holds its pid and arguments, keeps them and is
given to no other process until its own close callback, which releases the
copies and clears this slot only. -/
structure OwnsSlot (p : Pool N) (i : Fin N) (pid : Int) (argv : List CStr) : Prop where
  holdsPid : (p.processes i).handle.pid = pid
  holdsArgc : (p.processes i).argc = argv.length
  holdsArgv : (p.processes i).argv = some argv
  kept : ∀ q, BeforeClose p i q → q.processes i = p.processes i
  unshared : ∀ q, BeforeClose p i q → ∀ argv' outcome,
    (orchestratorSpawn argv' outcome q).returned ≠ i.val
  cleared : ∀ q, BeforeClose p i q → q.handles i = .closing → ∃ q',
    onProcessClosed i q = .ok (argv.map .freeString ++ [.freeVector argv.length], q')
      ∧ q'.processes = Function.update q.processes i (.zero N)

/-- **Slot ownership.** In every state the pool can reach, a spawn that returns an
index gives that slot to the process it spawned, with a copy of each
argument, until the process's close callback. -/
theorem spawn_ownsSlot {p : Pool N} (hp : (poolMachine N).Reachable p) {argv : List CStr}
    {outcome : SpawnOutcome} {i : Fin N}
    (hret : (orchestratorSpawn argv outcome p).returned = i.val) :
    ∃ pid positive, outcome = .spawned pid positive
      ∧ (∀ s, (orchestratorSpawn argv outcome p).actions.count (.allocString s) = argv.count s)
      ∧ OwnsSlot (orchestratorSpawn argv outcome p).pool i pid argv := by
  obtain ⟨pid, positive, houtcome, -, hactions, hpool⟩ := spawned_of_returned hret
  have hinv := ((pool_invariant N).reachable hp).spawn argv outcome
  refine ⟨pid, positive, houtcome, fun s => ?_, ?_⟩
  · have hinj : Function.Injective (PoolAction.allocString : CStr → PoolAction N) :=
      fun _ _ h => PoolAction.allocString.inj h
    rw [hactions, spawnActions, List.count_append, List.count_cons_of_ne (by simp),
      List.count_map_of_injective _ _ hinj]
    simp
  · rw [hpool] at hinv ⊢
    have hused : (Function.update p.handles i HandleState.running) i ≠ .inactive := by simp
    refine ⟨by simp [Process.spawned], by simp [Process.spawned], by simp [Process.spawned],
      fun q hq => (hinv.beforeClose hused hq).2.2, fun q hq argv' outcome' hshared => ?_,
      fun q hq hclosing => ?_⟩
    · obtain ⟨hq, hi, -⟩ := hinv.beforeClose hused hq
      obtain ⟨-, -, -, hfree, -⟩ := spawned_of_returned hshared
      have hpos := (hq.taken i hi).1
      have hzero := Pool.pid_of_freeSlot hfree
      omega
    · obtain ⟨hq, hi, hkept⟩ := hinv.beforeClose hused hq
      refine ⟨(processFree i q).2, ?_, rfl⟩
      rw [onProcessClosed, (hq.taken i hi).2]
      simp only [processFree, hkept, Function.update_self, Process.spawned]

theorem spawn_owns_between_exits :
    ∃ p q : Pool 2, (poolMachine 2).exec (Pool.init 2) [.spawn [[97]] (.spawned 7 (by decide)),
        .exited 0] = some p
      ∧ (orchestratorSpawn [[98], [99]] (.spawned 8 (by decide)) p).pool = q
      ∧ OwnsSlot q 1 8 [[98], [99]] := by
  have hinit : (poolMachine 2).Reachable (Pool.init 2) := .init rfl
  obtain ⟨p, hp, hret⟩ : ∃ p, (poolMachine 2).exec (Pool.init 2)
      [.spawn [[97]] (.spawned 7 (by decide)), .exited 0] = some p
      ∧ (orchestratorSpawn [[98], [99]] (.spawned 8 (by decide)) p).returned = (1 : Fin 2).val :=
    ⟨_, rfl, rfl⟩
  obtain ⟨pid, positive, houtcome, -, howns⟩ := spawn_ownsSlot (hinit.exec hp) hret
  obtain rfl : 8 = pid := SpawnOutcome.spawned.inj houtcome
  exact ⟨p, _, hp, rfl, howns⟩

/-! ## Killing -/

/-- One SIGKILL for each running process, to its pid, and nothing else. -/
def KillsExactlyRunning (p : Pool N) : Prop :=
  ((orchestratorKillAllProcesses p).1 : Multiset (PoolAction N))
      = p.running.val.map (fun i => .uvProcessKill (p.processes i).handle.pid)
    ∧ (orchestratorKillAllProcesses p).2 = p

/-- What is killed are the slots with a pid. -/
theorem Pool.Inv.killAll {p : Pool N} (h : p.Inv) :
    ((orchestratorKillAllProcesses p).1 : Multiset (PoolAction N))
      = p.occupied.val.map (fun i => .uvProcessKill (p.processes i).handle.pid) := by
  have hpos : ∀ i, (p.processes i).handle.pid > 0 ↔ (p.processes i).handle.pid ≠ 0 := by
    intro i
    rw [ne_eq, h.pid_eq_zero_iff]
    refine ⟨fun hpos hi => ?_, fun hi => (h.taken i hi).1⟩
    have := h.free i hi
    omega
  have hfilter : (orchestratorKillAllProcesses p).1
      = ((List.finRange N).filter fun i => (p.processes i).handle.pid ≠ 0).map
          fun i => .uvProcessKill (p.processes i).handle.pid := by
    simp only [orchestratorKillAllProcesses, hpos]
    induction List.finRange N with
    | nil => rfl
    | cons i is ih =>
        rw [List.filterMap_cons, List.filter_cons, ih]
        split_ifs <;> simp_all
  rw [hfilter]
  rfl

/-- **Who is killed.** In every state the pool can reach, the running processes are
killed, each once, and no other, exactly when no handle is closing. -/
theorem killsExactlyRunning_iff {p : Pool N} (hp : (poolMachine N).Reachable p) :
    KillsExactlyRunning p ↔ ∀ i, p.handles i ≠ .closing := by
  have h := (pool_invariant N).reachable hp
  have hpool : (orchestratorKillAllProcesses p).2 = p := rfl
  rw [KillsExactlyRunning, h.killAll, and_iff_left hpool]
  constructor
  · intro heq i hi
    -- a closing slot makes one kill too many
    have hcard : p.occupied.card = p.running.card := by
      have := congrArg Multiset.card heq
      simpa using this
    have hall := Finset.eq_of_subset_of_card_le h.running_subset hcard.le
    have hmem : i ∈ p.occupied := by
      rw [Pool.mem_occupied, ne_eq, h.pid_eq_zero_iff, hi]
      exact fun h => by cases h
    rw [← hall, Pool.mem_running, hi] at hmem
    cases hmem
  · intro hnone
    have hsame : p.occupied = p.running := by
      ext i
      rw [Pool.mem_occupied, Pool.mem_running, ne_eq, h.pid_eq_zero_iff]
      have := hnone i
      cases hi : p.handles i <;> simp_all
    rw [hsame]

theorem killsExactlyRunning_one : ∃ p : Pool 2, (poolMachine 2).exec (Pool.init 2)
    [.spawn [[97]] (.spawned 7 (by decide))] = some p ∧ KillsExactlyRunning p := by
  have hinit : (poolMachine 2).Reachable (Pool.init 2) := .init rfl
  obtain ⟨p, hp, hnone⟩ : ∃ p, (poolMachine 2).exec (Pool.init 2)
      [.spawn [[97]] (.spawned 7 (by decide))] = some p ∧ ∀ i, p.handles i ≠ .closing :=
    ⟨_, rfl, by decide⟩
  exact ⟨p, hp, (killsExactlyRunning_iff (hinit.exec hp)).mpr hnone⟩

theorem exited_process_killed :
    ¬∀ (N : Nat) (p : Pool N), (poolMachine N).Reachable p → KillsExactlyRunning p := by
  intro hall
  have hinit : (poolMachine 1).Reachable (Pool.init 1) := .init rfl
  obtain ⟨p, hp, hkilled, hrunning⟩ : ∃ p, (poolMachine 1).exec (Pool.init 1)
      [.spawn [[97]] (.spawned 7 (by decide)), .exited 0] = some p
      ∧ (orchestratorKillAllProcesses p).1 = [.uvProcessKill 7] ∧ p.running = ∅ :=
    ⟨_, rfl, rfl, rfl⟩
  obtain ⟨hkills, -⟩ := hall 1 p (hinit.exec hp)
  rw [hkilled, hrunning] at hkills
  simp at hkills

end Vespa
