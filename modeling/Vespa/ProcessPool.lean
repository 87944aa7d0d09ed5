import Mathlib.Data.Fintype.Card
import Mathlib.Data.List.FinRange
import Vespa.Run

/-!
# The process pool (`process.c`)

`N` slots (`VESPA_MAX_PROCESSES`) of child processes and a count. A spawn takes
the first slot without a pid; when the child exits the count goes down at once,
but the slot keeps its pid until libuv has closed the handle, one callback
later. In between, count and slots disagree on purpose.

`Pool` has the C program's data and, next to it, what libuv still owes each
handle. `uv_spawn` and the events of the loop change the latter, the callbacks
only the former: an exit callback comes once for each process spawned and a
close callback once after it. `Pool.Inv` ties the two together, and everything
the count and the slots say about each other follows from it.

Callbacks find their slot the way the code does: the exit callback by its
handle, the close callback by the handle's `data`. What a call allocates and
releases, and its calls of libuv, are recorded as actions. `malloc` and `strdup`
do not fail. An empty `argv` has no file; the code reads one past its end there.
-/

namespace Vespa

abbrev CStr := List UInt8

/-- What the code uses of a `uv_process_t`; `data` points at a slot. -/
structure UvProcess (N : Nat) where
  pid : Int
  data : Option (Fin N)
deriving DecidableEq, Repr

/-- What the code sets of the `uv_process_options_t`; the `exit_cb` is
`OnProcessExit`. -/
structure UvProcessOptions where
  args : Option (List CStr)
  file : Option CStr
  exit_cb : Bool
deriving DecidableEq, Repr

/-- `Process`; `none` is a NULL `argv`. -/
structure Process (N : Nat) where
  handle : UvProcess N
  options : UvProcessOptions
  argc : Int
  argv : Option (List CStr)
deriving DecidableEq, Repr

def Process.zero (N : Nat) : Process N := ⟨⟨0, none⟩, ⟨none, none, false⟩, 0, none⟩

/-- What libuv still owes a handle: an exit callback while its process runs, a close
callback after `uv_close`. -/
inductive HandleState where
  | inactive
  | running
  | closing
deriving DecidableEq, Repr

/-- `ProcessPool`, and libuv's handles. -/
structure Pool (N : Nat) where
  num_processes : Int
  processes : Fin N → Process N
  handles : Fin N → HandleState

variable {N : Nat}

def Pool.init (N : Nat) : Pool N := ⟨0, fun _ => .zero N, fun _ => .inactive⟩

/-- libuv's side: what it owes the handle of one slot from now on. -/
def Pool.owed (p : Pool N) (slot : Fin N) (state : HandleState) : Pool N :=
  { p with handles := Function.update p.handles slot state }

/-! ## Actions -/

/-- What a call of the pool does besides changing it. An `argv` is a vector and the
copies `strdup` made. -/
inductive PoolAction (N : Nat) where
  | allocVector (argc : Nat)
  | freeVector (argc : Nat)
  | allocString (s : CStr)
  | freeString (s : CStr)
  | uvSpawn (slot : Fin N) (options : UvProcessOptions)
  | uvProcessKill (pid : Int)
  | uvClose (slot : Fin N)
deriving DecidableEq, Repr

/-- What `uv_spawn` returned: 0 with a pid set, or an error with none. -/
inductive SpawnOutcome where
  | spawned (pid : Int) (positive : 0 < pid)
  | failed (status : Int) (negative : status < 0)

structure PoolCall (N : Nat) where
  actions : List (PoolAction N)
  returned : Int
  pool : Pool N

/-! ## The functions -/

def Pool.freeSlot (p : Pool N) : Option (Fin N) :=
  (List.finRange N).find? fun i => (p.processes i).handle.pid == 0

/-- The slot after the arguments are copied into it. -/
def Process.prepare (proc : Process N) (slot : Fin N) (argv : List CStr) : Process N where
  handle := { proc.handle with data := some slot }
  options := ⟨some argv, argv.head?, true⟩
  argc := argv.length
  argv := some argv

def orchestratorSpawn (argv : List CStr) (outcome : SpawnOutcome) (p : Pool N) : PoolCall N :=
  if p.num_processes ≥ N then ⟨[], -1, p⟩
  else
    match p.freeSlot with
    | none => ⟨[], -1, p⟩
    | some slot =>
      let proc := (p.processes slot).prepare slot argv
      let actions := .allocVector argv.length :: argv.map .allocString
        ++ [.uvSpawn slot proc.options]
      match outcome with
      | .failed status _ =>
        -- the slot keeps the copies
        ⟨actions, status, { p with processes := Function.update p.processes slot proc }⟩
      | .spawned pid _ =>
        -- `uv_spawn` set the pid and owes the handle an exit callback
        let started : Pool N := Pool.owed { p with
          processes := Function.update p.processes slot
            { proc with handle := { proc.handle with pid := pid } } } slot .running
        ⟨actions, slot.val, { started with num_processes := started.num_processes + 1 }⟩

def onProcessExit (slot : Fin N) (p : Pool N) : List (PoolAction N) × Pool N :=
  ([.uvClose slot], { p with num_processes := p.num_processes - 1 })

def processFree (slot : Fin N) (p : Pool N) : List (PoolAction N) × Pool N :=
  let actions := match (p.processes slot).argv with
    | some argv => argv.map .freeString ++ [.freeVector argv.length]
    | none => []
  (actions, { p with processes := Function.update p.processes slot (.zero N) })

def onProcessClosed (slot : Fin N) (p : Pool N) : Except Halt (List (PoolAction N) × Pool N) :=
  match (p.processes slot).handle.data with
  | some proc => .ok (processFree proc p)
  | none => .error .undefined

def orchestratorKillAllProcesses (p : Pool N) : List (PoolAction N) × Pool N :=
  ((List.finRange N).filterMap fun i =>
    if (p.processes i).handle.pid > 0 then some (.uvProcessKill (p.processes i).handle.pid)
    else none, p)

/-! ## Runs -/

inductive PoolEvent (N : Nat) where
  | spawn (argv : List CStr) (outcome : SpawnOutcome)
  | exited (slot : Fin N)
  | closed (slot : Fin N)
  | killAll

/-- An exit callback comes for a running process and leaves its handle closing, a close
callback comes for a closing handle and is the last. -/
def poolMachine (N : Nat) : Machine (Pool N) (PoolEvent N) where
  init p := p = Pool.init N
  step p
    | .spawn argv outcome => some (orchestratorSpawn argv outcome p).pool
    | .exited slot =>
      if p.handles slot = .running then some ((onProcessExit slot p).2.owed slot .closing)
      else none
    | .closed slot =>
      if p.handles slot = .closing then
        (onProcessClosed slot p).toOption.map fun r => r.2.owed slot .inactive
      else none
    | .killAll => some (orchestratorKillAllProcesses p).2

/-! ## The invariant -/

/-- The slots whose process was spawned and has not exited. -/
def Pool.running (p : Pool N) : Finset (Fin N) := Finset.univ.filter fun i => p.handles i = .running

@[simp] theorem Pool.mem_running {p : Pool N} {i : Fin N} :
    i ∈ p.running ↔ p.handles i = .running := by
  simp [Pool.running]

def Pool.occupied (p : Pool N) : Finset (Fin N) :=
  Finset.univ.filter fun i => (p.processes i).handle.pid ≠ 0

@[simp] theorem Pool.mem_occupied {p : Pool N} {i : Fin N} :
    i ∈ p.occupied ↔ (p.processes i).handle.pid ≠ 0 := by
  simp [Pool.occupied]

/-- A slot has a pid, and its handle points back at it, exactly as long as libuv
owes it a callback; and the count is of those whose process runs. -/
structure Pool.Inv (p : Pool N) : Prop where
  free : ∀ i, p.handles i = .inactive → (p.processes i).handle.pid = 0
  taken : ∀ i, p.handles i ≠ .inactive →
    0 < (p.processes i).handle.pid ∧ (p.processes i).handle.data = some i
  count : p.num_processes = p.running.card

namespace Pool.Inv

variable {p : Pool N}

theorem pid_eq_zero_iff (h : p.Inv) (i : Fin N) :
    (p.processes i).handle.pid = 0 ↔ p.handles i = .inactive := by
  refine ⟨fun hpid => ?_, h.free i⟩
  by_contra hne
  have := (h.taken i hne).1
  omega

theorem running_subset (h : p.Inv) : p.running ⊆ p.occupied := by
  intro i hi
  have hrun : p.handles i = .running := Pool.mem_running.mp hi
  rw [Pool.mem_occupied, ne_eq, h.pid_eq_zero_iff, hrun]
  exact fun h => by cases h

end Pool.Inv

theorem Pool.pid_of_freeSlot {p : Pool N} {slot : Fin N} (h : p.freeSlot = some slot) :
    (p.processes slot).handle.pid = 0 := by
  have := List.find?_some h
  simpa using this

theorem Pool.freeSlot_eq_none_iff {p : Pool N} :
    p.freeSlot = none ↔ ∀ i, (p.processes i).handle.pid ≠ 0 := by
  simp [Pool.freeSlot, List.find?_eq_none]

/-! ## What each event does to it -/

theorem Pool.inv_init : (Pool.init N).Inv where
  free _ _ := rfl
  taken i h := absurd rfl h
  count := by
    have hempty : (Pool.init N).running = ∅ := Finset.filter_eq_empty_iff.mpr fun i _ => by
      simp [Pool.init]
    rw [hempty]
    rfl

/-- What happens on one slot keeps the invariant if it keeps it there. -/
theorem Pool.Inv.onSlot {p p' : Pool N} (h : p.Inv) (slot : Fin N)
    (hprocesses : ∀ i, i ≠ slot → p'.processes i = p.processes i)
    (hhandles : ∀ i, i ≠ slot → p'.handles i = p.handles i)
    (hfree : p'.handles slot = .inactive → (p'.processes slot).handle.pid = 0)
    (htaken : p'.handles slot ≠ .inactive →
      0 < (p'.processes slot).handle.pid ∧ (p'.processes slot).handle.data = some slot)
    (hcount : p'.num_processes = p'.running.card) : p'.Inv where
  free i hi := by
    by_cases heq : i = slot
    · subst heq
      exact hfree hi
    · rw [hhandles i heq] at hi
      rw [hprocesses i heq]
      exact h.free i hi
  taken i hi := by
    by_cases heq : i = slot
    · subst heq
      exact htaken hi
    · rw [hhandles i heq] at hi
      rw [hprocesses i heq]
      exact h.taken i hi
  count := hcount

theorem Pool.Inv.rewrite {p : Pool N} (h : p.Inv) {slot : Fin N}
    (hslot : p.handles slot = .inactive) {proc : Process N} (hproc : proc.handle.pid = 0) :
    Pool.Inv { p with processes := Function.update p.processes slot proc } := by
  refine h.onSlot slot (fun i hi => Function.update_of_ne hi ..) (fun _ _ => rfl) (fun _ => ?_)
    (fun hne => absurd hslot hne) h.count
  simp only [Function.update_self]
  exact hproc

/-- **Spawning.** The slot gets a pid, the count goes up by one. -/
theorem Pool.Inv.spawned {p : Pool N} (h : p.Inv) {slot : Fin N}
    (hslot : p.handles slot = .inactive) {proc : Process N} (hpid : 0 < proc.handle.pid)
    (hdata : proc.handle.data = some slot) :
    Pool.Inv ⟨p.num_processes + 1, Function.update p.processes slot proc,
      Function.update p.handles slot .running⟩ := by
  have hrunning : Pool.running ⟨p.num_processes + 1, Function.update p.processes slot proc,
      Function.update p.handles slot .running⟩ = insert slot p.running := by
    ext i
    by_cases heq : i = slot
    · subst heq
      simp
    · simp [heq]
  have hnew : slot ∉ p.running := by
    simp [hslot]
  refine h.onSlot slot (fun i hi => Function.update_of_ne hi ..)
    (fun i hi => Function.update_of_ne hi ..) (fun hi => ?_) (fun _ => ?_) ?_
  · simp only [Function.update_self] at hi
    cases hi
  · simp only [Function.update_self]
    exact ⟨hpid, hdata⟩
  · rw [hrunning, Finset.card_insert_of_notMem hnew]
    show p.num_processes + 1 = _
    rw [h.count]
    push_cast
    rfl

/-- **Exiting.** The count goes down by one, the slot stays. -/
theorem Pool.Inv.exited {p : Pool N} (h : p.Inv) {slot : Fin N}
    (hslot : p.handles slot = .running) : ((onProcessExit slot p).2.owed slot .closing).Inv := by
  have hrunning : ((onProcessExit slot p).2.owed slot .closing).running = p.running.erase slot := by
    ext i
    simp only [Finset.mem_erase, Pool.mem_running, Pool.owed, onProcessExit]
    by_cases heq : i = slot
    · subst heq
      simp
    · simp [heq]
  have hmem : slot ∈ p.running := Pool.mem_running.mpr hslot
  have hpos := Finset.card_pos.mpr ⟨slot, hmem⟩
  refine h.onSlot slot (fun _ _ => rfl) (fun i hi => Function.update_of_ne hi ..)
    (fun hi => ?_) (fun _ => ?_) ?_
  · simp only [Pool.owed, Function.update_self] at hi
    cases hi
  · exact h.taken slot (by rw [hslot]; exact fun h => by cases h)
  · rw [hrunning, Finset.card_erase_of_mem hmem]
    show p.num_processes - 1 = _
    rw [h.count]
    omega

/-- **Closing.** The handle leads back to its slot, which is cleared; the count
stays. -/
theorem Pool.Inv.closed {p : Pool N} (h : p.Inv) {slot : Fin N}
    (hslot : p.handles slot = .closing) :
    ∃ actions p', onProcessClosed slot p = .ok (actions, p') ∧ (p'.owed slot .inactive).Inv := by
  have hdata := (h.taken slot (by rw [hslot]; exact fun h => by cases h)).2
  have hrunning : ((processFree slot p).2.owed slot .inactive).running = p.running := by
    ext i
    simp only [Pool.mem_running, Pool.owed, processFree]
    by_cases heq : i = slot
    · subst heq
      simp [hslot]
    · simp [heq]
  refine ⟨_, _, by rw [onProcessClosed, hdata], ?_⟩
  refine h.onSlot slot (fun i hi => Function.update_of_ne hi ..)
    (fun i hi => Function.update_of_ne hi ..) (fun _ => ?_) (fun hne => ?_) ?_
  · simp only [Pool.owed, processFree, Function.update_self]
    rfl
  · simp only [Pool.owed, Function.update_self] at hne
    exact absurd rfl hne
  · rw [hrunning]
    exact h.count

theorem Pool.Inv.spawn {p : Pool N} (h : p.Inv) (argv : List CStr) (outcome : SpawnOutcome) :
    (orchestratorSpawn argv outcome p).pool.Inv := by
  unfold orchestratorSpawn
  split
  · exact h
  · cases hfree : p.freeSlot with
    | none => exact h
    | some slot =>
        have hpid := Pool.pid_of_freeSlot hfree
        have hslot := (h.pid_eq_zero_iff slot).mp hpid
        cases outcome with
        | failed status hneg => exact h.rewrite hslot hpid
        | spawned pid hpos => exact h.spawned hslot hpos rfl

theorem of_exited_step {p p' : Pool N} {slot : Fin N}
    (he : (poolMachine N).step p (.exited slot) = some p') :
    p.handles slot = .running ∧ p' = (onProcessExit slot p).2.owed slot .closing := by
  simp only [poolMachine] at he
  split_ifs at he with hslot
  exact ⟨hslot, (Option.some.inj he).symm⟩

theorem of_closed_step {p p' : Pool N} {slot : Fin N}
    (he : (poolMachine N).step p (.closed slot) = some p') :
    p.handles slot = .closing
      ∧ ∃ actions p₁, onProcessClosed slot p = .ok (actions, p₁) ∧ p' = p₁.owed slot .inactive := by
  simp only [poolMachine] at he
  split_ifs at he with hslot
  cases hclosed : onProcessClosed slot p with
  | error e =>
      rw [hclosed] at he
      cases he
  | ok r =>
      rw [hclosed] at he
      obtain rfl := Option.some.inj he
      exact ⟨hslot, r.1, r.2, rfl, rfl⟩

theorem pool_invariant (N : Nat) : (poolMachine N).Invariant Pool.Inv where
  init p hp := by
    obtain rfl : p = Pool.init N := hp
    exact Pool.inv_init
  step p e p' hp he := by
    cases e with
    | spawn argv outcome =>
        obtain rfl := Option.some.inj he
        exact hp.spawn argv outcome
    | exited slot =>
        obtain ⟨hslot, rfl⟩ := of_exited_step he
        exact hp.exited hslot
    | closed slot =>
        obtain ⟨hslot, actions, p₁, hclosed, rfl⟩ := of_closed_step he
        obtain ⟨actions', p₂, hclosed', hinv⟩ := hp.closed hslot
        obtain ⟨-, rfl⟩ := Prod.mk.inj (Except.ok.inj (hclosed.symm.trans hclosed'))
        exact hinv
    | killAll =>
        obtain rfl := Option.some.inj he
        exact hp

/-! ## Count and slots -/

/-- A call that never reached `uv_spawn`. -/
def PoolCall.Refused (call : PoolCall N) : Prop :=
  call.returned = -1 ∧ ∀ slot options, PoolAction.uvSpawn slot options ∉ call.actions

/-- The count is of the running processes, within the slots in use, and a spawn
is refused exactly when every slot is in use. -/
structure Counted (p : Pool N) : Prop where
  count : p.num_processes = p.running.card
  nonneg : 0 ≤ p.num_processes
  count_le : p.num_processes ≤ p.occupied.card
  occupied_le : p.occupied.card ≤ N
  refused : ∀ argv outcome, (orchestratorSpawn argv outcome p).Refused ↔
    ∀ i, (p.processes i).handle.pid ≠ 0

theorem Pool.Inv.occupied_of_full {p : Pool N} (h : p.Inv) (hfull : p.num_processes ≥ N) :
    ∀ i, (p.processes i).handle.pid ≠ 0 := by
  have hcard : Fintype.card (Fin N) ≤ p.running.card := by
    rw [Fintype.card_fin]
    have := h.count
    omega
  have huniv : p.running = Finset.univ := Finset.eq_univ_of_card _
    (Nat.le_antisymm (Finset.card_le_univ _) hcard)
  intro i
  exact Pool.mem_occupied.mp (h.running_subset (huniv ▸ Finset.mem_univ i))

theorem Pool.Inv.refused_iff {p : Pool N} (h : p.Inv) (argv : List CStr)
    (outcome : SpawnOutcome) :
    (orchestratorSpawn argv outcome p).Refused ↔ ∀ i, (p.processes i).handle.pid ≠ 0 := by
  unfold orchestratorSpawn
  split
  · rename_i hfull
    exact iff_of_true ⟨rfl, by simp⟩ (h.occupied_of_full hfull)
  · cases hfree : p.freeSlot with
    | none => exact iff_of_true ⟨rfl, by simp⟩ (Pool.freeSlot_eq_none_iff.mp hfree)
    | some slot =>
        refine iff_of_false ?_ fun hall => hall slot (Pool.pid_of_freeSlot hfree)
        rintro ⟨-, hnone⟩
        cases outcome <;> exact hnone _ _ (List.mem_append_right _ List.mem_cons_self)

/-- **Count and slots agree in every run.** -/
theorem pool_counted {p : Pool N} (hp : (poolMachine N).Reachable p) : Counted p := by
  have h := (pool_invariant N).reachable hp
  have hle : p.running.card ≤ p.occupied.card := Finset.card_le_card h.running_subset
  have hcount := h.count
  refine ⟨hcount, by omega, by omega, ?_, h.refused_iff⟩
  calc p.occupied.card ≤ Fintype.card (Fin N) := Finset.card_le_univ _
    _ = N := Fintype.card_fin N

theorem pool_counted_between_exit_and_close :
    ∃ p : Pool 2, (poolMachine 2).exec (Pool.init 2) [.spawn [[97]] (.spawned 7 (by decide)),
        .exited 0, .spawn [[98]] (.spawned 8 (by decide)), .killAll] = some p ∧ Counted p := by
  have hinit : (poolMachine 2).Reachable (Pool.init 2) := .init rfl
  obtain ⟨p, hp⟩ : ∃ p, (poolMachine 2).exec (Pool.init 2) [.spawn [[97]] (.spawned 7 (by decide)),
      .exited 0, .spawn [[98]] (.spawned 8 (by decide)), .killAll] = some p := ⟨_, rfl⟩
  exact ⟨p, hp, pool_counted (hinit.exec hp)⟩

end Vespa
