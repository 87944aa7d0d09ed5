import Vespa.Sandbox

/-!
# Workers (`worker.c`, `event_loop.zig`)

`NewWorker` puts a sandbox in a worker, and `WorkerEventLoop.init` a worker on
a loop. Each checks the pointer the constructor below it returned, `NewWorker`
only to log it. `WellBuilt` is what the three pointers should mean together:
a non-NULL result is complete all the way down, and no call made through a
worker's loop meets a member that was never set.
-/

namespace Vespa

variable {R : Wamr}

/-! ## The constructors -/

/-- `Worker`; `none` is a NULL sandbox. -/
structure Worker (R : Wamr) where
  loop : Option Nat
  has_updates : Bool
  sandbox : Option (Sandbox R)

/-- `NewWorker`: a NULL sandbox is logged, and the worker returned all the same. -/
def newWorker (st : Steps R) (loop : Option Nat) (filename : String) :
    List (WasmAction R) × Option (Worker R) :=
  if !st.mallocWorker then ([], none)
  else
    let (actions, sandbox) := newSandbox st loop filename
    (actions, some ⟨loop, true, sandbox⟩)

inductive LoopError where
  | OutOfMemory
  | LoopInitFailed
  | CAllocationFailed
  | FailedToCallInit
deriving DecidableEq, Repr

structure WorkerEventLoop (R : Wamr) where
  loop : Nat
  worker : Worker R

def WorkerEventLoop.init (st : Steps R) (filename : String) :
    Except LoopError (WorkerEventLoop R) :=
  match st.createLoop with
  | none => .error .OutOfMemory
  | some loop =>
    if st.loopInit < 0 then .error .LoopInitFailed
    else
      match (newWorker st (some loop) filename).2 with
      | none => .error .CAllocationFailed
      | some worker => .ok ⟨loop, worker⟩

section
variable {σ : Type}

/-- A call on the worker's sandbox; there is no calling through NULL. -/
def Worker.call (worker : Worker R) (G : Guest R σ) (x : Export) (w : GuestState R σ) :
    Except Halt (Bool × GuestState R σ) :=
  match worker.sandbox with
  | some box => sandboxCallExport G box x w
  | none => .error .undefined

/-- `call_init`, `call_view` and `call_update`: they differ in the export, not in
the error. -/
def WorkerEventLoop.call (el : WorkerEventLoop R) (G : Guest R σ) (x : Export)
    (w : GuestState R σ) : Except Halt (Except LoopError Bool × GuestState R σ) :=
  match el.worker.call G x w with
  | .error e => .error e
  | .ok (false, w) => .ok (.error .FailedToCallInit, w)
  | .ok (true, w) => .ok (.ok true, w)

end

/-! ## What success should mean -/

/-- Non-NULL results are complete, and calls through the loop meet only members
that are set. -/
structure WellBuilt (st : Steps R) (loop : Option Nat) (filename : String) : Prop where
  sandbox : ∀ box, (newSandbox st loop filename).2 = some box → box.Usable st filename
  worker : ∀ worker, (newWorker st loop filename).2 = some worker →
    ∃ box, worker.sandbox = some box ∧ box.Usable st filename
  eventLoop : ∀ el, WorkerEventLoop.init st filename = .ok el →
    ∃ box, el.worker.sandbox = some box ∧ box.Usable st filename
  calls : ∀ el, WorkerEventLoop.init st filename = .ok el →
    ∀ (σ : Type) (G : Guest R σ) (x : Export) (w : GuestState R σ), ∃ r, el.call G x w = .ok r

theorem newWorker_eq_some_iff {st : Steps R} {loop : Option Nat} {filename : String}
    {worker : Worker R} : (newWorker st loop filename).2 = some worker ↔
      st.mallocWorker = true ∧ worker = ⟨loop, true, (newSandbox st loop filename).2⟩ := by
  unfold newWorker
  cases st.mallocWorker <;> simp [eq_comm]

theorem WorkerEventLoop.init_eq_ok_iff {st : Steps R} {filename : String}
    {el : WorkerEventLoop R} : WorkerEventLoop.init st filename = .ok el ↔
      st.createLoop = some el.loop ∧ 0 ≤ st.loopInit
        ∧ (newWorker st (some el.loop) filename).2 = some el.worker := by
  obtain ⟨addr, worker⟩ := el
  unfold WorkerEventLoop.init
  cases st.createLoop with
  | none => simp
  | some addr' =>
      by_cases hinit : st.loopInit < 0
      · have hlt : ¬0 ≤ st.loopInit := by omega
        simp [hinit, hlt]
      · have hle : 0 ≤ st.loopInit := by omega
        simp only [if_neg hinit, Option.some.injEq, hle, true_and]
        constructor
        · intro h
          split at h
          · cases h
          · rename_i worker' hworker
            obtain ⟨rfl, rfl⟩ := WorkerEventLoop.mk.injEq .. |>.mp (Except.ok.inj h)
            exact ⟨rfl, hworker⟩
        · rintro ⟨rfl, hworker⟩
          rw [hworker]

theorem WorkerEventLoop.call_of_holds {σ : Type} {el : WorkerEventLoop R} {box : Sandbox R}
    {p : Parts R} (hbox : el.worker.sandbox = some box) (h : box.Holds p) (G : Guest R σ)
    (x : Export) (w : GuestState R σ) :
    el.call G x w = .ok (if completed (G.exec (p.func .init) w).1 then .ok true
      else .error .FailedToCallInit, (G.exec (p.func .init) w).2) := by
  simp only [WorkerEventLoop.call, Worker.call, hbox, sandboxCallExport_of_holds h]
  cases completed (G.exec (p.func .init) w).1 <;> rfl

/-- **When a non-NULL pointer can be trusted.** For every outcome of every step:
exactly when, once the sandbox is allocated, the runtime comes up and every
later step succeeds, and the sandbox is allocated whenever the worker is. -/
theorem wellBuilt_iff (st : Steps R) (loop : Option Nat) (filename : String) :
    WellBuilt st loop filename ↔
      (loop.isSome = true → st.mallocSandbox = true → st.Built filename)
        ∧ (st.mallocWorker = true → loop.isSome = true ∧ st.mallocSandbox = true) := by
  constructor
  · intro h
    refine ⟨fun hloop hmalloc => ?_, fun hworker => ?_⟩
    · obtain ⟨box, hbox⟩ := exists_newSandbox_iff.mpr ⟨hloop, hmalloc⟩
      exact (usable_newSandbox_iff hbox).mp (h.sandbox box hbox)
    · obtain ⟨box, hbox, -⟩ := h.worker _ (newWorker_eq_some_iff.mpr ⟨hworker, rfl⟩)
      exact exists_newSandbox_iff.mp ⟨box, hbox⟩
  · rintro ⟨hbuilt, hmalloc⟩
    have hworker : ∀ loop', loop'.isSome = true → ∀ worker,
        (newWorker st loop' filename).2 = some worker →
        ∃ box, worker.sandbox = some box ∧ box.Usable st filename := by
      intro loop' hloop' worker hnew
      obtain ⟨hallocated, rfl⟩ := newWorker_eq_some_iff.mp hnew
      obtain ⟨hloop, hsandbox⟩ := hmalloc hallocated
      obtain ⟨box, hbox⟩ := exists_newSandbox_iff.mpr ⟨hloop', hsandbox⟩
      exact ⟨box, hbox, (usable_newSandbox_iff hbox).mpr (hbuilt hloop hsandbox)⟩
    have heventLoop : ∀ el, WorkerEventLoop.init st filename = .ok el →
        ∃ box, el.worker.sandbox = some box ∧ box.Usable st filename := by
      intro el hel
      obtain ⟨-, -, hnew⟩ := WorkerEventLoop.init_eq_ok_iff.mp hel
      exact hworker (some el.loop) rfl el.worker hnew
    refine ⟨fun box hbox => ?_, fun worker hnew => ?_, heventLoop, fun el hel σ G x w => ?_⟩
    · obtain ⟨hloop, hsandbox⟩ := exists_newSandbox_iff.mp ⟨box, hbox⟩
      exact (usable_newSandbox_iff hbox).mpr (hbuilt hloop hsandbox)
    · have hallocated := (newWorker_eq_some_iff.mp hnew).1
      exact hworker loop (hmalloc hallocated).1 worker hnew
    · obtain ⟨box, hbox, p, -, hholds⟩ := heventLoop el hel
      exact ⟨_, WorkerEventLoop.call_of_holds hbox hholds G x w⟩

/-- Steps over handles of no content, all of which succeed but the loading of the
file. -/
def missingFile : Steps ⟨Unit, Unit, Unit, Export⟩ where
  createLoop := some 1
  loopInit := 0
  mallocWorker := true
  mallocSandbox := true
  fullInit := true
  loadWasmFile _ := none
  load _ := some ()
  instantiate _ := some ()
  createExecEnv _ := some ()
  lookup _ x := some x

theorem missing_file_not_wellBuilt :
    ¬∀ (R : Wamr) (st : Steps R) (loop : Option Nat) (filename : String),
      WellBuilt st loop filename := by
  intro hall
  obtain ⟨p, hmade, -⟩ := (hall _ missingFile (some 1) "").sandbox _ rfl
  cases hmade.loadWasmFile

end Vespa
