import Vespa.SandboxLedger
import Vespa.Worker

/-!
# The worker program (`main.zig`, `event_loop.zig`)

The program puts a worker on a loop, calls the guest's `init` and runs the loop.
Until the worker is there a failed step ends it with status 1, and what was
taken stays taken: nothing is deferred yet. From then on `deinit` is deferred,
and the program ends with what `init` said.

Between the two lies a gap. `NewWorker` returns a worker with half a sandbox, or
with none, and `call_init` is made through its pointers all the same; where only
`view` or `update` is missing they are all there, but the module has lost the
buffer it runs out of. So the status is defined exactly where there is no event
loop, or the sandbox is complete.
-/

namespace Vespa

open Ledger

variable {R : Wamr} {σ : Type}

/-! ## The program -/

/-- `loop` is the memory of a `uv_loop_t`, `loopHandle` what `uv_loop_init` puts there. -/
inductive ProgramResource (R : Wamr) where
  | loop (addr : Nat)
  | loopHandle (addr : Nat)
  | worker
  | sandbox (r : Resource R)

inductive ProgramAction (R : Wamr) where
  | acquire (r : ProgramResource R)
  | release (r : ProgramResource R)
  | wasm (a : WasmAction R)
  | uvRun (loop : Nat)

/-- The buffer of a file is freed. -/
def ProgramAction.freesFile : ProgramAction R → Bool
  | .wasm (.release (.file _)) => true
  | _ => false

/-- The command line, unless there is no memory for it, and what the program's steps
return. -/
structure WorkerProgram (R : Wamr) where
  args : Option (List String)
  steps : Steps R
  file : FileCall

/-- What a program did, the guest it left, and its exit status. -/
structure ProgramEnd (R : Wamr) (σ : Type) where
  actions : List (ProgramAction R)
  guest : GuestState R σ
  exit : Except Halt Nat

/-- `WorkerFree`: the worker itself is not freed. -/
def workerFree (worker : Worker R) : Except Halt (List (WasmAction R)) :=
  match worker.sandbox with
  | some box => sandboxFree (some box)
  | none => .ok []

def WorkerEventLoop.deinit (el : WorkerEventLoop R) : Except Halt (List (ProgramAction R)) :=
  match workerFree el.worker with
  | .error halt => .error halt
  | .ok actions =>
    .ok (actions.map .wasm ++ [.release (.loopHandle el.loop), .release (.loop el.loop)])

namespace WorkerProgram

/-- The construction of the worker's sandbox. -/
def call (P : WorkerProgram R) (filename : String) : SandboxCall R :=
  ⟨P.steps, P.file, P.steps.createLoop, filename⟩

/-- `WorkerEventLoop.init` with what it takes; there is no `errdefer`. -/
def init (P : WorkerProgram R) (filename : String) :
    List (ProgramAction R) × Except LoopError (WorkerEventLoop R) :=
  match P.steps.createLoop with
  | none => ([], .error .OutOfMemory)
  | some loop =>
    if P.steps.loopInit < 0 then ([.acquire (.loop loop)], .error .LoopInitFailed)
    else
      match (newWorker (P.call filename).st (some loop) filename).2 with
      | none =>
        ([.acquire (.loop loop), .acquire (.loopHandle loop)], .error .CAllocationFailed)
      | some worker =>
        ([.acquire (.loop loop), .acquire (.loopHandle loop), .acquire .worker]
          ++ (P.call filename).run.1.map .wasm, .ok ⟨loop, worker⟩)

/-- `call_init`, after what was done. A module runs out of the buffer it was loaded from,
so that none of its functions can be executed once that is freed. -/
def callInit (G : Guest R σ) (el : WorkerEventLoop R) (taken : List (ProgramAction R))
    (w : GuestState R σ) : Except Halt (Except LoopError Bool × GuestState R σ) :=
  if taken.any ProgramAction.freesFile then .error .undefined else el.call G .init w

/-- `main`, from `call_init` on: `deinit` is deferred. -/
def serve (G : Guest R σ) (el : WorkerEventLoop R) (taken : List (ProgramAction R))
    (w : GuestState R σ) : ProgramEnd R σ :=
  match callInit G el taken w with
  | .error halt => ⟨taken, w, .error halt⟩
  | .ok (result, w) =>
    let (ran, status) := match result with
      | .error _ => (taken, 1)
      | .ok _ => (taken ++ [.uvRun el.loop], 0)
    match el.deinit with
    | .error halt => ⟨ran, w, .error halt⟩
    | .ok released => ⟨ran ++ released, w, .ok status⟩

/-- `main`; an error it returns is status 1. -/
def main (P : WorkerProgram R) (G : Guest R σ) (w : GuestState R σ) : ProgramEnd R σ :=
  match P.args with
  | none => ⟨[], w, .ok 1⟩
  | some args =>
    match args[1]? with
    | none => ⟨[], w, .ok 1⟩
    | some filename =>
      match P.init filename with
      | (taken, .error _) => ⟨taken, w, .ok 1⟩
      | (taken, .ok el) => serve G el taken w

/-- The event loop is the one of `WorkerEventLoop.init`. -/
theorem init_snd (P : WorkerProgram R) (filename : String) :
    (P.init filename).2 = WorkerEventLoop.init (P.call filename).st filename := by
  unfold init WorkerEventLoop.init
  have hloop : (P.call filename).st.createLoop = P.steps.createLoop := rfl
  have hinit : (P.call filename).st.loopInit = P.steps.loopInit := rfl
  rw [hloop, hinit]
  cases P.steps.createLoop with
  | none => rfl
  | some loop =>
      dsimp only
      split_ifs
      · rfl
      · cases (newWorker (P.call filename).st (some loop) filename).2 <;> rfl

/-- There is an event loop, for this file. -/
structure Started (P : WorkerProgram R) (filename : String) : Prop where
  arg : ∃ args, P.args = some args ∧ args[1]? = some filename
  loop : ∃ loop, P.steps.createLoop = some loop
  loopInit : 0 ≤ P.steps.loopInit
  worker : P.steps.mallocWorker = true

theorem Started.unique {P : WorkerProgram R} {filename filename' : String}
    (h : P.Started filename) (h' : P.Started filename') : filename = filename' := by
  obtain ⟨args, hargs, harg⟩ := h.arg
  obtain ⟨args', hargs', harg'⟩ := h'.arg
  obtain rfl := Option.some.inj (hargs.symm.trans hargs')
  exact Option.some.inj (harg.symm.trans harg')

/-- What an event loop tells about the steps before it. -/
theorem init_eq_ok {P : WorkerProgram R} {filename : String} {el : WorkerEventLoop R} :
    (P.init filename).2 = .ok el ↔ P.steps.createLoop = some el.loop ∧ 0 ≤ P.steps.loopInit
      ∧ P.steps.mallocWorker = true
      ∧ el.worker = ⟨some el.loop, true, (newSandbox (P.call filename).st (some el.loop)
        filename).2⟩ := by
  rw [init_snd, WorkerEventLoop.init_eq_ok_iff, newWorker_eq_some_iff]
  rfl

/-- Without one, what was taken for it stays. -/
theorem init_eq_error {P : WorkerProgram R} {filename : String} {e : LoopError}
    (h : (P.init filename).2 = .error e) : ∃ rs : List (ProgramResource R),
      P.init filename = (rs.map .acquire, .error e)
        ∧ ∀ r ∈ rs, ∃ loop, P.steps.createLoop = some loop
          ∧ (r = .loop loop ∨ r = .loopHandle loop) := by
  unfold init at h ⊢
  cases hloop : P.steps.createLoop with
  | none =>
      rw [hloop] at h
      obtain rfl := Except.error.inj h
      exact ⟨[], rfl, fun _ hr => by cases hr⟩
  | some loop =>
      rw [hloop] at h
      dsimp only at h ⊢
      split_ifs at h ⊢
      · obtain rfl := Except.error.inj h
        exact ⟨[.loop loop], rfl, fun r hr => ⟨loop, rfl, .inl (List.mem_singleton.mp hr)⟩⟩
      · cases hworker : (newWorker (P.call filename).st (some loop) filename).2 with
        | some worker =>
            rw [hworker] at h
            cases h
        | none =>
            rw [hworker] at h
            obtain rfl := Except.error.inj h
            refine ⟨[.loop loop, .loopHandle loop], rfl, fun r hr => ⟨loop, rfl, ?_⟩⟩
            simpa using hr

end WorkerProgram

/-! ## The sandbox -/

/-- The sandbox is there, and each step of its construction succeeded with these values. -/
structure SandboxCall.Complete (c : SandboxCall R) (p : Parts R) : Prop where
  mallocSandbox : c.steps.mallocSandbox = true
  fullInit : c.steps.fullInit = true
  made : c.st.Made c.filename p

/-- What the construction of a complete sandbox takes. -/
def Parts.taken (p : Parts R) : List (WasmAction R) :=
  [.acquire .sandbox, .runtimeInit, .acquire (.file p.bytes), .acquire (.wasmModule p.wasmModule),
    .acquire (.wasmInstance p.wasmInstance), .acquire (.execEnv p.execEnv)]

theorem SandboxCall.Complete.run_eq {c : SandboxCall R} {p : Parts R} (h : c.Complete p)
    {loop : Nat} (hloop : c.loop = some loop) :
    ∃ box, c.run = (p.taken, some box) ∧ box.Holds p := by
  have hcourse := sandboxCourse c
  have hrun : c.run = (c.run.1, c.run.2) := rfl
  rw [hrun]
  generalize c.run.1 = log at hcourse ⊢
  generalize c.run.2 = box at hcourse ⊢
  cases hcourse with
  | null hnone =>
      rcases hnone with hnone | hnone
      · cases hloop.symm.trans hnone
      · cases h.mallocSandbox.symm.trans hnone
  | noRuntime _ _ hinit => cases h.fullInit.symm.trans hinit
  | noFile _ _ _ hload => cases (SandboxCall.st_of_failed hload _).symm.trans h.made.loadWasmFile
  | noModule _ _ _ hbytes _ hload =>
      exact absurd ⟨_, _, h.made.loadWasmFile, h.made.load⟩
        (SandboxCall.not_moduleLoaded_of_load hbytes hload)
  | failed _ _ _ _ hmade => exact absurd ⟨p, h.made⟩ hmade
  | built _ _ _ hmade hholds =>
      obtain rfl := hmade.unique h.made
      exact ⟨_, rfl, hholds⟩

/-! ## The courses of the program -/

namespace WorkerProgram

variable {P : WorkerProgram R} {filename : String}

/-- Without an event loop: status 1, and what was taken for one stays. -/
theorem main_of_not_started (h : ∀ filename, ¬P.Started filename) (G : Guest R σ)
    (w : GuestState R σ) : ∃ rs : List (ProgramResource R),
      P.main G w = ⟨rs.map .acquire, w, .ok 1⟩
        ∧ ∀ r ∈ rs, ∃ loop, P.steps.createLoop = some loop
          ∧ (r = .loop loop ∨ r = .loopHandle loop) := by
  unfold main
  cases hargs : P.args with
  | none => exact ⟨[], rfl, fun _ hr => by cases hr⟩
  | some args =>
      dsimp only
      cases harg : args[1]? with
      | none => exact ⟨[], rfl, fun _ hr => by cases hr⟩
      | some filename =>
          cases hinit : (P.init filename).2 with
          | ok el =>
              obtain ⟨hloop, hloopInit, hworker, -⟩ := init_eq_ok.mp hinit
              exact absurd ⟨⟨args, hargs, harg⟩, ⟨_, hloop⟩, hloopInit, hworker⟩ (h filename)
          | error e =>
              obtain ⟨rs, heq, hrs⟩ := init_eq_error hinit
              dsimp only
              rw [heq]
              exact ⟨rs, rfl, hrs⟩

/-- With one: what the guest's `init` is called through is what `NewSandbox` returned. -/
theorem main_of_started (h : P.Started filename) (G : Guest R σ) (w : GuestState R σ) :
    ∃ loop, P.steps.createLoop = some loop
      ∧ P.main G w = serve G ⟨loop, some loop, true, (P.call filename).run.2⟩
        ([.acquire (.loop loop), .acquire (.loopHandle loop), .acquire .worker]
          ++ (P.call filename).run.1.map .wasm) w := by
  obtain ⟨args, hargs, harg⟩ := h.arg
  obtain ⟨loop, hloop⟩ := h.loop
  have hinit : ¬P.steps.loopInit < 0 := by
    have := h.loopInit
    omega
  have hcall : (P.call filename).loop = some loop := hloop
  have hworker : (newWorker (P.call filename).st (some loop) filename).2
      = some ⟨some loop, true, (P.call filename).run.2⟩ :=
    newWorker_eq_some_iff.mpr ⟨h.worker, by rw [← hcall]; rfl⟩
  refine ⟨loop, hloop, ?_⟩
  simp only [main, hargs, harg, init, hloop, if_neg hinit, hworker]

/-- What the program does between `init` and the end. -/
def loopRun (loop : Nat) (done : Bool) : List (ProgramAction R) :=
  if done then [.uvRun loop] else []

theorem serve_of_holds {el : WorkerEventLoop R} {box : Sandbox R} {p : Parts R}
    (hbox : el.worker.sandbox = some box) (h : box.Holds p) (G : Guest R σ)
    {taken : List (ProgramAction R)} (htaken : taken.any ProgramAction.freesFile = false)
    (w : GuestState R σ) :
    serve G el taken w
      = ⟨taken ++ loopRun el.loop (completed (G.exec (p.func .init) w).1)
          ++ (p.released.map .wasm ++ [.release (.loopHandle el.loop), .release (.loop el.loop)]),
          (G.exec (p.func .init) w).2,
          .ok (if completed (G.exec (p.func .init) w).1 then 0 else 1)⟩ := by
  have hcall : callInit G el taken w
      = .ok (if completed (G.exec (p.func .init) w).1 then .ok true
        else .error .FailedToCallInit, (G.exec (p.func .init) w).2) := by
    rw [callInit, htaken, if_neg Bool.false_ne_true]
    exact WorkerEventLoop.call_of_holds hbox h G .init w
  have hdeinit : el.deinit = .ok (p.released.map .wasm
      ++ [.release (.loopHandle el.loop), .release (.loop el.loop)]) := by
    simp only [WorkerEventLoop.deinit, workerFree, hbox, h.sandboxFree_eq]
  unfold serve
  rw [hcall, hdeinit]
  cases completed (G.exec (p.func .init) w).1 with
  | false => simp [loopRun]
  | true => rfl

/-- A call on a sandbox without an environment has no meaning, and on none. -/
theorem call_of_no_execEnv {el : WorkerEventLoop R}
    (h : ∀ box e, el.worker.sandbox = some box → box.wasm_exec_env ≠ .ptr e) (G : Guest R σ)
    (w : GuestState R σ) : el.call G .init w = .error .undefined := by
  unfold WorkerEventLoop.call Worker.call
  cases hbox : el.worker.sandbox with
  | none => rfl
  | some box =>
      have hnone : callWasmA G box.wasm_exec_env box.init_func w = .error .undefined := by
        unfold callWasmA
        cases henv : box.wasm_exec_env with
        | uninit | null => rfl
        | ptr e => exact absurd henv (h box e hbox)
      simp only [sandboxCallExport, sandboxCallInit, sandboxCall, hnone]

/-- **`init` through an incomplete sandbox** has no meaning: there is nothing to call it
through, or its module has lost its buffer. -/
theorem serve_of_not_complete {c : SandboxCall R} {el : WorkerEventLoop R}
    (hbox : el.worker.sandbox = c.run.2) (h : ∀ p, ¬c.Complete p) (G : Guest R σ)
    (taken : List (ProgramAction R)) (w : GuestState R σ) :
    serve G el (taken ++ c.run.1.map .wasm) w
      = ⟨taken ++ c.run.1.map .wasm, w, .error .undefined⟩ := by
  have hcall : callInit G el (taken ++ c.run.1.map .wasm) w = .error .undefined := by
    unfold callInit
    split_ifs with hfreed
    · rfl
    rw [List.any_append, Bool.or_eq_true, not_or] at hfreed
    refine call_of_no_execEnv (fun box e hsandbox henv => ?_) G w
    rw [hbox] at hsandbox
    have hcourse := sandboxCourse c
    rw [hsandbox] at hcourse
    generalize c.run.1 = log at hcourse hfreed
    cases hcourse with
    | noRuntime | noFile | noModule => cases henv
    | failed => exact hfreed.2 (by simp [ProgramAction.freesFile])
    | built _ hmalloc hinit hmade _ => exact h _ ⟨hmalloc, hinit, hmade⟩
  rw [serve, hcall]

/-- **The courses of the program.** -/
inductive Course (P : WorkerProgram R) (G : Guest R σ) (w : GuestState R σ) :
    ProgramEnd R σ → Prop where
  | noLoop (hstart : ∀ filename, ¬P.Started filename) (rs : List (ProgramResource R))
      (hrs : ∀ r ∈ rs, ∃ loop, P.steps.createLoop = some loop
        ∧ (r = .loop loop ∨ r = .loopHandle loop)) :
      Course P G w ⟨rs.map .acquire, w, .ok 1⟩
  | incomplete {filename : String} {loop : Nat} (hstart : P.Started filename)
      (hnone : ∀ p, ¬(P.call filename).Complete p) :
      Course P G w ⟨[.acquire (.loop loop), .acquire (.loopHandle loop), .acquire .worker]
        ++ (P.call filename).run.1.map .wasm, w, .error .undefined⟩
  | complete {filename : String} {p : Parts R} {loop : Nat}
      (hstart : P.Started filename) (hp : (P.call filename).Complete p) :
      Course P G w
        ⟨[.acquire (.loop loop), .acquire (.loopHandle loop), .acquire .worker]
            ++ p.taken.map .wasm ++ loopRun loop (completed (G.exec (p.func .init) w).1)
            ++ (p.released.map .wasm ++ [.release (.loopHandle loop), .release (.loop loop)]),
          (G.exec (p.func .init) w).2,
          .ok (if completed (G.exec (p.func .init) w).1 then 0 else 1)⟩

theorem course_main (P : WorkerProgram R) (G : Guest R σ) (w : GuestState R σ) :
    Course P G w (P.main G w) := by
  by_cases hstart : ∃ filename, P.Started filename
  · obtain ⟨filename, hstart⟩ := hstart
    obtain ⟨loop, hloop, hmain⟩ := main_of_started hstart G w
    rw [hmain]
    by_cases hcomplete : ∃ p, (P.call filename).Complete p
    · obtain ⟨p, hp⟩ := hcomplete
      obtain ⟨box, hrun, hholds⟩ := hp.run_eq hloop
      have hbox : (P.call filename).run.2 = some box := by rw [hrun]
      rw [serve_of_holds hbox hholds G (by rw [hrun]; rfl), hrun]
      exact .complete hstart hp
    · push Not at hcomplete
      rw [serve_of_not_complete rfl hcomplete]
      exact .incomplete hstart hcomplete
  · push Not at hstart
    obtain ⟨rs, hmain, hrs⟩ := main_of_not_started hstart G w
    rw [hmain]
    exact .noLoop hstart rs hrs

end WorkerProgram

/-! ## How it ends -/

/-- **How the worker program ends**, for every outcome of every step. With status 0 and the
loop run exactly when the sandbox is complete and `init` returned another number
than 0; with status 1 exactly when there is no event loop, or the sandbox is
complete and `init` trapped or returned 0; and without a meaning exactly when the
event loop is there and the sandbox is not complete. The guest has executed
`init` once, or nothing. -/
theorem worker_ends (P : WorkerProgram R) (G : Guest R σ) (w : GuestState R σ) :
    ((P.main G w).exit = .ok 0 ↔ ∃ filename p, P.Started filename
        ∧ (P.call filename).Complete p ∧ completed (G.exec (p.func .init) w).1 = true)
      ∧ ((P.main G w).exit = .ok 1 ↔ (∀ filename, ¬P.Started filename)
        ∨ ∃ filename p, P.Started filename ∧ (P.call filename).Complete p
          ∧ completed (G.exec (p.func .init) w).1 = false)
      ∧ ((P.main G w).exit = .error .undefined ↔ ∃ filename, P.Started filename
        ∧ ∀ p, ¬(P.call filename).Complete p)
      ∧ ((P.main G w).exit = .ok 0 ↔ ∃ loop, .uvRun loop ∈ (P.main G w).actions)
      ∧ ((P.main G w).guest = w ∨ ∃ filename p, (P.call filename).Complete p
        ∧ (P.main G w).guest = (G.exec (p.func .init) w).2) := by
  have hcourse := P.course_main G w
  generalize P.main G w = e at hcourse ⊢
  cases hcourse with
  | noLoop hstart rs hrs =>
      refine ⟨iff_of_false (fun h => by cases h) ?_, iff_of_true rfl (.inl hstart),
        iff_of_false (fun h => by cases h) ?_, iff_of_false (fun h => by cases h) ?_, .inl rfl⟩
      · rintro ⟨filename, p, h, -⟩
        exact hstart filename h
      · rintro ⟨filename, h, -⟩
        exact hstart filename h
      · rintro ⟨loop, h⟩
        obtain ⟨r, -, hr⟩ := List.mem_map.mp h
        cases hr
  | @incomplete filename loop hstart hnone =>
      have hnone' : ∀ filename' p, P.Started filename' → ¬(P.call filename').Complete p := by
        intro filename' p h
        rw [h.unique hstart]
        exact hnone p
      refine ⟨iff_of_false (fun h => by cases h) ?_, iff_of_false (fun h => by cases h) ?_,
        iff_of_true rfl ⟨filename, hstart, hnone⟩, iff_of_false (fun h => by cases h) ?_, .inl rfl⟩
      · rintro ⟨filename', p, h, hp, -⟩
        exact hnone' filename' p h hp
      · rintro (h | ⟨filename', p, h, hp, -⟩)
        · exact h filename hstart
        · exact hnone' filename' p h hp
      · simp
  | @complete filename p loop hstart hp =>
      -- the file and its parts are the ones the program was called with
      have hthere : ∀ done, completed (G.exec (p.func .init) w).1 = done ↔
          ∃ filename q, P.Started filename ∧ (P.call filename).Complete q
            ∧ completed (G.exec (q.func .init) w).1 = done := by
        intro done
        constructor
        · exact fun h => ⟨filename, p, hstart, hp, h⟩
        · rintro ⟨filename', q, h, hq, hdone⟩
          obtain rfl := hstart.unique h
          rwa [hp.made.unique hq.made]
      rw [← hthere, ← hthere]
      refine ⟨?_, ?_, iff_of_false (fun h => by cases h) ?_, ?_, .inr ⟨filename, p, hp, rfl⟩⟩
      · cases completed (G.exec (p.func .init) w).1 <;> simp
      · rw [or_iff_right fun h => h filename hstart]
        cases completed (G.exec (p.func .init) w).1 <;> simp
      · rintro ⟨filename', h, hnone⟩
        obtain rfl := hstart.unique h
        exact hnone p hp
      · cases completed (G.exec (p.func .init) w).1 <;> simp [WorkerProgram.loopRun]

/-! ## What it keeps -/

def ProgramAction.entry? : ProgramAction R → Option (Entry (ProgramResource R))
  | .acquire r => some (.add r)
  | .release r => some (.remove r)
  | .wasm (.acquire r) => some (.add (.sandbox r))
  | .wasm (.release r) => some (.remove (.sandbox r))
  | .wasm .runtimeInit => none
  | .wasm .runtimeDestroy => none
  | .uvRun _ => none

def programEntries (actions : List (ProgramAction R)) : List (Entry (ProgramResource R)) :=
  actions.filterMap ProgramAction.entry?

theorem programEntries_append (as bs : List (ProgramAction R)) :
    programEntries (as ++ bs) = programEntries as ++ programEntries bs := List.filterMap_append ..

theorem programEntries_acquires (rs : List (ProgramResource R)) :
    programEntries (rs.map .acquire) = rs.map .add := by
  rw [programEntries, List.filterMap_map, ← List.filterMap_eq_map]
  rfl

theorem programEntries_loopRun (loop : Nat) (done : Bool) :
    programEntries (WorkerProgram.loopRun (R := R) loop done) = [] := by
  cases done <;> rfl

/-- What the program takes for a complete sandbox. -/
def Parts.resources (p : Parts R) (loop : Nat) : List (ProgramResource R) :=
  [.loop loop, .loopHandle loop, .worker, .sandbox .sandbox, .sandbox (.file p.bytes),
    .sandbox (.wasmModule p.wasmModule), .sandbox (.wasmInstance p.wasmInstance),
    .sandbox (.execEnv p.execEnv)]

/-- What `deinit` gives back of it. -/
def Parts.returned (p : Parts R) (loop : Nat) : List (ProgramResource R) :=
  [.sandbox (.execEnv p.execEnv), .sandbox (.wasmInstance p.wasmInstance),
    .sandbox (.wasmModule p.wasmModule), .sandbox .sandbox, .loopHandle loop, .loop loop]

/-- **What the worker program keeps** when it ends with a status. Nothing is given back
twice or untaken. Without an event loop it keeps what it took for one. With one its
sandbox is complete, and it keeps the worker and the buffer of the file. -/
theorem worker_keeps [DecidableEq (ProgramResource R)] (P : WorkerProgram R) (G : Guest R σ)
    (w : GuestState R σ) {status : Nat} (h : (P.main G w).exit = .ok status) :
    ∃ l, postAll 0 (programEntries (P.main G w).actions) = some l
      ∧ ((∀ filename, ¬P.Started filename) → ∀ r ∈ l, ∃ loop, P.steps.createLoop = some loop
        ∧ (r = .loop loop ∨ r = .loopHandle loop))
      ∧ ∀ filename, P.Started filename → ∃ p, (P.call filename).Complete p
        ∧ l = {.worker, .sandbox (.file p.bytes)} := by
  have hcourse := P.course_main G w
  generalize P.main G w = e at hcourse h ⊢
  cases hcourse with
  | noLoop hstart rs hrs =>
      refine ⟨rs, ?_, fun _ => hrs, fun filename h => absurd h (hstart filename)⟩
      rw [programEntries_acquires, postAll_adds, add_zero]
  | incomplete => cases h
  | @complete filename p loop hstart hp =>
      simp only [programEntries_append, programEntries_loopRun, List.append_nil]
      have hl : postAll 0 ((p.resources loop).map .add ++ (p.returned loop).map .remove)
          = some (({.worker, .sandbox (.file p.bytes)} : Multiset (ProgramResource R))) := by
        refine postAll_adds_removes [ProgramResource.worker, .sandbox (.file p.bytes)] ?_
        refine List.perm_iff_count.mpr fun a => ?_
        simp only [Parts.resources, Parts.returned, List.count_cons, List.cons_append,
          List.nil_append]
        omega
      refine ⟨_, hl, fun h => absurd hstart (h filename), fun filename' h => ?_⟩
      obtain rfl := h.unique hstart
      exact ⟨p, hp, rfl⟩

/-- The program over a file of one byte, all of whose steps succeed. -/
def oneByteProgram : WorkerProgram ⟨Unit, Unit, Unit, Export⟩ :=
  ⟨some ["worker", "a.wasm"], allSteps, ⟨some [0], true, true, 1⟩⟩

/-- A guest whose functions return 1. -/
def oneGuest : Guest ⟨Unit, Unit, Unit, Export⟩ Unit := ⟨fun _ memory => (some 1, memory)⟩

open Classical in
theorem oneByteProgram_keeps :
    postAll 0 (programEntries (oneByteProgram.main oneGuest ⟨(), []⟩).actions)
      = some {.worker, .sandbox (.file [0])} := by
  obtain ⟨l, hl, -, hstarted⟩ := worker_keeps oneByteProgram oneGuest ⟨(), []⟩
    rfl
  obtain ⟨p, hp, hkept⟩ := hstarted "a.wasm" ⟨⟨_, rfl, rfl⟩, ⟨0, rfl⟩, by decide, rfl⟩
  have hbytes : p.bytes = [0] := (Option.some.inj hp.made.loadWasmFile).symm
  rw [hl, hkept, hbytes]

end Vespa
