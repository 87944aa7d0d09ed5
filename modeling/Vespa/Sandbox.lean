import Vespa.Run

/-!
# The sandbox (`sandbox_wasm.c`)

The WebAssembly runtime lies outside the repository. `Wamr` is what its
handles point at and `Steps` what each call of a construction returned, for
every choice of outcomes; `Guest` is what executing a function instance does.
A pointer member is a `Slot`: never written, NULL, or pointing at something.

`NewSandbox` takes its steps in turn and jumps to `failed` at the first that
returns NULL. Both of its labels return the object, in whatever state it is.
The resources it takes and gives back are recorded; nothing branches on the
record.

The three calls of a sandbox are one function with the function instance as
its parameter, and all three are given the same one.
-/

namespace Vespa

/-- A pointer member of an object; before it is written, `malloc` left there whatever
it left. -/
inductive Slot (α : Type) where
  | uninit
  | null
  | ptr (a : α)
deriving DecidableEq, Repr

/-- What the runtime's handles point at. -/
structure Wamr where
  Module : Type
  Instance : Type
  ExecEnv : Type
  Function : Type

inductive Export where
  | init | view | update
deriving DecidableEq, Repr

variable {R : Wamr}

/-- `struct _Sandbox`; a loop is known by its address. -/
structure Sandbox (R : Wamr) where
  loop : Slot Nat
  wasm_module : Slot R.Module
  wasm_module_inst : Slot R.Instance
  wasm_exec_env : Slot R.ExecEnv
  init_func : Slot R.Function
  update_func : Slot R.Function
  view_func : Slot R.Function

def Sandbox.uninit : Sandbox R := ⟨.uninit, .uninit, .uninit, .uninit, .uninit, .uninit, .uninit⟩

def Sandbox.zeroed (loop : Nat) : Sandbox R := ⟨.ptr loop, .null, .null, .null, .null, .null, .null⟩

/-- What the steps of a construction return: the two allocations of each language,
`uv_loop_init`, and the runtime's calls by their names. -/
structure Steps (R : Wamr) where
  createLoop : Option Nat
  loopInit : Int
  mallocWorker : Bool
  mallocSandbox : Bool
  fullInit : Bool
  loadWasmFile : String → Option (List UInt8)
  load : List UInt8 → Option R.Module
  instantiate : R.Module → Option R.Instance
  createExecEnv : R.Instance → Option R.ExecEnv
  lookup : R.Instance → Export → Option R.Function

/-! ## `NewSandbox` -/

inductive Resource (R : Wamr) where
  | sandbox
  | file (bytes : List UInt8)
  | wasmModule (m : R.Module)
  | wasmInstance (i : R.Instance)
  | execEnv (e : R.ExecEnv)

inductive WasmAction (R : Wamr) where
  | runtimeInit
  | runtimeDestroy
  | acquire (r : Resource R)
  | release (r : Resource R)

structure Building (R : Wamr) where
  result : Sandbox R
  bytes : Option (List UInt8)
  actions : List (WasmAction R)

/-- `result->… = step(…); if (!result->…) goto failed;` -/
def assign {α : Type} (b : Building R) (set : Slot α → Sandbox R)
    (acquired : α → List (Resource R)) : Option α → Except (Building R) (α × Building R)
  | some a =>
    .ok (a, { b with result := set (.ptr a), actions := b.actions ++ (acquired a).map .acquire })
  | none => .error { b with result := set .null }

/-- The steps between the `memset` and the labels: `.error` is `goto failed`. -/
def construct (st : Steps R) (filename : String) (b : Building R) :
    Except (Building R) (Building R) := do
  match st.loadWasmFile filename with
  | none => throw b
  | some bytes =>
    let b := { b with bytes := some bytes, actions := b.actions ++ [.acquire (.file bytes)] }
    let (m, b) ← assign b (fun p => { b.result with wasm_module := p })
      (fun m => [.wasmModule m]) (st.load bytes)
    let (i, b) ← assign b (fun p => { b.result with wasm_module_inst := p })
      (fun i => [.wasmInstance i]) (st.instantiate m)
    let (_, b) ← assign b (fun p => { b.result with wasm_exec_env := p })
      (fun e => [.execEnv e]) (st.createExecEnv i)
    -- `LOOKUP_WASM_FUNC`
    let (_, b) ← assign b (fun p => { b.result with init_func := p })
      (fun _ => []) (st.lookup i .init)
    let (_, b) ← assign b (fun p => { b.result with view_func := p })
      (fun _ => []) (st.lookup i .view)
    let (_, b) ← assign b (fun p => { b.result with update_func := p })
      (fun _ => []) (st.lookup i .update)
    return b

def newSandbox (st : Steps R) (loop : Option Nat) (filename : String) :
    List (WasmAction R) × Option (Sandbox R) :=
  match loop with
  | none => ([], none)
  | some loop =>
    if !st.mallocSandbox then ([], none)
    -- the object is returned before its `memset`
    else if !st.fullInit then ([.acquire .sandbox], some .uninit)
    else
      match construct st filename ⟨.zeroed loop, none, [.acquire .sandbox, .runtimeInit]⟩ with
      | .ok b => (b.actions, some b.result)
      | .error b =>
        (b.actions ++ b.bytes.toList.map fun bytes => .release (.file bytes), some b.result)

/-- `if (box->…) release(box->…);` -/
def releaseMember {α : Type} (member : Slot α) (r : α → Resource R) :
    Except Halt (List (WasmAction R)) :=
  match member with
  | .uninit => .error .undefined
  | .null => .ok []
  | .ptr a => .ok [.release (r a)]

def sandboxFree (box : Option (Sandbox R)) : Except Halt (List (WasmAction R)) :=
  match box with
  | none => .ok []
  | some box => do
    let env ← releaseMember box.wasm_exec_env .execEnv
    let inst ← releaseMember box.wasm_module_inst .wasmInstance
    let module ← releaseMember box.wasm_module .wasmModule
    return env ++ inst ++ module ++ [.runtimeDestroy, .release .sandbox]

/-! ## What a sandbox should hold -/

structure Parts (R : Wamr) where
  bytes : List UInt8
  wasmModule : R.Module
  wasmInstance : R.Instance
  execEnv : R.ExecEnv
  func : Export → R.Function

/-- Each step of the construction succeeded, with these values. -/
structure Steps.Made (st : Steps R) (filename : String) (p : Parts R) : Prop where
  loadWasmFile : st.loadWasmFile filename = some p.bytes
  load : st.load p.bytes = some p.wasmModule
  instantiate : st.instantiate p.wasmModule = some p.wasmInstance
  createExecEnv : st.createExecEnv p.wasmInstance = some p.execEnv
  lookup : ∀ x, st.lookup p.wasmInstance x = some (p.func x)

theorem Steps.Made.unique {st : Steps R} {filename : String} {p q : Parts R}
    (hp : st.Made filename p) (hq : st.Made filename q) : p = q := by
  obtain ⟨bytes, m, i, e, func⟩ := p
  obtain ⟨bytes', m', i', e', func'⟩ := q
  obtain rfl : bytes = bytes' := Option.some.inj (hp.loadWasmFile.symm.trans hq.loadWasmFile)
  obtain rfl : m = m' := Option.some.inj (hp.load.symm.trans hq.load)
  obtain rfl : i = i' := Option.some.inj (hp.instantiate.symm.trans hq.instantiate)
  obtain rfl : e = e' := Option.some.inj (hp.createExecEnv.symm.trans hq.createExecEnv)
  obtain rfl : func = func' :=
    funext fun x => Option.some.inj ((hp.lookup x).symm.trans (hq.lookup x))
  rfl

structure Sandbox.Holds (box : Sandbox R) (p : Parts R) : Prop where
  wasm_module : box.wasm_module = .ptr p.wasmModule
  wasm_module_inst : box.wasm_module_inst = .ptr p.wasmInstance
  wasm_exec_env : box.wasm_exec_env = .ptr p.execEnv
  init_func : box.init_func = .ptr (p.func .init)
  view_func : box.view_func = .ptr (p.func .view)
  update_func : box.update_func = .ptr (p.func .update)

/-- All members are set to the values the steps returned. -/
def Sandbox.Usable (st : Steps R) (filename : String) (box : Sandbox R) : Prop :=
  ∃ p, st.Made filename p ∧ box.Holds p

/-- The runtime came up and every step succeeded. -/
def Steps.Built (st : Steps R) (filename : String) : Prop :=
  st.fullInit = true ∧ ∃ p, st.Made filename p

/-- **The construction, when every step succeeds.** -/
theorem construct_of_made {st : Steps R} {filename : String} {p : Parts R}
    (h : st.Made filename p) (b : Building R) :
    ∃ b', construct st filename b = .ok b' ∧ b'.result.Holds p := by
  simp only [construct, h.loadWasmFile, h.load, h.instantiate, h.createExecEnv, h.lookup,
    assign, bind, Except.bind]
  exact ⟨_, rfl, rfl, rfl, rfl, rfl, rfl, rfl⟩

theorem newSandbox_of_built {st : Steps R} {filename : String} {p : Parts R} {loop : Nat}
    (hmalloc : st.mallocSandbox = true) (hinit : st.fullInit = true)
    (h : st.Made filename p) :
    ∃ box, (newSandbox st (some loop) filename).2 = some box ∧ box.Holds p := by
  obtain ⟨b', hb', hholds⟩ := construct_of_made h
    ⟨.zeroed loop, none, [.acquire .sandbox, .runtimeInit]⟩
  refine ⟨b'.result, ?_, hholds⟩
  simp only [newSandbox, hmalloc, hinit, hb', Bool.not_true, Bool.false_eq_true, if_false]

/-- `NewSandbox` returns NULL for no loop and no memory, and for nothing else. -/
theorem exists_newSandbox_iff {st : Steps R} {loop : Option Nat} {filename : String} :
    (∃ box, (newSandbox st loop filename).2 = some box)
      ↔ loop.isSome = true ∧ st.mallocSandbox = true := by
  cases loop with
  | none => simp [newSandbox]
  | some loop =>
      cases hmalloc : st.mallocSandbox with
      | false => simp [newSandbox, hmalloc]
      | true =>
          refine iff_of_true ?_ ⟨rfl, rfl⟩
          simp only [newSandbox, hmalloc, Bool.not_true, Bool.false_eq_true, if_false]
          split
          · exact ⟨_, rfl⟩
          · split <;> exact ⟨_, rfl⟩

/-- **Its object is usable exactly when all was built.** -/
theorem usable_newSandbox_iff {st : Steps R} {loop : Option Nat} {filename : String}
    {box : Sandbox R} (hbox : (newSandbox st loop filename).2 = some box) :
    box.Usable st filename ↔ st.Built filename := by
  obtain ⟨hloop, hmalloc⟩ := exists_newSandbox_iff.mp ⟨box, hbox⟩
  obtain ⟨loop, rfl⟩ := Option.isSome_iff_exists.mp hloop
  constructor
  · rintro ⟨p, hmade, hholds⟩
    refine ⟨?_, p, hmade⟩
    cases hinit : st.fullInit with
    | true => rfl
    | false =>
        -- the object was returned as `malloc` left it
        simp only [newSandbox, hmalloc, hinit, Bool.not_true, Bool.not_false,
          Bool.false_eq_true, if_false, if_true] at hbox
        obtain rfl := Option.some.inj hbox
        cases hholds.wasm_module
  · rintro ⟨hinit, p, hmade⟩
    obtain ⟨box', hbox', hholds⟩ : ∃ box', (newSandbox st (some loop) filename).2 = some box'
        ∧ box'.Holds p := newSandbox_of_built hmalloc hinit hmade
    rw [hbox] at hbox'
    exact ⟨p, hmade, Option.some.inj hbox' ▸ hholds⟩

/-! ## Calling a sandbox -/

/-- What executing a function instance does to the module's state: the i32 it
returns, or a trap. -/
structure Guest (R : Wamr) (σ : Type) where
  run : R.Function → σ → Option (BitVec 32) × σ

structure GuestState (R : Wamr) (σ : Type) where
  memory : σ
  trace : List R.Function

section
variable {σ : Type}

def Guest.exec (G : Guest R σ) (f : R.Function) (w : GuestState R σ) :
    Option (BitVec 32) × GuestState R σ :=
  let (ret, memory) := G.run f w.memory
  (ret, ⟨memory, w.trace ++ [f]⟩)

/-- `wasm_runtime_call_wasm_a` with one result. -/
def callWasmA (G : Guest R σ) (env : Slot R.ExecEnv) (f : Slot R.Function)
    (w : GuestState R σ) : Except Halt (Option (BitVec 32) × GuestState R σ) :=
  match env, f with
  | .ptr _, .ptr f => .ok (G.exec f w)
  | _, _ => .error .undefined

def sandboxCall (G : Guest R σ) (box : Sandbox R) (f : Slot R.Function) (w : GuestState R σ) :
    Except Halt (Bool × GuestState R σ) :=
  match callWasmA G box.wasm_exec_env f w with
  | .error e => .error e
  | .ok (none, w) => .ok (false, w)
  | .ok (some ret, w) => .ok (ret != 0, w)

def sandboxCallInit (G : Guest R σ) (box : Sandbox R) := sandboxCall G box box.init_func

/-- `SandboxCallView`, which passes `init_func`. -/
def sandboxCallView (G : Guest R σ) (box : Sandbox R) := sandboxCall G box box.init_func

/-- `SandboxCallUpdate`, which passes `init_func`. -/
def sandboxCallUpdate (G : Guest R σ) (box : Sandbox R) := sandboxCall G box box.init_func

def sandboxCallExport (G : Guest R σ) (box : Sandbox R) : Export →
    GuestState R σ → Except Halt (Bool × GuestState R σ)
  | .init => sandboxCallInit G box
  | .view => sandboxCallView G box
  | .update => sandboxCallUpdate G box

def completed (ret : Option (BitVec 32)) : Bool := ret.any (· != 0)

/-- **Every call of a sandbox that holds its parts executes `init`.** -/
theorem sandboxCallExport_of_holds {G : Guest R σ} {box : Sandbox R} {p : Parts R}
    (h : box.Holds p) (x : Export) (w : GuestState R σ) :
    sandboxCallExport G box x w
      = .ok (completed (G.exec (p.func .init) w).1, (G.exec (p.func .init) w).2) := by
  have hcall : sandboxCall G box box.init_func w
      = .ok (completed (G.exec (p.func .init) w).1, (G.exec (p.func .init) w).2) := by
    rw [sandboxCall, h.wasm_exec_env, h.init_func]
    rcases hexec : G.exec (p.func .init) w with ⟨_ | ret, w'⟩ <;>
      simp only [callWasmA, hexec] <;> rfl
  cases x <;> exact hcall

end

end Vespa
