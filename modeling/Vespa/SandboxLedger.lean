import Vespa.Ledger
import Vespa.Sandbox
import Vespa.WasmFile

/-!
# Sandboxes and what they own

Any number of sandboxes are made and freed, in any order, over one runtime that
counts its initialisations. Each construction has a log of what it takes and
gives back, continued by its `SandboxFree`.

`Balanced` is what the two functions should keep between them: one reference of
the runtime for each live sandbox, so that none loses it under another; each
resource of a log released at most once, and all of them when the sandbox is
done with; and no file buffer released under the module loaded from it. The
code keeps it through the constructions that fail early. One that fails late
frees the buffer under the loaded module, and one that succeeds forgets it.
-/

namespace Vespa

open Ledger

variable {R : Wamr}

/-! ## A construction -/

/-- A call of `NewSandbox`, with what its steps return and the course of its
`LoadWasmFile`. -/
structure SandboxCall (R : Wamr) where
  steps : Steps R
  file : FileCall
  loop : Option Nat
  filename : String

namespace SandboxCall

/-- `LoadWasmFile(filename, &bytes, &nbytes)`, both zero before. -/
def loaded (c : SandboxCall R) : LoadedFile := loadWasmFile c.file none 0

def st (c : SandboxCall R) : Steps R :=
  { c.steps with loadWasmFile := fun _ => if c.loaded.result then c.loaded.bytes else none }

/-- The buffer that a failed `LoadWasmFile` allocated. -/
def lost (c : SandboxCall R) : List (Resource R) :=
  if c.loop.isSome && c.steps.mallocSandbox && c.steps.fullInit && !c.loaded.result then
    c.loaded.buffers.map .file
  else []

/-- What the call does and returns. Where `LoadWasmFile` fails, nothing follows it. -/
def run (c : SandboxCall R) : List (WasmAction R) × Option (Sandbox R) :=
  let (actions, box) := newSandbox c.st c.loop c.filename
  (actions ++ c.lost.map .acquire, box)

/-- The file was read and `wasm_runtime_load` took it. -/
def ModuleLoaded (c : SandboxCall R) : Prop :=
  ∃ bytes m, c.st.loadWasmFile c.filename = some bytes ∧ c.steps.load bytes = some m

def Made (c : SandboxCall R) : Prop := ∃ p, c.st.Made c.filename p

theorem st_of_failed {c : SandboxCall R} (h : c.loaded.result = false) (filename : String) :
    c.st.loadWasmFile filename = none := by
  simp [st, h]

theorem st_of_loaded {c : SandboxCall R} (h : c.loaded.result = true) (filename : String) :
    c.st.loadWasmFile filename = c.loaded.bytes := if_pos h

theorem not_moduleLoaded_of_file {c : SandboxCall R} (h : c.loaded.result = false) :
    ¬c.ModuleLoaded := by
  rintro ⟨bytes, m, hbytes, -⟩
  rw [st_of_failed h] at hbytes
  cases hbytes

theorem not_moduleLoaded_of_load {c : SandboxCall R} {bytes : List UInt8}
    (hbytes : c.st.loadWasmFile c.filename = some bytes) (hload : c.steps.load bytes = none) :
    ¬c.ModuleLoaded := by
  rintro ⟨bytes', m, hbytes', hload'⟩
  obtain rfl := Option.some.inj (hbytes.symm.trans hbytes')
  rw [hload] at hload'
  cases hload'

end SandboxCall

/-- **The courses of a construction**, and what each leaves. -/
inductive SandboxCourse (c : SandboxCall R) :
    List (WasmAction R) → Option (Sandbox R) → Prop where
  | null (h : c.loop = none ∨ c.steps.mallocSandbox = false) : SandboxCourse c [] none
  | noRuntime (hloop : c.loop ≠ none) (hmalloc : c.steps.mallocSandbox = true)
      (hinit : c.steps.fullInit = false) : SandboxCourse c [.acquire .sandbox] (some .uninit)
  | noFile {loop : Nat} (hloop : c.loop = some loop) (hmalloc : c.steps.mallocSandbox = true)
      (hinit : c.steps.fullInit = true) (hload : c.loaded.result = false) :
      SandboxCourse c (.acquire .sandbox :: .runtimeInit :: c.lost.map .acquire)
        (some (.zeroed loop))
  | noModule {loop : Nat} {bytes : List UInt8} (hloop : c.loop = some loop)
      (hmalloc : c.steps.mallocSandbox = true) (hinit : c.steps.fullInit = true)
      (hbytes : c.st.loadWasmFile c.filename = some bytes) (hlost : c.lost = [])
      (hload : c.steps.load bytes = none) :
      SandboxCourse c [.acquire .sandbox, .runtimeInit, .acquire (.file bytes),
        .release (.file bytes)] (some (.zeroed loop))
  | failed {bytes : List UInt8} {m : R.Module} {taken : List (Resource R)} {box : Sandbox R}
      (hloop : c.loop ≠ none)
      (hmalloc : c.steps.mallocSandbox = true) (hinit : c.steps.fullInit = true)
      (hloaded : c.ModuleLoaded) (hmade : ¬c.Made) :
      SandboxCourse c (.acquire .sandbox :: .runtimeInit :: .acquire (.file bytes)
        :: .acquire (.wasmModule m) :: taken.map .acquire ++ [.release (.file bytes)]) (some box)
  | built {p : Parts R} {box : Sandbox R} (hloop : c.loop ≠ none)
      (hmalloc : c.steps.mallocSandbox = true) (hinit : c.steps.fullInit = true)
      (hmade : c.st.Made c.filename p) (hholds : box.Holds p) :
      SandboxCourse c [.acquire .sandbox, .runtimeInit, .acquire (.file p.bytes),
        .acquire (.wasmModule p.wasmModule), .acquire (.wasmInstance p.wasmInstance),
        .acquire (.execEnv p.execEnv)] (some box)

/-- What the free of a complete sandbox gives back. -/
def Parts.released (p : Parts R) : List (WasmAction R) :=
  [.release (.execEnv p.execEnv), .release (.wasmInstance p.wasmInstance),
    .release (.wasmModule p.wasmModule), .runtimeDestroy, .release .sandbox]

theorem Sandbox.Holds.sandboxFree_eq {box : Sandbox R} {p : Parts R} (h : box.Holds p) :
    sandboxFree (some box) = .ok p.released := by
  simp only [sandboxFree, h.wasm_exec_env, h.wasm_module_inst, h.wasm_module]
  rfl

/-- The call, where its steps are tried. -/
theorem SandboxCall.run_eq {c : SandboxCall R} {loop : Nat} (hloop : c.loop = some loop)
    (hmalloc : c.steps.mallocSandbox = true) (hinit : c.steps.fullInit = true) :
    c.run = match construct c.st c.filename
        ⟨.zeroed loop, none, [.acquire .sandbox, .runtimeInit]⟩ with
      | .ok b => (b.actions ++ c.lost.map .acquire, some b.result)
      | .error b => (b.actions ++ (b.bytes.toList.map fun bytes => .release (.file bytes))
          ++ c.lost.map .acquire, some b.result) := by
  have hmalloc' : c.st.mallocSandbox = true := hmalloc
  have hinit' : c.st.fullInit = true := hinit
  simp only [SandboxCall.run, newSandbox, hloop, hmalloc', hinit', Bool.not_true,
    Bool.false_eq_true, if_false]
  cases construct c.st c.filename ⟨.zeroed loop, none, [.acquire .sandbox, .runtimeInit]⟩ <;> rfl

/-- The steps after `wasm_runtime_load`. At the first that fails the buffer is freed,
and nothing else. -/
theorem sandboxCourse_loaded {c : SandboxCall R} {loop : Nat} {bytes : List UInt8}
    {m : R.Module} (hloop : c.loop = some loop) (hmalloc : c.steps.mallocSandbox = true)
    (hinit : c.steps.fullInit = true) (hbytes : c.st.loadWasmFile c.filename = some bytes)
    (hlost : c.lost = []) (hload : c.st.load bytes = some m) :
    SandboxCourse c c.run.1 c.run.2 := by
  have hloop' : c.loop ≠ none := by simp [hloop]
  by_cases hmade : c.Made
  · obtain ⟨p, hp⟩ := hmade
    obtain ⟨b, hb, hholds⟩ := construct_of_made hp
      ⟨.zeroed loop, none, [.acquire .sandbox, .runtimeInit]⟩
    have hactions : b.actions = [.acquire .sandbox, .runtimeInit, .acquire (.file p.bytes),
        .acquire (.wasmModule p.wasmModule), .acquire (.wasmInstance p.wasmInstance),
        .acquire (.execEnv p.execEnv)] := by
      simp only [construct, hp.loadWasmFile, hp.load, hp.instantiate, hp.createExecEnv,
        hp.lookup, assign, bind, Except.bind] at hb
      obtain rfl := Except.ok.inj hb
      rfl
    rw [SandboxCall.run_eq hloop hmalloc hinit, hb, hlost]
    simp only [hactions, List.map_nil, List.append_nil]
    exact .built hloop' hmalloc hinit hp hholds
  · suffices hrun : ∃ (taken : List (Resource R)) (box : Sandbox R),
        c.run = (.acquire .sandbox :: .runtimeInit :: .acquire (.file bytes)
          :: .acquire (.wasmModule m) :: taken.map .acquire ++ [.release (.file bytes)],
          some box) by
      obtain ⟨taken, box, hrun⟩ := hrun
      rw [hrun]
      exact .failed hloop' hmalloc hinit ⟨bytes, m, hbytes, hload⟩ hmade
    rw [SandboxCall.run_eq hloop hmalloc hinit, hlost]
    simp only [construct, hbytes, hload, assign, bind, Except.bind, List.map_nil,
      List.append_nil]
    cases hinst : c.st.instantiate m with
    | none => exact ⟨[], _, rfl⟩
    | some i =>
        simp only
        cases henv : c.st.createExecEnv i with
        | none => exact ⟨[.wasmInstance i], _, rfl⟩
        | some e =>
            simp only
            cases hinitf : c.st.lookup i .init with
            | none => exact ⟨[.wasmInstance i, .execEnv e], _, rfl⟩
            | some f₁ =>
                simp only
                cases hview : c.st.lookup i .view with
                | none => exact ⟨[.wasmInstance i, .execEnv e], _, rfl⟩
                | some f₂ =>
                    simp only
                    cases hupdate : c.st.lookup i .update with
                    | none => exact ⟨[.wasmInstance i, .execEnv e], _, rfl⟩
                    | some f₃ =>
                        have hfound : ∀ x, ∃ f, c.st.lookup i x = some f := by
                          intro x
                          cases x with
                          | init => exact ⟨f₁, hinitf⟩
                          | view => exact ⟨f₂, hview⟩
                          | update => exact ⟨f₃, hupdate⟩
                        obtain ⟨func, hfunc⟩ := Classical.axiomOfChoice hfound
                        exact absurd ⟨⟨bytes, m, i, e, func⟩, hbytes, hload, hinst, henv, hfunc⟩
                          hmade

theorem sandboxCourse (c : SandboxCall R) : SandboxCourse c c.run.1 c.run.2 := by
  cases hloop : c.loop with
  | none =>
      have hrun : c.run = ([], none) := by
        simp [SandboxCall.run, newSandbox, SandboxCall.lost, hloop]
      rw [hrun]
      exact .null (.inl hloop)
  | some loop =>
      have hloop' : c.loop ≠ none := by simp [hloop]
      cases hmalloc : c.steps.mallocSandbox with
      | false =>
          have hrun : c.run = ([], none) := by
            simp [SandboxCall.run, newSandbox, SandboxCall.st, SandboxCall.lost, hloop, hmalloc]
          rw [hrun]
          exact .null (.inr hmalloc)
      | true =>
          cases hinit : c.steps.fullInit with
          | false =>
              have hrun : c.run = ([.acquire .sandbox], some .uninit) := by
                simp [SandboxCall.run, newSandbox, SandboxCall.st, SandboxCall.lost, hloop,
                  hmalloc, hinit]
              rw [hrun]
              exact .noRuntime hloop' hmalloc hinit
          | true =>
              have hcases : (c.loaded.result = false ∧ _) ∨ ∃ data, c.loaded.result = true
                  ∧ c.loaded.bytes = some data ∧ _ := loadWasmFile_cases c.file none 0
              rcases hcases with ⟨hload, -⟩ | ⟨data, hload, hdata, -⟩
              · have hnone := SandboxCall.st_of_failed hload c.filename
                have hrun := SandboxCall.run_eq hloop hmalloc hinit
                simp only [construct, hnone] at hrun
                have hrun : c.run = (.acquire .sandbox :: .runtimeInit
                    :: c.lost.map .acquire, some (.zeroed loop)) := hrun
                rw [hrun]
                exact .noFile hloop hmalloc hinit hload
              · have hbytes : c.st.loadWasmFile c.filename = some data :=
                  (SandboxCall.st_of_loaded hload c.filename).trans hdata
                have hlost : c.lost = [] := by
                  simp [SandboxCall.lost, hload]
                cases hmodule : c.st.load data with
                | some m => exact sandboxCourse_loaded hloop hmalloc hinit hbytes hlost hmodule
                | none =>
                    have hrun := SandboxCall.run_eq hloop hmalloc hinit
                    simp only [construct, hbytes, hmodule, hlost, assign, bind, Except.bind] at hrun
                    have hrun : c.run = ([.acquire .sandbox, .runtimeInit, .acquire (.file data),
                        .release (.file data)], some (.zeroed loop)) := hrun
                    rw [hrun]
                    exact .noModule hloop hmalloc hinit hbytes hlost hmodule

/-! ## Runs -/

/-- A call of `NewSandbox` that was made: its log and its sandbox as long as that is
live. -/
structure SandboxRecord (R : Wamr) where
  call : SandboxCall R
  log : List (WasmAction R)
  box : Option (Sandbox R)

/-- The reference count of the runtime and the calls made so far. -/
structure Sandboxes (R : Wamr) where
  refs : Nat
  records : List (SandboxRecord R)

/-- `wasm_runtime_full_init` and `wasm_runtime_destroy` count. -/
def countRefs : Nat → List (WasmAction R) → Nat
  | n, [] => n
  | n, .runtimeInit :: actions => countRefs (n + 1) actions
  | n, .runtimeDestroy :: actions => countRefs (n - 1) actions
  | n, .acquire _ :: actions => countRefs n actions
  | n, .release _ :: actions => countRefs n actions

inductive SandboxEvent (R : Wamr) where
  | new (call : SandboxCall R)
  | free (i : Nat)

/-- Sandboxes from a runtime that was not initialised; each is freed at most once. -/
def sandboxMachine (R : Wamr) : Machine (Sandboxes R) (SandboxEvent R) where
  init s := s = ⟨0, []⟩
  step s
    | .new call =>
      some ⟨countRefs s.refs call.run.1, s.records ++ [⟨call, call.run.1, call.run.2⟩]⟩
    | .free i =>
      match s.records[i]? with
      | some ⟨call, log, some box⟩ =>
        match sandboxFree (some box) with
        | .ok actions =>
          some ⟨countRefs s.refs actions, s.records.set i ⟨call, log ++ actions, none⟩⟩
        | .error _ => none
      | _ => none

def WasmAction.entry? : WasmAction R → Option (Entry (Resource R))
  | .acquire r => some (.add r)
  | .release r => some (.remove r)
  | .runtimeInit => none
  | .runtimeDestroy => none

/-- The entries of a log. -/
def entries (log : List (WasmAction R)) : List (Entry (Resource R)) :=
  log.filterMap WasmAction.entry?

section
variable [DecidableEq (Resource R)]

/-- A log takes and gives back: nothing is released that is not held, all has been
released when the sandbox is gone, and a file's buffer is not released while a
module is loaded. -/
structure SandboxRecord.Balanced (r : SandboxRecord R) : Prop where
  held : ∃ l, postAll 0 (entries r.log) = some l ∧ (r.box = none → l = 0)
  order : ∀ before bytes after l, r.log = before ++ .release (.file bytes) :: after →
    postAll 0 (entries before) = some l → ∀ m, .wasmModule m ∉ l

/-- The runtime has a reference for each live sandbox, so that freeing one never takes
it from another, and every log is balanced. -/
structure Sandboxes.Balanced (s : Sandboxes R) : Prop where
  refs : s.refs = s.records.countP fun r => r.box.isSome
  records : ∀ r ∈ s.records, r.Balanced

end

/-- The steps the code balances: a construction that returns NULL, or has its runtime
and fails before it has a module, or does not fail; and the freeing of a
sandbox without a module, whose file left no buffer. -/
def SandboxEvent.Good (s : Sandboxes R) : SandboxEvent R → Prop
  | .new c => (c.loop = none ∨ c.steps.mallocSandbox = false)
    ∨ (c.steps.fullInit = true ∧ (c.ModuleLoaded → c.Made))
  | .free i => ∀ r, s.records[i]? = some r → ¬r.call.ModuleLoaded ∧ r.call.lost = []

/-! ## Logs -/

@[simp] theorem entries_acquires (rs : List (Resource R)) :
    entries (rs.map WasmAction.acquire) = rs.map .add := by
  rw [entries, List.filterMap_map, ← List.filterMap_eq_map]
  rfl

theorem entries_append (log log' : List (WasmAction R)) :
    entries (log ++ log') = entries log ++ entries log' := List.filterMap_append ..

@[simp] theorem countRefs_acquires (n : Nat) (rs : List (Resource R)) :
    countRefs n (rs.map WasmAction.acquire) = n := by
  induction rs with
  | nil => rfl
  | cons r rs ih => exact ih

/-- The log and the sandbox of a live record are those of its construction. -/
def Sandboxes.AsMade (s : Sandboxes R) : Prop :=
  ∀ r ∈ s.records, ∀ box, r.box = some box → r.log = r.call.run.1 ∧ r.call.run.2 = some box

theorem asMade_step {s s' : Sandboxes R} {e : SandboxEvent R} (hs : s.AsMade)
    (h : (sandboxMachine R).step s e = some s') : s'.AsMade := by
  cases e with
  | new c =>
      obtain rfl := Option.some.inj h
      intro r hr box hbox
      rcases List.mem_append.mp hr with hr | hr
      · exact hs r hr box hbox
      · obtain rfl := List.mem_singleton.mp hr
        exact ⟨rfl, hbox⟩
  | free i =>
      simp only [sandboxMachine] at h
      split at h
      · split at h
        · obtain rfl := Option.some.inj h
          intro r hr box hbox
          rcases List.mem_or_eq_of_mem_set hr with hr | rfl
          · exact hs r hr box hbox
          · cases hbox
        · cases h
      · cases h

section
variable [DecidableEq (Resource R)]

/-- Without a module any order is right. -/
theorem balanced_of_no_module {r : SandboxRecord R} {l : Multiset (Resource R)}
    (hl : postAll 0 (entries r.log) = some l) (hbox : r.box = none → l = 0)
    (hmodule : ∀ m, .add (.wasmModule m) ∉ entries r.log) : r.Balanced where
  held := ⟨l, hl, hbox⟩
  order before bytes after _ hlog hbefore m hm := by
    rcases mem_of_postAll hbefore hm with hm | hm
    · simp at hm
    · refine hmodule m ?_
      rw [hlog, entries_append]
      exact List.mem_append_left _ hm

/-- A construction that fails with its module loaded breaks the order. -/
theorem not_balanced_failed {c : SandboxCall R} {bytes : List UInt8} {m : R.Module}
    {taken : List (Resource R)} {box : Option (Sandbox R)} :
    ¬SandboxRecord.Balanced ⟨c, .acquire .sandbox :: .runtimeInit :: .acquire (.file bytes)
      :: .acquire (.wasmModule m) :: taken.map .acquire ++ [.release (.file bytes)], box⟩ := by
  intro h
  have hentries : entries (.acquire .sandbox :: .runtimeInit :: .acquire (.file bytes)
      :: .acquire (.wasmModule m) :: taken.map .acquire)
        = (.sandbox :: .file bytes :: .wasmModule m :: taken).map .add := by
    have htaken := entries_acquires taken
    simp only [entries] at htaken
    simp only [entries, List.filterMap_cons, WasmAction.entry?, htaken, List.map_cons]
  have hnot := h.order _ bytes [] _ rfl (by rw [hentries, postAll_adds]) m
  exact hnot (by simp)

/-- A construction that went through keeps its file when it is freed. -/
theorem not_balanced_freed {r : SandboxRecord R} (bytes : List UInt8)
    (hbox : r.box = none) (hadd : .add (.file bytes) ∈ entries r.log)
    (hremove : .remove (.file bytes) ∉ entries r.log) : ¬r.Balanced := by
  intro h
  obtain ⟨l, hl, hzero⟩ := h.held
  have hcount := count_postAll hl (.file bytes)
  rw [hzero hbox, List.count_eq_zero.mpr hremove, Multiset.count_zero] at hcount
  have := List.count_pos_iff.mpr hadd
  omega

/-! ## One step -/

/-- A live sandbox has its runtime. -/
theorem Sandboxes.Balanced.refs_pos {s : Sandboxes R} (hs : s.Balanced) {r : SandboxRecord R}
    (hr : r ∈ s.records) (hlive : r.box.isSome = true) : 0 < s.refs := by
  rw [hs.refs]
  exact List.countP_pos_iff.mpr ⟨r, hr, hlive⟩

theorem balanced_append_iff {s : Sandboxes R} (hs : s.Balanced) {n : Nat} {r : SandboxRecord R} :
    Sandboxes.Balanced ⟨n, s.records ++ [r]⟩ ↔
      n = s.refs + (if r.box.isSome then 1 else 0) ∧ r.Balanced := by
  have hcount : (s.records ++ [r]).countP (fun r => r.box.isSome)
      = s.refs + (if r.box.isSome then 1 else 0) := by
    rw [List.countP_append, hs.refs, List.countP_singleton]
  constructor
  · intro h
    exact ⟨h.refs.trans hcount, h.records r (by simp)⟩
  · rintro ⟨hn, hr⟩
    refine ⟨hn.trans hcount.symm, fun r' hr' => ?_⟩
    rcases List.mem_append.mp hr' with hr' | hr'
    · exact hs.records r' hr'
    · rw [List.mem_singleton.mp hr']
      exact hr

theorem balanced_set_iff {s : Sandboxes R} (hs : s.Balanced) {i : Nat} {r r' : SandboxRecord R}
    (hi : s.records[i]? = some r) (hr : r.box.isSome = true) (hr' : r'.box = none) {n : Nat} :
    Sandboxes.Balanced ⟨n, s.records.set i r'⟩ ↔ n + 1 = s.refs ∧ r'.Balanced := by
  obtain ⟨hlt, hget⟩ := List.getElem?_eq_some_iff.mp hi
  have hpos := hs.refs_pos (List.mem_of_getElem? hi) hr
  rw [hs.refs] at hpos
  have hcount : (s.records.set i r').countP (fun r => r.box.isSome) + 1 = s.refs := by
    rw [List.countP_set hlt, hget, hr, hr', hs.refs]
    simp only [if_true, Option.isSome_none, Bool.false_eq_true, if_false]
    omega
  constructor
  · intro h
    have hrefs := h.refs
    exact ⟨by simp only at hrefs; omega, h.records r' (List.mem_set hlt r')⟩
  · rintro ⟨hn, hbalanced⟩
    refine ⟨by simp only; omega, fun q hq => ?_⟩
    rcases List.mem_or_eq_of_mem_set hq with hq | rfl
    · exact hs.records q hq
    · exact hbalanced

/-- **A construction** keeps the balance exactly when it is good. -/
theorem balanced_new_iff {s : Sandboxes R} (hs : s.Balanced) (c : SandboxCall R) :
    Sandboxes.Balanced ⟨countRefs s.refs c.run.1, s.records ++ [⟨c, c.run.1, c.run.2⟩]⟩ ↔
      SandboxEvent.Good s (.new c) := by
  rw [balanced_append_iff hs]
  have hcourse := sandboxCourse c
  generalize c.run.1 = log at hcourse ⊢
  generalize c.run.2 = box at hcourse ⊢
  cases hcourse with
  | null h =>
      have hlog := balanced_of_no_module (r := ⟨c, [], none⟩) rfl (fun _ => rfl)
        (by simp [entries])
      exact iff_of_true ⟨rfl, hlog⟩ (.inl h)
  | noRuntime hloop hmalloc hinit =>
      refine iff_of_false (fun h => ?_) fun hgood => ?_
      · have := h.1
        simp [countRefs] at this
      · rcases hgood with (h | h) | ⟨h, -⟩ <;> simp_all
  | noFile hloop hmalloc hinit hload =>
      have hentries : entries (.acquire .sandbox :: .runtimeInit :: c.lost.map .acquire)
          = (.sandbox :: c.lost).map .add := by
        rw [List.map_cons, ← entries_acquires]
        rfl
      have hmodule := SandboxCall.not_moduleLoaded_of_file hload
      refine iff_of_true ⟨by simp [countRefs], ?_⟩ (.inr ⟨hinit, fun h => absurd h hmodule⟩)
      refine balanced_of_no_module (by rw [hentries, postAll_adds]) (fun h => by cases h) ?_
      intro m
      rw [hentries]
      simp [SandboxCall.lost]
  | noModule hloop hmalloc hinit hbytes hlost hload =>
      rename_i loop bytes
      have hl : postAll 0 [.add .sandbox, .add (.file bytes), .remove (.file bytes)]
          = some {(.sandbox : Resource R)} := by
        rw [postAll_add, postAll_add_remove]
        rfl
      have hmodule := SandboxCall.not_moduleLoaded_of_load hbytes hload
      refine iff_of_true ⟨rfl, balanced_of_no_module hl (fun h => by cases h) ?_⟩
        (.inr ⟨hinit, fun h => absurd h hmodule⟩)
      simp [entries, WasmAction.entry?]
  | failed hloop hmalloc hinit hloaded hmade =>
      refine iff_of_false (fun h => not_balanced_failed h.2) fun hgood => ?_
      rcases hgood with (h | h) | ⟨-, h⟩
      · exact hloop h
      · rw [hmalloc] at h
        cases h
      · exact hmade (h hloaded)
  | built hloop hmalloc hinit hmade hholds =>
      rename_i p box
      let held : List (Resource R) := [.sandbox, .file p.bytes, .wasmModule p.wasmModule,
        .wasmInstance p.wasmInstance, .execEnv p.execEnv]
      have hl : postAll 0 (held.map .add) = some ((held : Multiset (Resource R)) + 0) :=
        postAll_adds held
      refine iff_of_true ⟨rfl, ⟨_, hl, fun h => by cases h⟩, ?_⟩ (.inr ⟨hinit, fun _ => ⟨p, hmade⟩⟩)
      intro before bytes after l hlog
      have hmem : WasmAction.release (Resource.file bytes) ∈ before
          ++ .release (.file bytes) :: after := List.mem_append_right _ List.mem_cons_self
      rw [← hlog] at hmem
      simp at hmem

/-- **A `SandboxFree`** keeps the balance exactly when it is good. -/
theorem balanced_free_iff {s : Sandboxes R} (hs : s.Balanced) {i : Nat} {c : SandboxCall R}
    {box : Sandbox R} (hi : s.records[i]? = some ⟨c, c.run.1, some box⟩)
    (hbox : c.run.2 = some box) {actions : List (WasmAction R)}
    (hfree : sandboxFree (some box) = .ok actions) :
    Sandboxes.Balanced ⟨countRefs s.refs actions,
        s.records.set i ⟨c, c.run.1 ++ actions, none⟩⟩ ↔ ¬c.ModuleLoaded ∧ c.lost = [] := by
  rw [balanced_set_iff hs hi rfl rfl]
  have hrec := hs.records _ (List.mem_of_getElem? hi)
  have hpos := hs.refs_pos (List.mem_of_getElem? hi) rfl
  have hcourse := sandboxCourse c
  rw [hbox] at hcourse
  generalize c.run.1 = log at hcourse hrec ⊢
  cases hcourse with
  | noRuntime => cases hfree
  | noFile hloop hmalloc hinit hload =>
      rename_i loop
      obtain rfl : [.runtimeDestroy, .release .sandbox] = actions := Except.ok.inj hfree
      have hentries : entries (.acquire .sandbox :: .runtimeInit :: c.lost.map .acquire
          ++ [.runtimeDestroy, .release .sandbox])
            = (.sandbox :: c.lost).map .add ++ [.remove .sandbox] := by
        rw [entries_append, List.map_cons, ← entries_acquires]
        rfl
      have hmodule := SandboxCall.not_moduleLoaded_of_file hload
      have hl : postAll 0 (entries (.acquire .sandbox :: .runtimeInit :: c.lost.map .acquire
          ++ [.runtimeDestroy, .release .sandbox])) = some (c.lost : Multiset (Resource R)) := by
        rw [hentries, postAll_append, postAll_adds, Option.bind_some,
          postAll_remove (by simp)]
        simp
      rw [and_iff_right hmodule]
      constructor
      · rintro ⟨-, hbalanced⟩
        obtain ⟨l, hl', hzero⟩ := hbalanced.held
        obtain rfl := Option.some.inj (hl.symm.trans hl')
        exact Multiset.coe_eq_zero _ |>.mp (hzero rfl)
      · intro hlost
        refine ⟨?_, balanced_of_no_module hl (fun _ => by rw [hlost]; rfl) fun m => ?_⟩
        · show s.refs - 1 + 1 = s.refs
          omega
        · rw [hentries]
          simp [SandboxCall.lost]
  | noModule hloop hmalloc hinit hbytes hlost hload =>
      rename_i loop bytes
      obtain rfl : [.runtimeDestroy, .release .sandbox] = actions := Except.ok.inj hfree
      have hmodule := SandboxCall.not_moduleLoaded_of_load hbytes hload
      have hl : postAll 0 [.add .sandbox, .add (.file bytes), .remove (.file bytes),
          .remove .sandbox] = some (0 : Multiset (Resource R)) := by
        rw [postAll_add, postAll_add_remove, postAll_remove (by simp)]
        simp
      refine iff_of_true ⟨?_, balanced_of_no_module hl (fun _ => rfl) ?_⟩ ⟨hmodule, hlost⟩
      · show s.refs - 1 + 1 = s.refs
        omega
      · simp [entries, WasmAction.entry?]
  | failed => exact absurd hrec not_balanced_failed
  | built hloop hmalloc hinit hmade hholds =>
      rename_i p
      obtain rfl := Except.ok.inj (hholds.sandboxFree_eq.symm.trans hfree)
      refine iff_of_false (fun h => ?_) fun h => h.1 ⟨_, _, hmade.loadWasmFile, hmade.load⟩
      refine not_balanced_freed p.bytes rfl ?_ ?_ h.2 <;>
        simp [entries, WasmAction.entry?, Parts.released]

/-! ## Runs of sandboxes -/

theorem balanced_step_iff {s s' : Sandboxes R} {e : SandboxEvent R} (hmade : s.AsMade)
    (hs : s.Balanced) (h : (sandboxMachine R).step s e = some s') :
    s'.Balanced ↔ SandboxEvent.Good s e := by
  cases e with
  | new c =>
      obtain rfl := Option.some.inj h
      exact balanced_new_iff hs c
  | free i =>
      simp only [sandboxMachine] at h
      split at h
      · rename_i c log box hi
        split at h
        · rename_i actions hfree
          obtain rfl := Option.some.inj h
          obtain ⟨hlog, hbox⟩ := hmade _ (List.mem_of_getElem? hi) box rfl
          simp only at hlog hbox
          subst hlog
          rw [balanced_free_iff hs hi hbox hfree, SandboxEvent.Good]
          refine ⟨fun hgood r hr => ?_, fun hgood => hgood _ hi⟩
          obtain rfl := Option.some.inj (hi.symm.trans hr)
          exact hgood
        · cases h
      · cases h

/-- **When sandboxes are balanced**: in every state of a run exactly when all its steps
are good. -/
theorem sandboxes_balanced_iff {es : List (SandboxEvent R)} {s : Sandboxes R}
    (h : (sandboxMachine R).exec ⟨0, []⟩ es = some s) :
    (sandboxMachine R).Throughout Sandboxes.Balanced ⟨0, []⟩ es ↔
      (sandboxMachine R).Along SandboxEvent.Good ⟨0, []⟩ es :=
  Machine.throughout_iff_along (fun _ _ _ hs hstep _ => asMade_step hs hstep)
    (fun _ _ _ hmade hs hstep => balanced_step_iff hmade hs hstep) (by intro r hr; cases hr)
    ⟨rfl, by intro r hr; cases hr⟩ h

end

/-- Steps that all succeed. -/
def allSteps : Steps ⟨Unit, Unit, Unit, Export⟩ where
  createLoop := some 0
  loopInit := 0
  mallocWorker := true
  mallocSandbox := true
  fullInit := true
  loadWasmFile _ := none
  load _ := some ()
  instantiate _ := some ()
  createExecEnv _ := some ()
  lookup _ x := some x

/-- A construction over a file of one byte, or none. -/
def oneByteCall (steps : Steps ⟨Unit, Unit, Unit, Export⟩) (found : Bool) :
    SandboxCall ⟨Unit, Unit, Unit, Export⟩ :=
  ⟨steps, ⟨if found then some [0] else none, true, true, 1⟩, some 0, "a.wasm"⟩

open Classical in
theorem missing_file_balanced : (sandboxMachine ⟨Unit, Unit, Unit, Export⟩).Throughout
    Sandboxes.Balanced ⟨0, []⟩
    [.new (oneByteCall allSteps true), .new (oneByteCall allSteps false), .free 1] := by
  refine (sandboxes_balanced_iff rfl).mpr ⟨.inr ⟨rfl, fun _ => ⟨⟨[0], (), (), (), id⟩, ?_⟩⟩,
    fun s₁ hs₁ => ⟨.inr ⟨rfl, ?_⟩, fun s₂ hs₂ => ⟨?_, fun _ _ => trivial⟩⟩⟩
  · exact ⟨rfl, rfl, rfl, rfl, fun _ => rfl⟩
  · rintro ⟨bytes, m, hbytes, -⟩
    cases hbytes
  · obtain rfl := Option.some.inj hs₁
    obtain rfl := Option.some.inj hs₂
    intro r hr
    obtain rfl := Option.some.inj hr
    refine ⟨?_, rfl⟩
    rintro ⟨bytes, m, hbytes, -⟩
    cases hbytes

open Classical in
theorem freed_sandbox_keeps_file :
    ¬∀ (R : Wamr) (es : List (SandboxEvent R)) (s : Sandboxes R),
      (sandboxMachine R).exec ⟨0, []⟩ es = some s → s.Balanced := by
  intro hall
  have hbalanced := hall _ [.new (oneByteCall allSteps true), .free 0] _ rfl
  have hrecord := hbalanced.records _ (List.mem_singleton_self _)
  refine not_balanced_freed [0] rfl ?_ ?_ hrecord
  · exact List.mem_cons_of_mem _ List.mem_cons_self
  · intro hmem
    have hmem : .remove (.file [0]) ∈ ([.add .sandbox, .add (.file [0]), .add (.wasmModule ()),
        .add (.wasmInstance ()), .add (.execEnv ()), .remove (.execEnv ()),
        .remove (.wasmInstance ()), .remove (.wasmModule ()), .remove .sandbox] :
          List (Entry (Resource ⟨Unit, Unit, Unit, Export⟩))) := hmem
    simp at hmem

end Vespa
