import Vespa.Worker

/-!
# What the guest executes

The two levels of a sandbox: on the host, a sequence of calls of `init`, `view`
and `update`, each made directly or through the worker's event loop; in the
guest, the function instances executed. `Faithful` says that the guest executed
the exports called, one for each call and in order, and that each call returned
true exactly when its export completed with a non-zero i32.

The host passes `init_func` for all three, so the levels agree on the modules
whose exports, as far as they are called, are `init` itself.
-/

namespace Vespa

variable {R : Wamr} {σ : Type}

/-- How a call is made: by `SandboxCallInit`, `SandboxCallView` and
`SandboxCallUpdate`, or by `call_init`, `call_view` and `call_update`. -/
inductive Route where
  | direct
  | eventLoop
deriving DecidableEq, Repr

/-- Make one call; the answer is whether it returned true. -/
def WorkerEventLoop.callBy (el : WorkerEventLoop R) (G : Guest R σ) (route : Route) (x : Export)
    (w : GuestState R σ) : Except Halt (Bool × GuestState R σ) :=
  match route with
  | .direct => el.worker.call G x w
  | .eventLoop =>
    match el.call G x w with
    | .error e => .error e
    | .ok (.ok answer, w) => .ok (answer, w)
    | .ok (.error _, w) => .ok (false, w)

def WorkerEventLoop.callAll (el : WorkerEventLoop R) (G : Guest R σ) :
    List (Route × Export) → GuestState R σ → Except Halt (List Bool × GuestState R σ)
  | [], w => .ok ([], w)
  | (route, x) :: calls, w =>
    match el.callBy G route x w with
    | .error e => .error e
    | .ok (answer, w) =>
      match el.callAll G calls w with
      | .error e => .error e
      | .ok (answers, w) => .ok (answer :: answers, w)

/-- What the guest should do for a sequence of exports: execute each, and answer
whether it completed with a non-zero i32. -/
def Guest.execAll (G : Guest R σ) (func : Export → R.Function) :
    List Export → GuestState R σ → List Bool × GuestState R σ
  | [], w => ([], w)
  | x :: xs, w =>
    let (ret, w) := G.exec (func x) w
    let (answers, w) := G.execAll func xs w
    (completed ret :: answers, w)

/-- The calls executed what was called and answered for it. -/
def Faithful (el : WorkerEventLoop R) (func : Export → R.Function) (G : Guest R σ)
    (calls : List (Route × Export)) (w : GuestState R σ) : Prop :=
  el.callAll G calls w = .ok (G.execAll func (calls.map Prod.snd) w)

theorem WorkerEventLoop.callBy_of_holds {el : WorkerEventLoop R} {box : Sandbox R}
    {p : Parts R} (hbox : el.worker.sandbox = some box) (h : box.Holds p) (G : Guest R σ)
    (route : Route) (x : Export) (w : GuestState R σ) :
    el.callBy G route x w
      = .ok (completed (G.exec (p.func .init) w).1, (G.exec (p.func .init) w).2) := by
  cases route with
  | direct =>
      simp only [callBy, Worker.call, hbox]
      exact sandboxCallExport_of_holds h x w
  | eventLoop =>
      simp only [callBy, call_of_holds hbox h]
      cases completed (G.exec (p.func .init) w).1 <;> rfl

theorem WorkerEventLoop.callAll_of_holds {el : WorkerEventLoop R} {box : Sandbox R}
    {p : Parts R} (hbox : el.worker.sandbox = some box) (h : box.Holds p) (G : Guest R σ)
    (calls : List (Route × Export)) (w : GuestState R σ) :
    el.callAll G calls w = .ok (G.execAll (fun _ => p.func .init) (calls.map Prod.snd) w) := by
  induction calls generalizing w with
  | nil => rfl
  | cons call calls ih =>
      obtain ⟨route, x⟩ := call
      simp only [callAll, callBy_of_holds hbox h, ih]
      rfl

theorem Guest.trace_execAll (G : Guest R σ) (func : Export → R.Function) (xs : List Export)
    (w : GuestState R σ) : (G.execAll func xs w).2.trace = w.trace ++ xs.map func := by
  induction xs generalizing w with
  | nil => simp [execAll]
  | cons x xs ih =>
      rw [execAll, ih, List.map_cons]
      simp [exec]

theorem Guest.execAll_congr (G : Guest R σ) {f g : Export → R.Function} {xs : List Export}
    (h : ∀ x ∈ xs, f x = g x) (w : GuestState R σ) : G.execAll f xs w = G.execAll g xs w := by
  induction xs generalizing w with
  | nil => rfl
  | cons x xs ih =>
      simp only [execAll, h x List.mem_cons_self, ih fun y hy => h y (List.mem_cons_of_mem _ hy)]

/-- **Calls are faithful exactly where the exports called are `init`.** For a
sandbox that was built, every guest and every sequence of calls by either
route. -/
theorem faithful_iff {st : Steps R} {loop : Option Nat} {filename : String}
    {box : Sandbox R} {p : Parts R} {el : WorkerEventLoop R}
    (hnew : (newSandbox st loop filename).2 = some box) (hinit : st.fullInit = true)
    (hmade : st.Made filename p) (hbox : el.worker.sandbox = some box) (G : Guest R σ)
    (calls : List (Route × Export)) (w : GuestState R σ) :
    Faithful el p.func G calls w ↔ ∀ call ∈ calls, p.func call.2 = p.func .init := by
  obtain ⟨p', hmade', hholds⟩ := (usable_newSandbox_iff hnew).mpr ⟨hinit, p, hmade⟩
  obtain rfl : p' = p := hmade'.unique hmade
  rw [Faithful, WorkerEventLoop.callAll_of_holds hbox hholds]
  constructor
  · intro h
    have htrace := congrArg (fun r => r.2.trace) (Except.ok.inj h)
    simp only [Guest.trace_execAll, List.append_cancel_left_eq, List.map_map] at htrace
    intro call hcall
    exact (List.map_inj_left.mp htrace call hcall).symm
  · intro h
    refine congrArg Except.ok (G.execAll_congr (fun x hx => ?_) w)
    obtain ⟨call, hcall, rfl⟩ := List.mem_map.mp hx
    exact (h call hcall).symm

def allSucceed : Steps ⟨Unit, Unit, Unit, Export⟩ :=
  { missingFile with loadWasmFile := fun _ => some [] }

def allParts : Parts ⟨Unit, Unit, Unit, Export⟩ := ⟨[], (), (), (), id⟩

def allLoop : WorkerEventLoop ⟨Unit, Unit, Unit, Export⟩ :=
  ⟨1, ⟨some 1, true,
    some ⟨.ptr 1, .ptr (), .ptr (), .ptr (), .ptr .init, .ptr .update, .ptr .view⟩⟩⟩

def returnsOne : Guest ⟨Unit, Unit, Unit, Export⟩ Unit := ⟨fun _ _ => (some 1, ())⟩

theorem init_calls_faithful :
    Faithful allLoop id returnsOne [(.direct, .init), (.eventLoop, .init)] ⟨(), []⟩ := by
  have hmade : allSucceed.Made "" allParts := ⟨rfl, rfl, rfl, rfl, fun _ => rfl⟩
  have hnew : (newSandbox allSucceed (some 1) "").2 = allLoop.worker.sandbox := rfl
  exact (faithful_iff hnew rfl hmade rfl returnsOne _ _).mpr (by decide)

theorem view_call_not_faithful :
    ¬∀ (R : Wamr) (st : Steps R) (loop : Option Nat) (filename : String) (box : Sandbox R)
      (p : Parts R) (el : WorkerEventLoop R) (G : Guest R Unit) (calls : List (Route × Export))
      (w : GuestState R Unit),
      (newSandbox st loop filename).2 = some box → st.fullInit = true → st.Made filename p →
      el.worker.sandbox = some box → Faithful el p.func G calls w := by
  intro hall
  have hfaithful := hall _ allSucceed (some 1) "" _ allParts allLoop returnsOne
    [(.direct, .view)] ⟨(), []⟩ rfl rfl ⟨rfl, rfl, rfl, rfl, fun _ => rfl⟩ rfl
  have htrace : [Export.init] = [Export.view] :=
    congrArg (fun r => r.2.trace) (Except.ok.inj hfaithful)
  exact absurd htrace (by decide)

end Vespa
