import Vespa.Ledger
import Vespa.ProcessOwnership

/-!
# The heap of the process pool, and its end

Every slot holds what was last copied into it: an argument vector and its
strings, from the spawn that filled it to the close callback that clears it. A
slot whose spawn failed holds copies too, and holds them without a pid, so the
next spawn takes the slot and the copies are lost: this is the pool's one leak.

A pool that spawns no more comes to rest. Each process has an exit callback and
a close callback to go, whichever order the callbacks of the slots come in, and
when none is left every slot is free and the count is 0.
-/

namespace Vespa

open Ledger

variable {N : Nat}

/-! ## Entries -/

/-- A heap object of the pool: an argument vector, or a string of one. -/
inductive PoolObject where
  | vector (argc : Nat)
  | string (s : CStr)
deriving DecidableEq, Repr

def PoolAction.entry? : PoolAction N → Option (Entry PoolObject)
  | .allocVector argc => some (.add (.vector argc))
  | .freeVector argc => some (.remove (.vector argc))
  | .allocString s => some (.add (.string s))
  | .freeString s => some (.remove (.string s))
  | .uvSpawn _ _ => none
  | .uvProcessKill _ => none
  | .uvClose _ => none

/-- What a callback or a call does. -/
def PoolEvent.actions (p : Pool N) : PoolEvent N → List (PoolAction N)
  | .spawn argv outcome => (orchestratorSpawn argv outcome p).actions
  | .exited slot => (onProcessExit slot p).1
  | .closed slot =>
    match onProcessClosed slot p with
    | .ok (actions, _) => actions
    | .error _ => []
  | .killAll => (orchestratorKillAllProcesses p).1

def poolEntries (p : Pool N) (e : PoolEvent N) : List (Entry PoolObject) :=
  (e.actions p).filterMap PoolAction.entry?

/-- The copies a slot holds. -/
def copies (argv : List CStr) : List PoolObject := .vector argv.length :: argv.map .string

def Process.objects (proc : Process N) : List PoolObject := proc.argv.elim [] copies

def Pool.holds (p : Pool N) : PoolObject → Nat := held fun i => (p.processes i).objects

/-- What an event loses: the copies in the slot a spawn writes over. -/
def poolLeaves (p : Pool N) : PoolEvent N → List PoolObject
  | .spawn _ _ =>
    if p.num_processes ≥ N then [] else p.freeSlot.elim [] fun slot => (p.processes slot).objects
  | .exited _ => []
  | .closed _ => []
  | .killAll => []

/-! ## One event -/

theorem entries_spawnActions (argv : List CStr) (slot : Fin N) :
    (spawnActions argv slot).filterMap PoolAction.entry? = (copies argv).map .add := by
  have hstrings : (argv.map PoolAction.allocString).filterMap (PoolAction.entry? (N := N))
      = (argv.map PoolObject.string).map .add := by
    rw [List.filterMap_map, List.map_map, ← List.filterMap_eq_map]
    rfl
  simp only [spawnActions, copies, List.filterMap_cons, List.cons_append, List.filterMap_append,
    hstrings, PoolAction.entry?, List.filterMap_nil, List.append_nil, List.map_cons]

theorem entries_killAll (p : Pool N) :
    (orchestratorKillAllProcesses p).1.filterMap PoolAction.entry? = [] := by
  refine List.filterMap_eq_nil_iff.mpr fun a ha => ?_
  obtain ⟨i, -, hi⟩ := List.mem_filterMap.mp ha
  split_ifs at hi
  obtain rfl := Option.some.inj hi
  rfl

/-- What a close callback frees is what its slot held, string by string. -/
theorem closed_slot {p : Pool N} (h : p.Inv) {slot : Fin N} (hslot : p.handles slot = .closing) :
    ∃ xs : List PoolObject, poolEntries p (.closed slot) = xs.map .remove
      ∧ xs.Perm (p.processes slot).objects
      ∧ (poolMachine N).step p (.closed slot) = some
        { p with
          processes := Function.update p.processes slot (.zero N)
          handles := Function.update p.handles slot .inactive } := by
  have hdata := (h.taken slot (by rw [hslot]; exact fun h => by cases h)).2
  have hclosed : onProcessClosed slot p = .ok (processFree slot p) := by
    rw [onProcessClosed, hdata]
  have hstep : (poolMachine N).step p (.closed slot)
      = some ((processFree slot p).2.owed slot .inactive) := by
    simp only [poolMachine, if_pos hslot, hclosed]
    rfl
  rw [poolEntries, PoolEvent.actions, hclosed, hstep]
  cases hargv : (p.processes slot).argv with
  | none => exact ⟨[], by simp [processFree, hargv], by rw [Process.objects, hargv]; rfl, rfl⟩
  | some argv =>
      refine ⟨argv.map .string ++ [.vector argv.length], ?_, ?_, rfl⟩
      · have hstrings : (argv.map PoolAction.freeString).filterMap (PoolAction.entry? (N := N))
            = (argv.map PoolObject.string).map .remove := by
          rw [List.filterMap_map, List.map_map, ← List.filterMap_eq_map]
          rfl
        simp [processFree, hargv, hstrings, PoolAction.entry?]
      · rw [Process.objects, hargv]
        exact List.perm_append_singleton _ _

theorem holds_update (p : Pool N) (slot : Fin N) (proc : Process N) (o : PoolObject) :
    (held fun i => (Function.update p.processes slot proc i).objects) o
        + (p.processes slot).objects.count o
      = p.holds o + proc.objects.count o := by
  have hobjects : (fun i => (Function.update p.processes slot proc i).objects)
      = Function.update (fun i => (p.processes i).objects) slot proc.objects :=
    funext fun i =>
      Function.apply_update (fun _ proc => Process.objects proc) p.processes slot proc i
  rw [hobjects]
  exact held_update (fun i => (p.processes i).objects) slot proc.objects o

/-- **One event on the pool's heap.** -/
theorem pool_heap_step {p p' : Pool N} {e : PoolEvent N} (h : p.Inv)
    (he : (poolMachine N).step p e = some p') :
    (∀ l : Multiset PoolObject, (∀ o, p.holds o ≤ l.count o) →
        (postAll l (poolEntries p e)).isSome)
      ∧ ∀ o, (poolEntries p e).count (.add o) + p.holds o
        = (poolEntries p e).count (.remove o) + p'.holds o + (poolLeaves p e).count o := by
  cases e with
  | spawn argv outcome =>
      obtain rfl := Option.some.inj he
      rcases orchestratorSpawn_cases argv outcome p with ⟨hcall, hrefused⟩
        | ⟨slot, hlt, hfree, hactions, hcourse⟩
      · have hleaves : poolLeaves p (.spawn argv outcome) = [] := by
          simp only [poolLeaves]
          split_ifs with hfull
          · rfl
          · rcases hrefused with hfull' | hnone
            · exact absurd hfull' hfull
            · rw [hnone]
              rfl
        rw [hleaves, poolEntries, PoolEvent.actions, hcall]
        exact ⟨fun l _ => rfl, fun o => by simp⟩
      · have hleaves : poolLeaves p (.spawn argv outcome) = (p.processes slot).objects := by
          simp only [poolLeaves, hfree, Option.elim_some]
          exact if_neg (by omega)
        rw [hleaves, poolEntries, PoolEvent.actions, hactions, entries_spawnActions]
        refine ⟨fun l _ => by rw [postAll_adds]; rfl, fun o => ?_⟩
        rw [count_add_map_add, count_remove_map_add]
        rcases hcourse with ⟨_, _, -, -, hpool⟩ | ⟨pid, _, -, -, hpool⟩ <;> rw [hpool]
        · have hupdate := holds_update p slot ((p.processes slot).prepare slot argv) o
          have hnew : ((p.processes slot).prepare slot argv).objects = copies argv := rfl
          rw [hnew] at hupdate
          simp only [Pool.holds] at hupdate ⊢
          omega
        · have hupdate := holds_update p slot (.spawned slot argv pid) o
          have hnew : (Process.spawned slot argv pid).objects = copies argv := rfl
          rw [hnew] at hupdate
          simp only [Pool.holds] at hupdate ⊢
          omega
  | exited slot =>
      obtain ⟨-, rfl⟩ := of_exited_step he
      exact ⟨fun l _ => rfl, fun o => rfl⟩
  | closed slot =>
      obtain ⟨hslot, -⟩ := of_closed_step he
      obtain ⟨xs, hentries, hperm, hpool⟩ := closed_slot h hslot
      obtain rfl := Option.some.inj (he.symm.trans hpool)
      rw [hentries]
      refine ⟨fun l hl => postAll_removes fun o => ?_, fun o => ?_⟩
      · rw [hperm.count_eq]
        exact (count_le_held (fun i => (p.processes i).objects) slot o).trans (hl o)
      · have hupdate := holds_update p slot (.zero N) o
        have hnew : (Process.zero N).objects = [] := rfl
        rw [hnew] at hupdate
        rw [count_add_map_remove, count_remove_map_remove, hperm.count_eq]
        simp only [Pool.holds, poolLeaves, List.count_nil] at hupdate ⊢
        omega
  | killAll =>
      obtain rfl := Option.some.inj he
      rw [poolEntries, PoolEvent.actions, entries_killAll]
      exact ⟨fun l _ => rfl, fun o => by simp [poolLeaves, orchestratorKillAllProcesses]⟩

/-! ## Runs of the heap -/

def PoolEvent.spawnFails : PoolEvent N → Bool
  | .spawn _ (.failed _ _) => true
  | .spawn _ (.spawned _ _) => false
  | .exited _ => false
  | .closed _ => false
  | .killAll => false

/-- A slot without a process holds nothing. -/
def Pool.Clean (p : Pool N) : Prop :=
  ∀ i, p.handles i = .inactive → (p.processes i).objects = []

theorem Pool.Clean.poolLeaves_eq_nil {p : Pool N} (hclean : p.Clean) (h : p.Inv)
    (e : PoolEvent N) : poolLeaves p e = [] := by
  cases e with
  | spawn argv outcome =>
      simp only [poolLeaves]
      split_ifs
      · rfl
      · cases hfree : p.freeSlot with
        | none => rfl
        | some slot =>
            exact hclean slot ((h.pid_eq_zero_iff slot).mp (Pool.pid_of_freeSlot hfree))
  | exited | closed | killAll => rfl

theorem Pool.Clean.step {p p' : Pool N} {e : PoolEvent N} (hclean : p.Clean) (h : p.Inv)
    (hfails : e.spawnFails = false) (he : (poolMachine N).step p e = some p') : p'.Clean := by
  intro i hi
  cases e with
  | spawn argv outcome =>
      obtain rfl := Option.some.inj he
      rcases orchestratorSpawn_cases argv outcome p with ⟨hcall, -⟩
        | ⟨slot, -, -, -, ⟨status, negative, rfl, -, -⟩ | ⟨pid, positive, -, -, hpool⟩⟩
      · rw [hcall] at hi ⊢
        exact hclean i hi
      · cases hfails
      · rw [hpool] at hi ⊢
        have hne : i ≠ slot := by
          rintro rfl
          simp only [Function.update_self] at hi
          cases hi
        simp only [Function.update_of_ne hne] at hi ⊢
        exact hclean i hi
  | exited slot =>
      obtain ⟨-, rfl⟩ := of_exited_step he
      have hne : i ≠ slot := by
        rintro rfl
        simp only [Pool.owed, Function.update_self] at hi
        cases hi
      simp only [Pool.owed, onProcessExit, Function.update_of_ne hne] at hi ⊢
      exact hclean i hi
  | closed slot =>
      obtain ⟨hslot, -⟩ := of_closed_step he
      obtain ⟨-, -, -, hpool⟩ := closed_slot h hslot
      obtain rfl := Option.some.inj (he.symm.trans hpool)
      by_cases heq : i = slot
      · subst heq
        simp only [Function.update_self]
        rfl
      · simp only [Function.update_of_ne heq] at hi ⊢
        exact hclean i hi
  | killAll =>
      obtain rfl := Option.some.inj he
      exact hclean i hi

theorem poolLeaves_of_exec {es : List (PoolEvent N)} {p p' : Pool N} (hclean : p.Clean)
    (hp : p.Inv) (hes : ∀ e ∈ es, e.spawnFails = false)
    (h : (poolMachine N).exec p es = some p') :
    (poolMachine N).trace poolLeaves p es = [] ∧ p'.Clean := by
  induction es generalizing p with
  | nil =>
      obtain rfl := Option.some.inj h
      exact ⟨rfl, hclean⟩
  | cons e es ih =>
      obtain ⟨p₁, he, hrest⟩ := Option.bind_eq_some_iff.mp h
      obtain ⟨hleaves, hclean'⟩ := ih (hclean.step hp (hes e List.mem_cons_self) he)
        ((pool_invariant N).step p e p₁ hp he) (fun e he => hes e (List.mem_cons_of_mem _ he)) hrest
      rw [Machine.trace_cons_of_step he, hclean.poolLeaves_eq_nil hp, hleaves]
      exact ⟨rfl, hclean'⟩

/-- **The account of the pool's heap.** In every run of spawns, exits, close callbacks and
kills nothing is freed that is not there, and what is there is what the slots
hold and what spawns have written over. Where no `uv_spawn` fails nothing is
written over, and the slots without a process hold nothing. -/
theorem pool_ledger {es : List (PoolEvent N)} {p p' : Pool N} (hp : (poolMachine N).init p)
    (h : (poolMachine N).exec p es = some p') :
    (∃ l, postAll 0 ((poolMachine N).trace poolEntries p es) = some l
        ∧ ∀ o, l.count o = p'.holds o + ((poolMachine N).trace poolLeaves p es).count o)
      ∧ ((∀ e ∈ es, e.spawnFails = false) →
        (poolMachine N).trace poolLeaves p es = [] ∧ p'.Clean) := by
  obtain rfl : p = Pool.init N := hp
  constructor
  · have hzero : ∀ o, (Pool.init N).holds o = 0 := by
      intro o
      unfold Pool.holds held
      exact Finset.sum_eq_zero fun _ _ => rfl
    obtain ⟨l, hl, hcount⟩ := Machine.accounts (l := 0) (P := Pool.Inv) poolLeaves
      (pool_invariant N).step (fun _ _ _ l hp he => (pool_heap_step hp he).1 l)
      (fun _ _ _ o hp he => (pool_heap_step hp he).2 o) Pool.inv_init h
      (fun o => by rw [hzero]; exact Nat.zero_le _)
    refine ⟨l, hl, fun o => ?_⟩
    have := hcount o
    rw [hzero, Multiset.count_zero] at this
    omega
  · exact fun hes => poolLeaves_of_exec (fun _ _ => rfl) Pool.inv_init hes h

/-- A failed spawn's copies are lost to the next spawn, which takes its slot. -/
theorem pool_ledger_after_failure : ∃ (p : Pool 1) (l : Multiset PoolObject),
    (poolMachine 1).exec (Pool.init 1)
      [.spawn [[97]] (.failed (-2) (by decide)), .spawn [[98]] (.spawned 7 (by decide)),
        .exited 0, .closed 0] = some p
    ∧ l.count (.string [97]) = p.holds (.string [97]) + 1 := by
  obtain ⟨p, hp⟩ : ∃ p, (poolMachine 1).exec (Pool.init 1)
      [.spawn [[97]] (.failed (-2) (by decide)), .spawn [[98]] (.spawned 7 (by decide)),
        .exited 0, .closed 0] = some p := ⟨_, rfl⟩
  obtain ⟨⟨l, -, hcount⟩, -⟩ := pool_ledger rfl hp
  exact ⟨p, l, hp, hcount _⟩

/-! ## The end of the pool -/

/-- The callbacks libuv still owes a handle. -/
def HandleState.toGo : HandleState → Nat
  | .running => 2
  | .closing => 1
  | .inactive => 0

def Pool.toGo (p : Pool N) : Nat := ∑ i, (p.handles i).toGo

def PoolEvent.isCallback : PoolEvent N → Bool
  | .exited _ => true
  | .closed _ => true
  | .spawn _ _ => false
  | .killAll => false

def PoolEvent.isSpawn : PoolEvent N → Bool
  | .spawn _ _ => true
  | .exited _ => false
  | .closed _ => false
  | .killAll => false

theorem toGo_update (p : Pool N) (slot : Fin N) (state : HandleState) :
    (∑ i, (Function.update p.handles slot state i).toGo) + (p.handles slot).toGo
      = p.toGo + state.toGo := by
  have hcounts : (fun i => (Function.update p.handles slot state i).toGo)
      = Function.update (fun i => (p.handles i).toGo) slot state.toGo :=
    funext fun i => Function.apply_update (fun _ state => HandleState.toGo state) p.handles slot
      state i
  rw [hcounts]
  exact sum_update (fun i => (p.handles i).toGo) slot state.toGo

/-- **A step of the winding up.** -/
theorem toGo_pool_step {p p' : Pool N} {e : PoolEvent N} (h : p.Inv) (hspawn : e.isSpawn = false)
    (he : (poolMachine N).step p e = some p') :
    [e].countP PoolEvent.isCallback + p'.toGo = p.toGo := by
  cases e with
  | spawn argv outcome => cases hspawn
  | exited slot =>
      obtain ⟨hslot, rfl⟩ := of_exited_step he
      have hupdate := toGo_update p slot .closing
      rw [hslot] at hupdate
      have hafter : ((onProcessExit slot p).2.owed slot .closing).toGo
          = ∑ i, (Function.update p.handles slot .closing i).toGo := rfl
      simp only [List.countP_singleton, PoolEvent.isCallback, if_true, hafter, HandleState.toGo]
        at hupdate ⊢
      omega
  | closed slot =>
      obtain ⟨hslot, -⟩ := of_closed_step he
      obtain ⟨-, -, -, hpool⟩ := closed_slot h hslot
      obtain rfl := Option.some.inj (he.symm.trans hpool)
      have hupdate := toGo_update p slot .inactive
      rw [hslot] at hupdate
      simp only [List.countP_singleton, PoolEvent.isCallback, if_true, Pool.toGo, HandleState.toGo]
        at hupdate ⊢
      omega
  | killAll =>
      obtain rfl := Option.some.inj he
      exact Nat.zero_add _

theorem toGo_pool_exec {es : List (PoolEvent N)} {p p' : Pool N} (hp : p.Inv)
    (hes : ∀ e ∈ es, e.isSpawn = false) (h : (poolMachine N).exec p es = some p') :
    es.countP PoolEvent.isCallback + p'.toGo = p.toGo ∧ p'.Inv := by
  have hrun := Machine.exec_countP (p := PoolEvent.isCallback) (n := 0)
    (Q := fun n p₁ => n + p₁.toGo = p.toGo ∧ p₁.Inv)
    (fun n p₁ e p₂ he hp₁ hstep => ?_) ⟨Nat.zero_add _, hp⟩ h
  · simpa only [Nat.zero_add] using hrun
  · have hone := toGo_pool_step hp₁.2 (hes e he) hstep
    have hgo := hp₁.1
    exact ⟨by omega, (pool_invariant N).step p₁ e p₂ hp₁.2 hstep⟩

theorem toGo_eq_zero {p : Pool N} : p.toGo = 0 ↔ ∀ i, p.handles i = .inactive := by
  rw [Pool.toGo, Finset.sum_eq_zero_iff]
  constructor
  · intro h i
    have hi := h i (Finset.mem_univ i)
    cases hstate : p.handles i with
    | inactive => rfl
    | running | closing =>
        rw [hstate] at hi
        cases hi
  · intro h i _
    rw [h i]
    rfl

/-- At rest: no process is counted, every slot is free, and there is nothing to kill. -/
structure Pool.AtRest (p : Pool N) : Prop where
  count : p.num_processes = 0
  free : ∀ i, (p.processes i).handle.pid = 0
  idle : (orchestratorKillAllProcesses p).1 = []

theorem Pool.Inv.atRest {p : Pool N} (h : p.Inv) (hgo : p.toGo = 0) : p.AtRest := by
  have hinactive := toGo_eq_zero.mp hgo
  have hfree : ∀ i, (p.processes i).handle.pid = 0 := fun i => h.free i (hinactive i)
  refine ⟨?_, hfree, ?_⟩
  · have hempty : p.running = ∅ := Finset.filter_eq_empty_iff.mpr fun i _ => by
      rw [hinactive i]
      exact fun h => by cases h
    rw [h.count, hempty]
    rfl
  · refine List.filterMap_eq_nil_iff.mpr fun i _ => ?_
    rw [hfree i]
    rfl

/-- **A pool that spawns no more comes to rest.** From every reachable state, whatever
the order of exits, close callbacks and kills: the callbacks made and those to
come are `toGo` together; as long as some are to come, one can be made; and when
none is, the pool is at rest. -/
theorem pool_comes_to_rest {p p' : Pool N} (hp : (poolMachine N).Reachable p)
    {es : List (PoolEvent N)} (hes : ∀ e ∈ es, e.isSpawn = false)
    (h : (poolMachine N).exec p es = some p') :
    es.countP PoolEvent.isCallback + p'.toGo = p.toGo
      ∧ (p'.toGo ≠ 0 → ∃ e : PoolEvent N, e.isCallback = true
        ∧ ((poolMachine N).step p' e).isSome)
      ∧ (p'.toGo = 0 → p'.AtRest) := by
  obtain ⟨hcount, hinv⟩ := toGo_pool_exec ((pool_invariant N).reachable hp) hes h
  refine ⟨hcount, fun hgo => ?_, hinv.atRest⟩
  rw [ne_eq, toGo_eq_zero, not_forall] at hgo
  obtain ⟨slot, hslot⟩ := hgo
  cases hstate : p'.handles slot with
  | inactive => exact absurd hstate hslot
  | running => exact ⟨.exited slot, rfl, by simp [poolMachine, hstate]⟩
  | closing =>
      obtain ⟨-, -, -, hpool⟩ := closed_slot hinv hstate
      exact ⟨.closed slot, rfl, by rw [hpool]; rfl⟩

theorem two_processes_come_to_rest : ∃ p p' : Pool 2, (poolMachine 2).exec (Pool.init 2)
      [.spawn [[97]] (.spawned 7 (by decide)), .spawn [[98]] (.spawned 8 (by decide))] = some p
    ∧ (poolMachine 2).exec p [.killAll, .exited 1, .exited 0, .closed 0, .closed 1] = some p'
    ∧ p'.AtRest := by
  have hinit : (poolMachine 2).Reachable (Pool.init 2) := .init rfl
  obtain ⟨p, hp⟩ : ∃ p, (poolMachine 2).exec (Pool.init 2)
      [.spawn [[97]] (.spawned 7 (by decide)), .spawn [[98]] (.spawned 8 (by decide))] = some p :=
    ⟨_, rfl⟩
  obtain ⟨p', hp', hgo⟩ : ∃ p', (poolMachine 2).exec p [.killAll, .exited 1, .exited 0, .closed 0,
      .closed 1] = some p' ∧ p'.toGo = 0 := by
    obtain rfl := Option.some.inj hp
    exact ⟨_, rfl, by decide⟩
  exact ⟨p, p', hp, hp', (pool_comes_to_rest (hinit.exec hp) (by simp [PoolEvent.isSpawn]) hp').2.2
    hgo⟩

end Vespa
