import Vespa.ProcessOwnership

/-!
# What a spawn leaves and what it hands on

A spawn fills its slot before it calls `uv_spawn`. When that fails, the slot
stays filled: the error return passes by `ProcessFree`, which would have
released the copies. Only a call that was refused leaves the pool as it was.

The child's arguments are a vector in memory, and the two sides measure it
differently: the caller counts `argc` entries, `exec` reads to the first NULL.
The vector has `argc` entries and no NULL, so what `exec` reads goes on with
the memory behind it.
-/

namespace Vespa

variable {N : Nat}

/-! ## A spawn that fails -/

/-- A negative return leaves the pool as it was, with every copy made released. -/
def LeavesPool (p : Pool N) (call : PoolCall N) : Prop :=
  call.returned < 0 → call.pool = p
    ∧ (∀ s, call.actions.count (.freeString s) = call.actions.count (.allocString s))
    ∧ ∀ argc, call.actions.count (.freeVector argc) = call.actions.count (.allocVector argc)

theorem count_freeVector_spawnActions (argv : List CStr) (slot : Fin N) (argc : Nat) :
    (spawnActions argv slot).count (.freeVector argc) = 0 := by
  simp [spawnActions, List.count_eq_zero]

theorem count_allocVector_spawnActions (argv : List CStr) (slot : Fin N) :
    (spawnActions argv slot).count (.allocVector argv.length) = 1 := by
  have hrest : PoolAction.allocVector argv.length ∉ argv.map PoolAction.allocString
      ++ [.uvSpawn slot ⟨some argv, argv.head?, true⟩] := by simp
  rw [spawnActions, List.cons_append, List.count_cons_self, List.count_eq_zero.mpr hrest]

theorem Pool.Inv.lt_of_freeSlot {p : Pool N} (h : p.Inv) {slot : Fin N}
    (hfree : p.freeSlot = some slot) : p.num_processes < N := by
  by_contra hfull
  exact h.occupied_of_full (by omega) slot (Pool.pid_of_freeSlot hfree)

/-- **When a spawn that fails leaves no trace.** In every state the pool can reach, a
negative return leaves the pool as it was and no copy behind exactly when
every slot is in use, so that the call is refused, or `uv_spawn` succeeds. -/
theorem leavesPool_iff {p : Pool N} (hp : (poolMachine N).Reachable p) (argv : List CStr)
    (outcome : SpawnOutcome) :
    LeavesPool p (orchestratorSpawn argv outcome p) ↔
      (∀ i, (p.processes i).handle.pid ≠ 0)
        ∨ ∃ pid positive, outcome = .spawned pid positive := by
  have h := (pool_invariant N).reachable hp
  rcases orchestratorSpawn_cases argv outcome p with ⟨hcall, hrefused⟩
    | ⟨slot, -, hfree, hactions, hcourse⟩
  · have hall : ∀ i, (p.processes i).handle.pid ≠ 0 :=
      hrefused.elim h.occupied_of_full Pool.freeSlot_eq_none_iff.mp
    rw [hcall]
    exact iff_of_true (fun _ => ⟨rfl, fun _ => rfl, fun _ => rfl⟩) (.inl hall)
  · have hnotall : ¬∀ i, (p.processes i).handle.pid ≠ 0 :=
      fun hall => hall slot (Pool.pid_of_freeSlot hfree)
    rw [or_iff_right hnotall]
    rcases hcourse with ⟨status, negative, rfl, hret, -⟩ | ⟨pid, positive, rfl, hret, -⟩
    · refine iff_of_false (fun hleaves => ?_) fun ⟨_, _, heq⟩ => by cases heq
      obtain ⟨-, -, hvector⟩ := hleaves (hret.trans_lt negative)
      have hleft := hvector argv.length
      rw [hactions, count_freeVector_spawnActions, count_allocVector_spawnActions] at hleft
      cases hleft
    · refine iff_of_true (fun hneg => ?_) ⟨pid, positive, rfl⟩
      rw [hret] at hneg
      omega

theorem leavesPool_refused : ∃ p : Pool 1, (poolMachine 1).exec (Pool.init 1)
    [.spawn [[97]] (.spawned 7 (by decide)), .exited 0] = some p
      ∧ LeavesPool p (orchestratorSpawn [[98]] (.failed (-2) (by decide)) p) := by
  have hinit : (poolMachine 1).Reachable (Pool.init 1) := .init rfl
  obtain ⟨p, hp, hall⟩ : ∃ p, (poolMachine 1).exec (Pool.init 1)
      [.spawn [[97]] (.spawned 7 (by decide)), .exited 0] = some p
      ∧ ∀ i, (p.processes i).handle.pid ≠ 0 := ⟨_, rfl, by decide⟩
  exact ⟨p, hp, (leavesPool_iff (hinit.exec hp) _ _).mpr (.inl hall)⟩

theorem failed_spawn_leaves_copies :
    ¬∀ (N : Nat) (p : Pool N) (argv : List CStr) (outcome : SpawnOutcome),
      (poolMachine N).Reachable p → argv ≠ [] →
      LeavesPool p (orchestratorSpawn argv outcome p) := by
  intro hall
  have hinit : (poolMachine 1).Reachable (Pool.init 1) := .init rfl
  have hleaves := hall 1 (Pool.init 1) [[97]] (.failed (-2) (by decide)) hinit (by simp)
  obtain ⟨-, hstrings, -⟩ := hleaves (by decide)
  exact absurd (hstrings [97]) (by decide)

/-! ## The child's arguments -/

/-- A word of memory as `exec` takes it for an argument: NULL, a string, or neither. -/
inductive ArgWord where
  | null
  | string (s : CStr)
  | wild
deriving DecidableEq, Repr

/-- What `malloc` returned for `argc` entries: their words, not initialised, and the
words behind them. -/
structure VectorBlock (argc : Nat) where
  words : List ArgWord
  behind : List ArgWord
  size : words.length = argc

/-- `for (int i = 0; i < argc; i++) proc->argv[i] = strdup(argv[i]);` -/
def copyArgs : List CStr → List ArgWord → List ArgWord
  | s :: argv, _ :: mem => .string s :: copyArgs argv mem
  | _, mem => mem

/-- How `exec` reads a vector: up to the first NULL, wherever that is. -/
def readArgs : List ArgWord → Except Halt (List CStr)
  | [] => .error .undefined
  | .null :: _ => .ok []
  | .string s :: mem => (readArgs mem).map (s :: ·)
  | .wild :: _ => .error .undefined

theorem copyArgs_eq {argv : List CStr} {words : List ArgWord} (hsize : words.length = argv.length)
    (behind : List ArgWord) :
    copyArgs argv (words ++ behind) = argv.map .string ++ behind := by
  induction argv generalizing words with
  | nil =>
      obtain rfl := List.length_eq_zero_iff.mp hsize
      cases behind <;> rfl
  | cons s argv ih =>
      cases words with
      | nil => cases hsize
      | cons w words =>
          have hrest := ih (Nat.succ.inj hsize)
          simp only [List.cons_append, copyArgs, hrest, List.map_cons]

theorem readArgs_strings (argv : List CStr) (behind : List ArgWord) :
    readArgs (argv.map .string ++ behind) = (readArgs behind).map (argv ++ ·) := by
  induction argv with
  | nil => cases h : readArgs behind <;> simp [h, Except.map]
  | cons s argv ih =>
      simp only [List.map_cons, List.cons_append, readArgs, ih]
      cases readArgs behind <;> rfl

theorem readArgs_eq_nil_iff {mem : List ArgWord} :
    readArgs mem = .ok [] ↔ mem.head? = some .null := by
  cases mem with
  | nil => simp [readArgs]
  | cons w mem =>
      cases w with
      | null => simp [readArgs]
      | wild => simp [readArgs]
      | string s => cases h : readArgs mem <;> simp [readArgs, h, Except.map]

/-- What `exec` reads of `argc` strings is those strings exactly when the word behind
the vector is NULL. -/
theorem readArgs_eq_iff (argv : List CStr) {behind : List ArgWord} :
    readArgs (argv.map .string ++ behind) = .ok argv ↔ behind.head? = some .null := by
  rw [readArgs_strings, ← readArgs_eq_nil_iff]
  cases h : readArgs behind with
  | error e => simp [Except.map]
  | ok rest => simp [Except.map]

/-- The child gets the caller's arguments: `exec` reads them from the vector passed to
`uv_spawn`, and the file is the first of them. -/
def ChildGets (arg : CStr) (args : List CStr) (block : VectorBlock (arg :: args).length)
    (call : PoolCall N) : Prop :=
  ∀ slot options, .uvSpawn slot options ∈ call.actions →
    options.file = some arg ∧ ∃ vector, options.args = some vector
      ∧ readArgs (copyArgs vector (block.words ++ block.behind)) = .ok (arg :: args)

/-- **What the child gets.** In every state the pool can reach that has a free slot,
for arguments of any number and memory of any contents: exactly the caller's
arguments if the word behind the vector happens to be NULL, and else not. -/
theorem childGets_iff {p : Pool N} (hp : (poolMachine N).Reachable p) {slot : Fin N}
    (hfree : p.freeSlot = some slot) (arg : CStr) (args : List CStr) (outcome : SpawnOutcome)
    (block : VectorBlock (arg :: args).length) :
    ChildGets arg args block (orchestratorSpawn (arg :: args) outcome p) ↔
      block.behind.head? = some .null := by
  have hlt := ((pool_invariant N).reachable hp).lt_of_freeSlot hfree
  rcases orchestratorSpawn_cases (arg :: args) outcome p with ⟨-, hfull | hnone⟩
    | ⟨slot', -, -, hactions, -⟩
  · omega
  · rw [hfree] at hnone
    cases hnone
  · have hmem : ∀ (i : Fin N) options, .uvSpawn i options ∈ spawnActions (arg :: args) slot'
        ↔ i = slot' ∧ options = ⟨some (arg :: args), some arg, true⟩ := by
      intro i options
      simp [spawnActions]
    simp only [ChildGets, hactions, hmem]
    rw [← readArgs_eq_iff (arg :: args), ← copyArgs_eq block.size]
    constructor
    · intro hgets
      obtain ⟨-, vector, hvector, hread⟩ := hgets slot' _ ⟨rfl, rfl⟩
      obtain rfl := Option.some.inj hvector
      exact hread
    · rintro hread i options ⟨-, rfl⟩
      exact ⟨rfl, _, rfl, hread⟩

theorem childGets_zeroed_memory :
    ChildGets [108, 115] [[45, 97]] ⟨[.wild, .wild], [.null], rfl⟩
      (orchestratorSpawn [[108, 115], [45, 97]] (.spawned 7 (by decide)) (Pool.init 1)) :=
  (childGets_iff (.init rfl) rfl _ _ _ _).mpr rfl

theorem child_gets_memory_behind :
    ¬∀ (N : Nat) (p : Pool N) (slot : Fin N) (arg : CStr) (args : List CStr)
      (outcome : SpawnOutcome) (block : VectorBlock (arg :: args).length),
      (poolMachine N).Reachable p → p.freeSlot = some slot →
      ChildGets arg args block (orchestratorSpawn (arg :: args) outcome p) := by
  intro hall
  have hgets := hall 1 (Pool.init 1) 0 [97] [] (.spawned 7 (by decide))
    ⟨[.wild], [.string [98], .null], rfl⟩ (.init rfl) rfl
  obtain ⟨-, vector, hvector, hread⟩ := hgets 0 ⟨some [[97]], some [97], true⟩ (by decide)
  obtain rfl := Option.some.inj hvector
  exact absurd hread (by decide)

end Vespa
