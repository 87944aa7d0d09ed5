import Mathlib.Data.List.Nodup
import Mathlib.Tactic.SplitIfs
import Vespa.Run

/-!
# Shared arrays (`render_command_linux.c`)

A `SharedRenderCommandArray` is a mapping of a POSIX shared-memory object, found
by name. `Kernel` has the names and, per process, the descriptors and the
mappings; the object behind a name outlives the name as long as it is mapped.

Every array unlinks its name when it is freed, whoever created it. The next
array of that name is then of a new object, while arrays mapped before keep
the old one. Arrays of one name share their object in every state of a run
exactly when no array is made of a name that others of its name have lost.
-/

namespace Vespa

/-! ## The kernel -/

abbrev Pid := Nat

abbrev ShmName := List UInt8

structure Mapping where
  object : Nat
  prot : Nat
deriving DecidableEq, Repr

/-- The shared-memory objects by name, the number of those ever made, and per process
what its descriptors and addresses stand for. -/
structure Kernel where
  names : ShmName → Option Nat
  objects : Nat
  fds : Pid → Nat → Option Nat
  maps : Pid → Nat → Option Mapping

namespace Kernel

/-- `shm_open(name, O_CREAT | O_RDWR, 0666)` with the descriptor it returns. -/
def shmOpen (k : Kernel) (p : Pid) (name : ShmName) (fd : Nat) : Kernel :=
  match k.names name with
  | some o => { k with fds := Function.update k.fds p (Function.update (k.fds p) fd (some o)) }
  | none =>
    { k with
      names := Function.update k.names name (some k.objects)
      objects := k.objects + 1
      fds := Function.update k.fds p (Function.update (k.fds p) fd (some k.objects)) }

def shmUnlink (k : Kernel) (name : ShmName) : Kernel :=
  { k with names := Function.update k.names name none }

/-- `close(fd)`; of -1 it does nothing. -/
def close (k : Kernel) (p : Pid) (fd : Option Nat) : Kernel :=
  match fd with
  | some fd => { k with fds := Function.update k.fds p (Function.update (k.fds p) fd none) }
  | none => k

/-- `mmap(NULL, total_size, prot, MAP_SHARED, fd, 0)` with the address it returns. -/
def mmap (k : Kernel) (p : Pid) (addr prot fd : Nat) : Kernel :=
  let mapping := (k.fds p fd).map fun o => ⟨o, prot⟩
  { k with maps := Function.update k.maps p (Function.update (k.maps p) addr mapping) }

def munmap (k : Kernel) (p : Pid) (addr : Nat) : Kernel :=
  { k with maps := Function.update k.maps p (Function.update (k.maps p) addr none) }

end Kernel

/-! ## The functions -/

/-- `SharedRenderCommandArrayAccess` -/
inductive Access where
  | kNone
  | kReadOnly
  | kWriteOnly
  | kReadWrite
  | kExecute
deriving DecidableEq, Repr

def Access.prot : Access → Nat
  | .kNone => 0
  | .kReadOnly => 1
  | .kWriteOnly => 2
  | .kReadWrite => 3
  | .kExecute => 4

structure SharedRenderCommandArray where
  name : ShmName
  shm : Nat
  size : Nat
  start : Nat
  current : Nat
deriving DecidableEq, Repr

/-- `sizeof(RenderCommand) * MAX_NUMBER_OF_RENDER_COMMANDS` -/
def calcTotalShmSize : Nat := 48 * 256

/-- What the calls of a construction return; `none` is -1, `MAP_FAILED`. -/
structure ShmSteps where
  shmOpen : Option Nat
  ftruncate : Bool
  mmap : Option Nat
  malloc : Bool
deriving DecidableEq, Repr

def newSharedRenderCommandArray (p : Pid) (name : Option ShmName) (name_length : Nat)
    (access : Access) (st : ShmSteps) (k : Kernel) : Option SharedRenderCommandArray × Kernel :=
  match name with
  | none => (none, k)
  | some name =>
    if name_length = 0 then (none, k)
    else
      match st.shmOpen with
      | none => (none, (k.close p none).shmUnlink name)
      | some shm =>
        let k := k.shmOpen p name shm
        if !st.ftruncate then (none, (k.close p (some shm)).shmUnlink name)
        else
          match st.mmap with
          | none => (none, (k.close p (some shm)).shmUnlink name)
          | some ptr =>
            let k := k.mmap p ptr access.prot shm
            if !st.malloc then (none, ((k.munmap p ptr).close p (some shm)).shmUnlink name)
            else (some ⟨name.take name_length, shm, calcTotalShmSize, ptr, ptr⟩, k)

/-- `SharedRenderCommandArrayFree`; a descriptor 0 is taken for none. -/
def sharedRenderCommandArrayFree (p : Pid) (sarr : Option SharedRenderCommandArray) (k : Kernel) :
    Kernel :=
  match sarr with
  | none => k
  | some sarr =>
    let k := if sarr.start ≠ 0 then k.munmap p sarr.start else k
    if sarr.shm ≠ 0 then (k.close p (some sarr.shm)).shmUnlink sarr.name else k

/-! ## Runs -/

/-- The kernel and the arrays that were created and not freed, with their processes. -/
structure ShmSystem where
  kernel : Kernel
  live : List (Pid × SharedRenderCommandArray)

inductive ShmEvent where
  | new (p : Pid) (name : ShmName) (access : Access) (fd addr : Nat)
  | free (i : Nat)
deriving DecidableEq, Repr

/-- Any number of processes that create and free arrays, of any names. A descriptor or
an address the kernel hands out is not in use. -/
def shmMachine : Machine ShmSystem ShmEvent where
  init s := s.live = [] ∧ ∀ name o, s.kernel.names name = some o → o < s.kernel.objects
  step s
    | .new p name access fd addr =>
      if s.kernel.fds p fd = none ∧ s.kernel.maps p addr = none ∧ addr ≠ 0 then
        match newSharedRenderCommandArray p (some name) name.length access
            ⟨some fd, true, some addr, true⟩ s.kernel with
        | (some a, k) => some ⟨k, s.live ++ [(p, a)]⟩
        | (none, _) => none
      else none
    | .free i =>
      match s.live[i]? with
      | some (p, a) =>
        some ⟨sharedRenderCommandArrayFree p (some a) s.kernel, s.live.eraseIdx i⟩
      | none => none

/-- The object an array maps. -/
def ShmSystem.object? (s : ShmSystem) (x : Pid × SharedRenderCommandArray) : Option Nat :=
  (s.kernel.maps x.1 x.2.start).map Mapping.object

/-- Arrays of one name map one object. -/
def ShmSystem.Shares (s : ShmSystem) : Prop :=
  ∀ x ∈ s.live, ∀ y ∈ s.live, x.2.name = y.2.name →
    ∃ o, s.object? x = some o ∧ s.object? y = some o

/-- A new array's name is still bound, or no array of that name is live. -/
def ShmEvent.Good (s : ShmSystem) : ShmEvent → Prop
  | .new _ name _ _ _ => s.kernel.names name ≠ none ∨ ∀ x ∈ s.live, x.2.name ≠ name
  | .free _ => True

/-! ## What the functions do to the arrays' objects -/

/-- The object a name stands for once it was opened. -/
def Kernel.opened (k : Kernel) (name : ShmName) : Nat := (k.names name).getD k.objects

theorem Kernel.shmOpen_names (k : Kernel) (p : Pid) (name : ShmName) (fd : Nat) :
    (k.shmOpen p name fd).names = Function.update k.names name (some (k.opened name)) := by
  unfold Kernel.shmOpen Kernel.opened
  split
  · rename_i o ho
    rw [ho, Option.getD_some, ← ho, Function.update_eq_self]
  · rename_i hnone
    rw [hnone]
    rfl

theorem Kernel.shmOpen_fds_eq (k : Kernel) (p : Pid) (name : ShmName) (fd : Nat) :
    (k.shmOpen p name fd).fds
      = Function.update k.fds p (Function.update (k.fds p) fd (some (k.opened name))) := by
  unfold Kernel.shmOpen Kernel.opened
  split <;> rename_i h <;> rw [h] <;> rfl

theorem Kernel.shmOpen_fds (k : Kernel) (p : Pid) (name : ShmName) (fd : Nat) :
    (k.shmOpen p name fd).fds p fd = some (k.opened name) := by
  rw [k.shmOpen_fds_eq, Function.update_self, Function.update_self]

theorem Kernel.shmOpen_maps (k : Kernel) (p : Pid) (name : ShmName) (fd : Nat) :
    (k.shmOpen p name fd).maps = k.maps := by
  unfold Kernel.shmOpen
  split <;> rfl

theorem Kernel.shmOpen_objects {k : Kernel} {name : ShmName}
    (hk : ∀ o, k.names name = some o → o < k.objects) (p : Pid) (fd : Nat) :
    (k.shmOpen p name fd).objects = max k.objects (k.opened name + 1) := by
  unfold Kernel.shmOpen Kernel.opened
  split
  · rename_i o ho
    have := hk o ho
    rw [ho, Option.getD_some]
    show k.objects = _
    omega
  · rename_i hnone
    rw [hnone, Option.getD_none]
    show k.objects + 1 = _
    omega

section
variable {p : Pid} {name : ShmName} {name_length : Nat} {access : Access} {st : ShmSteps}
  {k k' : Kernel}

/-- **The courses of a construction**, one for each label it leaves by. -/
inductive ShmCourse (p : Pid) (name : ShmName) (name_length : Nat) (access : Access)
    (st : ShmSteps) (k : Kernel) : Option SharedRenderCommandArray → Kernel → Prop where
  | notOpened (hopen : st.shmOpen = none) :
      ShmCourse p name name_length access st k none (k.shmUnlink name)
  | notMapped {fd : Nat} (hopen : st.shmOpen = some fd)
      (hfail : st.ftruncate = false ∨ st.mmap = none) :
      ShmCourse p name name_length access st k none
        (((k.shmOpen p name fd).close p (some fd)).shmUnlink name)
  | noMemory {fd addr : Nat} (hopen : st.shmOpen = some fd) (hmap : st.mmap = some addr)
      (hfail : st.malloc = false) :
      ShmCourse p name name_length access st k none
        (((((k.shmOpen p name fd).mmap p addr access.prot fd).munmap p addr).close p
          (some fd)).shmUnlink name)
  | made {fd addr : Nat} (hopen : st.shmOpen = some fd) (htruncate : st.ftruncate = true)
      (hmap : st.mmap = some addr) (hmalloc : st.malloc = true) :
      ShmCourse p name name_length access st k
        (some ⟨name.take name_length, fd, calcTotalShmSize, addr, addr⟩)
        ((k.shmOpen p name fd).mmap p addr access.prot fd)

theorem shmCourse_of_new {r : Option SharedRenderCommandArray} (hlen : 1 ≤ name_length)
    (h : newSharedRenderCommandArray p (some name) name_length access st k = (r, k')) :
    ShmCourse p name name_length access st k r k' := by
  have hpos : name_length ≠ 0 := by omega
  simp only [newSharedRenderCommandArray, if_neg hpos] at h
  cases hopen : st.shmOpen with
  | none =>
      rw [hopen] at h
      obtain ⟨rfl, rfl⟩ := Prod.mk.inj h
      exact .notOpened hopen
  | some fd =>
      rw [hopen] at h
      cases htruncate : st.ftruncate with
      | false =>
          rw [htruncate] at h
          obtain ⟨rfl, rfl⟩ := Prod.mk.inj h
          exact .notMapped hopen (.inl htruncate)
      | true =>
          rw [htruncate] at h
          cases hmap : st.mmap with
          | none =>
              rw [hmap] at h
              obtain ⟨rfl, rfl⟩ := Prod.mk.inj h
              exact .notMapped hopen (.inr hmap)
          | some addr =>
              rw [hmap] at h
              cases hmalloc : st.malloc with
              | false =>
                  rw [hmalloc] at h
                  obtain ⟨rfl, rfl⟩ := Prod.mk.inj h
                  exact .noMemory hopen hmap hmalloc
              | true =>
                  rw [hmalloc] at h
                  obtain ⟨rfl, rfl⟩ := Prod.mk.inj h
                  exact .made hopen htruncate hmap hmalloc

end

section
variable (p : Pid) (a : SharedRenderCommandArray) (k : Kernel)

theorem sharedRenderCommandArrayFree_names :
    (sharedRenderCommandArrayFree p (some a) k).names
      = if a.shm ≠ 0 then Function.update k.names a.name none else k.names := by
  simp only [sharedRenderCommandArrayFree]
  split_ifs <;> rfl

theorem sharedRenderCommandArrayFree_objects :
    (sharedRenderCommandArrayFree p (some a) k).objects = k.objects := by
  simp only [sharedRenderCommandArrayFree]
  split_ifs <;> rfl

theorem sharedRenderCommandArrayFree_fds :
    (sharedRenderCommandArrayFree p (some a) k).fds
      = if a.shm ≠ 0 then (k.close p (some a.shm)).fds else k.fds := by
  simp only [sharedRenderCommandArrayFree]
  split_ifs <;> rfl

theorem sharedRenderCommandArrayFree_maps :
    (sharedRenderCommandArrayFree p (some a) k).maps
      = if a.start ≠ 0 then (k.munmap p a.start).maps else k.maps := by
  simp only [sharedRenderCommandArrayFree]
  split_ifs <;> rfl

end

/-- An array that was created: it maps the object its name stands for from now on, at
an address that was free. -/
structure ShmCreated (s : ShmSystem) (p : Pid) (name : ShmName) (a : SharedRenderCommandArray)
    (s' : ShmSystem) : Prop where
  named : a.name = name
  free : s.kernel.maps p a.start = none
  live : s'.live = s.live ++ [(p, a)]
  names : s'.kernel.names = Function.update s.kernel.names name (some (s.kernel.opened name))
  objects : s'.kernel.objects = max s.kernel.objects (s.kernel.opened name + 1)
  maps : ∃ prot, s'.kernel.maps = Function.update s.kernel.maps p
    (Function.update (s.kernel.maps p) a.start (some ⟨s.kernel.opened name, prot⟩))

/-- An array that was freed: its mapping is gone, and its name, if it had a
descriptor other than 0. -/
structure ShmFreed (s : ShmSystem) (i : Nat) (x : Pid × SharedRenderCommandArray)
    (s' : ShmSystem) : Prop where
  at_index : s.live[i]? = some x
  live : s'.live = s.live.eraseIdx i
  names : s'.kernel.names = s.kernel.names
    ∨ s'.kernel.names = Function.update s.kernel.names x.2.name none
  objects : s'.kernel.objects = s.kernel.objects
  maps : ∀ p addr, (p, addr) ≠ (x.1, x.2.start) → s'.kernel.maps p addr = s.kernel.maps p addr

/-- What is known of every state: objects in use exist, arrays are mapped, and no two
of a process share an address. -/
structure ShmSystem.Valid (s : ShmSystem) : Prop where
  named : ∀ name o, s.kernel.names name = some o → o < s.kernel.objects
  mapped : ∀ x ∈ s.live, ∃ o, s.object? x = some o ∧ o < s.kernel.objects
  distinct : (s.live.map fun x => (x.1, x.2.start)).Nodup

theorem created_of_step {s s' : ShmSystem} {p : Pid} {name : ShmName} {access : Access}
    {fd addr : Nat} (hs : s.Valid)
    (h : shmMachine.step s (.new p name access fd addr) = some s') :
    ∃ a, ShmCreated s p name a s' := by
  simp only [shmMachine] at h
  split_ifs at h with hfree
  obtain ⟨-, hmaps, haddr⟩ := hfree
  cases name with
  | nil => cases h
  | cons b name =>
      cases hnew : newSharedRenderCommandArray p (some (b :: name)) (b :: name).length access
          ⟨some fd, true, some addr, true⟩ s.kernel with
      | mk r k =>
          rw [hnew] at h
          have hlen : 1 ≤ (b :: name).length := Nat.succ_pos _
          cases shmCourse_of_new hlen hnew with
          | notOpened | notMapped | noMemory => cases h
          | made hopen _ hmap _ =>
              obtain rfl := Option.some.inj hopen
              obtain rfl := Option.some.inj hmap
              obtain rfl := Option.some.inj h
              refine ⟨_, List.take_length, hmaps, rfl, s.kernel.shmOpen_names ..,
                Kernel.shmOpen_objects (hs.named _) p fd, access.prot, ?_⟩
              simp only [Kernel.mmap, Kernel.shmOpen_fds, Kernel.shmOpen_maps, Option.map_some]

theorem freed_of_step {s s' : ShmSystem} {i : Nat}
    (h : shmMachine.step s (.free i) = some s') : ∃ x, ShmFreed s i x s' := by
  simp only [shmMachine] at h
  split at h
  · rename_i p a hi
    obtain rfl := Option.some.inj h
    refine ⟨(p, a), hi, rfl, ?_, sharedRenderCommandArrayFree_objects p a _, ?_⟩
    · rw [sharedRenderCommandArrayFree_names]
      split_ifs
      · exact .inr rfl
      · exact .inl rfl
    · intro q addr hne
      rw [sharedRenderCommandArrayFree_maps]
      split_ifs
      · by_cases hq : q = p
        · subst hq
          have haddr : addr ≠ a.start := fun h => hne (by rw [h])
          simp only [Kernel.munmap, Function.update_self, Function.update_of_ne haddr]
        · simp only [Kernel.munmap, Function.update_of_ne hq]
      · rfl
  · cases h

/-- An array of a bound name maps what the name stands for. -/
def ShmSystem.Current (s : ShmSystem) : Prop :=
  ∀ x ∈ s.live, ∀ o, s.kernel.names x.2.name = some o → s.object? x = some o

/-! ## One step -/

section
variable {s s' : ShmSystem} {p : Pid} {name : ShmName} {a : SharedRenderCommandArray}

theorem ShmCreated.object?_new (h : ShmCreated s p name a s') :
    s'.object? (p, a) = some (s.kernel.opened name) := by
  obtain ⟨prot, hmaps⟩ := h.maps
  simp only [ShmSystem.object?, hmaps, Function.update_self, Option.map_some]

/-- The arrays that were there keep their objects. -/
theorem ShmCreated.object?_old (h : ShmCreated s p name a s') (hs : s.Valid)
    {x : Pid × SharedRenderCommandArray} (hx : x ∈ s.live) : s'.object? x = s.object? x := by
  obtain ⟨prot, hmaps⟩ := h.maps
  obtain ⟨o, ho, -⟩ := hs.mapped x hx
  rw [ShmSystem.object?, ShmSystem.object?, hmaps]
  by_cases hp : x.1 = p
  · have haddr : x.2.start ≠ a.start := fun heq => by
      rw [ShmSystem.object?, hp, heq, h.free] at ho
      cases ho
    rw [hp, Function.update_self, Function.update_of_ne haddr]
  · rw [Function.update_of_ne hp]

theorem ShmCreated.mem_live (h : ShmCreated s p name a s') {x : Pid × SharedRenderCommandArray} :
    x ∈ s'.live ↔ x ∈ s.live ∨ x = (p, a) := by
  rw [h.live, List.mem_append, List.mem_singleton]

/-- A free binds no name. -/
theorem ShmFreed.names_of_bound {i : Nat} {x : Pid × SharedRenderCommandArray}
    (h : ShmFreed s i x s') {name : ShmName} {o : Nat} (ho : s'.kernel.names name = some o) :
    s.kernel.names name = some o := by
  rcases h.names with hnames | hnames
  · rw [← hnames, ho]
  · rw [hnames, Function.update_apply] at ho
    split_ifs at ho
    exact ho

theorem ShmFreed.mem {i : Nat} {x y : Pid × SharedRenderCommandArray} (h : ShmFreed s i x s')
    (hs : s.Valid) (hy : y ∈ s'.live) : y ∈ s.live ∧ s'.object? y = s.object? y := by
  rw [h.live] at hy
  refine ⟨List.mem_of_mem_eraseIdx hy, ?_⟩
  have hne : (y.1, y.2.start) ≠ (x.1, x.2.start) := by
    intro heq
    obtain ⟨j, hji, hj⟩ := List.mem_eraseIdx_iff_getElem?.mp hy
    obtain ⟨hlt, -⟩ := List.getElem?_eq_some_iff.mp hj
    refine hji ((List.getElem?_inj (by simpa using hlt) hs.distinct).mp ?_)
    rw [List.getElem?_map, List.getElem?_map, hj, h.at_index]
    exact congrArg some heq
  rw [ShmSystem.object?, ShmSystem.object?, h.maps _ _ hne]

theorem valid_step {e : ShmEvent} (hs : s.Valid) (h : shmMachine.step s e = some s') :
    s'.Valid := by
  cases e with
  | new p name access fd addr =>
      obtain ⟨a, ha⟩ := created_of_step hs h
      have hobjects := ha.objects
      refine ⟨fun name' o ho => ?_, fun x hx => ?_, ?_⟩
      · rw [ha.names] at ho
        by_cases hname : name' = name
        · rw [hname, Function.update_self] at ho
          obtain rfl := Option.some.inj ho
          omega
        · rw [Function.update_of_ne hname] at ho
          have := hs.named name' o ho
          omega
      · rcases ha.mem_live.mp hx with hx | rfl
        · obtain ⟨o, ho, hlt⟩ := hs.mapped x hx
          exact ⟨o, by rw [ha.object?_old hs hx, ho], by omega⟩
        · exact ⟨_, ha.object?_new, by omega⟩
      · rw [ha.live, List.map_append]
        refine List.Nodup.append hs.distinct (List.nodup_singleton _) ?_
        intro key hkey hnew
        obtain ⟨x, hx, rfl⟩ := List.mem_map.mp hkey
        obtain ⟨o, ho, -⟩ := hs.mapped x hx
        have heq : (x.1, x.2.start) = (p, a.start) := List.mem_singleton.mp hnew
        obtain ⟨h₁, h₂⟩ := Prod.mk.inj heq
        rw [ShmSystem.object?, h₁, h₂, ha.free] at ho
        cases ho
  | free i =>
      obtain ⟨x, hx⟩ := freed_of_step h
      refine ⟨fun name' o ho => ?_, fun y hy => ?_, ?_⟩
      · rw [hx.objects]
        exact hs.named name' o (hx.names_of_bound ho)
      · obtain ⟨hmem, hobject⟩ := hx.mem hs hy
        rw [hobject, hx.objects]
        exact hs.mapped y hmem
      · rw [hx.live]
        exact ((List.eraseIdx_sublist _ _).map _).nodup hs.distinct

theorem current_step {e : ShmEvent} (hs : s.Valid) (hcurrent : s.Current)
    (h : shmMachine.step s e = some s') (hshares : s'.Shares) : s'.Current := by
  cases e with
  | new p name access fd addr =>
      obtain ⟨a, ha⟩ := created_of_step hs h
      intro x hx o ho
      rw [ha.names] at ho
      by_cases hname : x.2.name = name
      · -- the new array maps what the name stands for, and they share it
        rw [hname, Function.update_self] at ho
        have hnew : (p, a) ∈ s'.live := ha.mem_live.mpr (.inr rfl)
        obtain ⟨o', hx', hnew'⟩ := hshares x hx _ hnew (hname.trans ha.named.symm)
        rw [ha.object?_new, ho] at hnew'
        rw [hx', hnew']
      · rw [Function.update_of_ne hname] at ho
        rcases ha.mem_live.mp hx with hx | rfl
        · rw [ha.object?_old hs hx]
          exact hcurrent x hx o ho
        · exact absurd ha.named hname
  | free i =>
      obtain ⟨x, hx⟩ := freed_of_step h
      intro y hy o ho
      obtain ⟨hmem, hobject⟩ := hx.mem hs hy
      rw [hobject]
      exact hcurrent y hmem o (hx.names_of_bound ho)

/-- **A step keeps arrays of one name together** exactly when it is good. -/
theorem shares_step_iff {e : ShmEvent} (hs : s.Valid) (hcurrent : s.Current)
    (hshares : s.Shares) (h : shmMachine.step s e = some s') : s'.Shares ↔ ShmEvent.Good s e := by
  cases e with
  | new p name access fd addr =>
      obtain ⟨a, ha⟩ := created_of_step hs h
      have hnew : (p, a) ∈ s'.live := ha.mem_live.mpr (.inr rfl)
      constructor
      · intro hshares'
        by_contra hgood
        obtain ⟨hnone, hall⟩ := not_or.mp hgood
        push Not at hnone hall
        obtain ⟨x, hx, hname⟩ := hall
        -- the new array has an object no other maps
        obtain ⟨o, ho, hlt⟩ := hs.mapped x hx
        have hx' : x ∈ s'.live := ha.mem_live.mpr (.inl hx)
        obtain ⟨o', h₁, h₂⟩ := hshares' x hx' _ hnew (hname.trans ha.named.symm)
        rw [ha.object?_old hs hx, ho] at h₁
        rw [ha.object?_new, Kernel.opened, hnone] at h₂
        have h₁ := Option.some.inj h₁
        have h₂ : s.kernel.objects = o' := Option.some.inj h₂
        omega
      · intro hgood
        have hold : ∀ x ∈ s.live, x.2.name = name →
            s'.object? x = some (s.kernel.opened name) := by
          intro x hx hname
          rcases hgood with hbound | hnone
          · obtain ⟨o, ho⟩ := Option.ne_none_iff_exists'.mp hbound
            rw [ha.object?_old hs hx, hcurrent x hx o (hname ▸ ho), Kernel.opened, ho]
            rfl
          · exact absurd hname (hnone x hx)
        have hobject : ∀ x ∈ s'.live, x.2.name = name →
            s'.object? x = some (s.kernel.opened name) := by
          intro x hx hname
          rcases ha.mem_live.mp hx with hx | rfl
          · exact hold x hx hname
          · exact ha.object?_new
        intro x hx y hy hxy
        by_cases hname : x.2.name = name
        · exact ⟨_, hobject x hx hname, hobject y hy (hxy ▸ hname)⟩
        · have hmem : ∀ z ∈ s'.live, z.2.name ≠ name → z ∈ s.live := by
            intro z hz hne
            rcases ha.mem_live.mp hz with hz | rfl
            · exact hz
            · exact absurd ha.named hne
          have hx' := hmem x hx hname
          have hy' := hmem y hy (hxy ▸ hname)
          rw [ha.object?_old hs hx', ha.object?_old hs hy']
          exact hshares x hx' y hy' hxy
  | free i =>
      obtain ⟨x, hx⟩ := freed_of_step h
      refine iff_of_true (fun y hy z hz hyz => ?_) trivial
      obtain ⟨hy', hyo⟩ := hx.mem hs hy
      obtain ⟨hz', hzo⟩ := hx.mem hs hz
      rw [hyo, hzo]
      exact hshares y hy' z hz' hyz

end

/-- **When live arrays of one name share one segment**: in every state of a run exactly
when none is created of a name that is gone while others of that name live. -/
theorem arrays_share_iff {es : List ShmEvent} {s s' : ShmSystem} (hs : shmMachine.init s)
    (h : shmMachine.exec s es = some s') :
    shmMachine.Throughout ShmSystem.Shares s es ↔ shmMachine.Along ShmEvent.Good s es := by
  obtain ⟨hlive, hnamed⟩ := hs
  have hvalid : s.Valid := ⟨hnamed, by simp [hlive], by simp [hlive]⟩
  have hcurrent : s.Current := by simp [ShmSystem.Current, hlive]
  have hshares : s.Shares := by simp [ShmSystem.Shares, hlive]
  exact Machine.throughout_iff_along (I := fun s => s.Valid ∧ s.Current)
    (fun s e s' hI hstep hshares => ⟨valid_step hI.1 hstep, current_step hI.1 hI.2 hstep hshares⟩)
    (fun s e s' hI hP hstep => shares_step_iff hI.1 hI.2 hP hstep) ⟨hvalid, hcurrent⟩ hshares h

/-- No names, nothing open. -/
def freshSystem : ShmSystem := ⟨⟨fun _ => none, 0, fun _ _ => none, fun _ _ => none⟩, []⟩

theorem freshSystem_init : shmMachine.init freshSystem := ⟨rfl, fun _ _ h => by cases h⟩

theorem two_arrays_share : shmMachine.Throughout ShmSystem.Shares freshSystem
    [.new 1 [47, 97] .kReadWrite 3 4096, .new 2 [47, 97] .kReadOnly 3 4096] := by
  have hruns : (shmMachine.exec freshSystem [.new 1 [47, 97] .kReadWrite 3 4096,
      .new 2 [47, 97] .kReadOnly 3 4096]).isSome = true := by decide
  obtain ⟨s', hs'⟩ := Option.isSome_iff_exists.mp hruns
  refine (arrays_share_iff freshSystem_init hs').mpr ⟨.inr ?_, fun s₁ hs₁ => ⟨.inl ?_,
    fun _ _ => trivial⟩⟩
  · exact fun x hx => by cases hx
  · obtain rfl := Option.some.inj hs₁
    exact fun h => by cases h

/-- The array made after the first of two was freed is alone. -/
theorem third_array_does_not_share :
    ¬∀ (es : List ShmEvent) (s s' : ShmSystem), shmMachine.init s →
      shmMachine.exec s es = some s' → s'.Shares := by
  intro hall
  have hshares := hall [.new 1 [47, 97] .kReadWrite 3 4096, .new 2 [47, 97] .kReadWrite 3 4096,
    .free 0, .new 3 [47, 97] .kReadWrite 3 4096] freshSystem _ freshSystem_init rfl
  obtain ⟨o, ho, ho'⟩ := hshares (2, ⟨[47, 97], 3, calcTotalShmSize, 4096, 4096⟩)
    List.mem_cons_self (3, ⟨[47, 97], 3, calcTotalShmSize, 4096, 4096⟩)
    (List.mem_cons_of_mem _ List.mem_cons_self) rfl
  have hzero : some 0 = some o := ho
  have hone : some 1 = some o := ho'
  cases hzero
  cases hone

end Vespa
