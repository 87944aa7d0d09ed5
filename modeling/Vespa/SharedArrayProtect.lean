import Mathlib.Algebra.Group.Nat.Defs
import Mathlib.Data.List.InsertIdx
import Vespa.SharedArrayFrame

/-!
# Who may do what with a shared array (`render_command_linux.c`, `render_command.c`)

`SharedRenderCommandArrayProtect` changes the protection of one mapping of one
process and says `true` whether `mprotect` did it or not. What any number of
processes have done to their arrays by creating, protecting and freeing them is
told by a list of accesses, one for each live array, and nothing else: that list
is the abstract state, and the kernel's mappings follow it.
-/

namespace Vespa

/-! ## The functions -/

/-- `mprotect(addr, size, prot)` of the mapping at `addr`. -/
def Kernel.mprotect (k : Kernel) (p : Pid) (addr prot : Nat) : Kernel :=
  let mapping := (k.maps p addr).map fun m => { m with prot := prot }
  { k with maps := Function.update k.maps p (Function.update (k.maps p) addr mapping) }

/-- `SharedRenderCommandArrayProtect`; `changed` is whether `mprotect` succeeds, which
goes unchecked. -/
def sharedRenderCommandArrayProtect (p : Pid) (sarr : Option SharedRenderCommandArray)
    (access : Access) (changed : Bool) (k : Kernel) : Bool × Kernel :=
  match sarr with
  | none => (false, k)
  | some sarr =>
    if sarr.start = 0 ∨ sarr.size = 0 then (false, k)
    else (true, if changed then k.mprotect p sarr.start access.prot else k)

/-- `DEFINE_GET_ADDRESS` -/
def getAddress (value : SharedRenderCommandArray → Nat) :
    Option SharedRenderCommandArray → Nat
  | none => 0
  | some sarr => value sarr % 2 ^ 64

def sharedRenderCommandArrayGetStartingAddress := getAddress fun sarr => sarr.start

def sharedRenderCommandArrayGetCurrentAddress := getAddress fun sarr => sarr.current

def sharedRenderCommandArrayGetEndingAddress := getAddress fun sarr => sarr.start + sarr.size

/-! ## Runs -/

inductive ArrayEvent where
  | new (p : Pid) (name : Option ShmName) (name_length : Nat) (access : Access) (st : ShmSteps)
  | protect (i : Nat) (access : Access) (changed : Bool)
  | free (i : Nat)
deriving DecidableEq, Repr

/-- A descriptor or an address range the kernel hands out is not in use by the process. -/
def ShmSteps.unused (st : ShmSteps) (p : Pid) (s : ShmSystem) : Bool :=
  (st.shmOpen.all fun fd => (s.kernel.fds p fd).isNone)
    && st.mmap.all fun addr => addr ≠ 0 && (s.kernel.maps p addr).isNone
      && addr + calcTotalShmSize < 2 ^ 64
      && s.live.all fun x => x.1 ≠ p || x.2.start + x.2.size ≤ addr
        || addr + calcTotalShmSize ≤ x.2.start

/-- Any number of processes that create arrays, with any outcome of the steps, protect
them and free them. -/
def arrayMachine : Machine ShmSystem ArrayEvent where
  init s := s.live = []
  step s
    | .new p name name_length access st =>
      if st.unused p s then
        match newSharedRenderCommandArray p name name_length access st s.kernel with
        | (some a, k) => some ⟨k, s.live ++ [(p, a)]⟩
        | (none, k) => some ⟨k, s.live⟩
      else none
    | .protect i access changed =>
      match s.live[i]? with
      | some (p, a) =>
        some ⟨(sharedRenderCommandArrayProtect p (some a) access changed s.kernel).2, s.live⟩
      | none => none
    | .free i =>
      match s.live[i]? with
      | some (p, a) =>
        some ⟨sharedRenderCommandArrayFree p (some a) s.kernel, s.live.eraseIdx i⟩
      | none => none

/-! ## The list of accesses -/

instance (st : ShmSteps) : Decidable st.Succeeds :=
  inferInstanceAs (Decidable (st.shmOpen.isSome ∧ st.ftruncate ∧ st.mmap.isSome ∧ st.malloc))

/-- What an event does to the accesses of the live arrays. -/
def accessAfter (accesses : List Access) : ArrayEvent → List Access
  | .new _ name name_length access st =>
    if name.isSome ∧ name_length ≠ 0 ∧ st.Succeeds then accesses ++ [access] else accesses
  | .protect i access changed => if changed then accesses.set i access else accesses
  | .free i => accesses.eraseIdx i

/-- The protection of a live array's mapping. -/
def ShmSystem.prot? (s : ShmSystem) (x : Pid × SharedRenderCommandArray) : Option Nat :=
  (s.kernel.maps x.1 x.2.start).map Mapping.prot

/-- The mappings are as the list says. -/
def ShmSystem.Follows (s : ShmSystem) (accesses : List Access) : Prop :=
  s.live.map s.prot? = accesses.map fun a => some a.prot

/-- Two arrays do not overlap, unless they are of different processes. -/
def Apart (x y : Pid × SharedRenderCommandArray) : Prop :=
  x.1 = y.1 → x.2.start + x.2.size ≤ y.2.start ∨ y.2.start + y.2.size ≤ x.2.start

/-- An array as it is made, and as it stays. -/
structure SharedRenderCommandArray.Laid (a : SharedRenderCommandArray) : Prop where
  start : 0 < a.start
  current : a.current = a.start
  size : a.size = calcTotalShmSize
  bound : a.start + calcTotalShmSize < 2 ^ 64

structure ShmSystem.Laid (s : ShmSystem) : Prop where
  each : ∀ x ∈ s.live, x.2.Laid
  apart : s.live.Pairwise Apart

/-! ## One event -/

section
variable {s s' : ShmSystem} {p : Pid} {st : ShmSteps} {addr : Nat}

theorem fresh_of_unused (h : st.unused p s = true) : st.Fresh p s.kernel := by
  simp only [ShmSteps.unused, Bool.and_eq_true, Option.all_eq_true, decide_eq_true_eq,
    Option.isNone_iff_eq_none] at h
  exact ⟨h.1, fun addr haddr => ⟨(h.2 addr haddr).1.1.2, (h.2 addr haddr).1.1.1⟩⟩

theorem room_of_unused (h : st.unused p s = true) (haddr : st.mmap = some addr) :
    addr + calcTotalShmSize < 2 ^ 64 ∧ ∀ x ∈ s.live, x.1 = p →
      x.2.start + x.2.size ≤ addr ∨ addr + calcTotalShmSize ≤ x.2.start := by
  simp only [ShmSteps.unused, Bool.and_eq_true, Option.all_eq_true, decide_eq_true_eq,
    List.all_eq_true, Bool.or_eq_true] at h
  obtain ⟨⟨-, hbound⟩, hroom⟩ := h.2 addr haddr
  refine ⟨hbound, fun x hx hp => ?_⟩
  rcases hroom x hx with (hne | hle) | hle
  · exact absurd hp hne
  · exact .inl hle
  · exact .inr hle

/-- The protections of the arrays at other places stay when one place changes. -/
theorem prot?_congr {k : Kernel} {x : Pid × SharedRenderCommandArray} {live : List _}
    (h : k.maps x.1 x.2.start = s.kernel.maps x.1 x.2.start) :
    ShmSystem.prot? ⟨k, live⟩ x = s.prot? x := by
  rw [ShmSystem.prot?, ShmSystem.prot?, h]

theorem ne_of_apart {x y : Pid × SharedRenderCommandArray} (hx : x.2.Laid) (hy : y.2.Laid)
    (h : Apart x y) : (x.1, x.2.start) ≠ (y.1, y.2.start) := by
  intro heq
  obtain ⟨hp, hstart⟩ := Prod.mk.inj heq
  have hxs := hx.size
  have hys := hy.size
  have hpos : 0 < calcTotalShmSize := by decide
  rcases h hp with hle | hle <;> omega

theorem Apart.symm {x y : Pid × SharedRenderCommandArray} (h : Apart x y) : Apart y x :=
  fun hp => (h hp.symm).symm

theorem apart_of_ne (h : s.live.Pairwise Apart) {i j : Nat} {x y : Pid × SharedRenderCommandArray}
    (hi : s.live[i]? = some x) (hj : s.live[j]? = some y) (hij : i ≠ j) : Apart x y := by
  obtain ⟨hilt, rfl⟩ := List.getElem?_eq_some_iff.mp hi
  obtain ⟨hjlt, rfl⟩ := List.getElem?_eq_some_iff.mp hj
  rcases Nat.lt_or_gt_of_ne hij with hlt | hgt
  · exact List.pairwise_iff_getElem.mp h i j hilt hjlt hlt
  · exact (List.pairwise_iff_getElem.mp h j i hjlt hilt hgt).symm

end

section
variable {p : Pid} {name : Option ShmName} {name_length : Nat} {access : Access} {st : ShmSteps}
  {k k' : Kernel}

/-- A construction that fails, or is not begun, leaves the mappings. -/
theorem of_new_none (hfresh : st.Fresh p k)
    (h : newSharedRenderCommandArray p name name_length access st k = (none, k')) :
    k'.maps = k.maps ∧ ¬(name.isSome ∧ name_length ≠ 0 ∧ st.Succeeds) := by
  cases name with
  | none =>
      obtain ⟨-, rfl⟩ := Prod.mk.inj h
      exact ⟨rfl, fun h => by cases h.1⟩
  | some name =>
      by_cases hlen : name_length = 0
      · rw [newSharedRenderCommandArray, if_pos hlen] at h
        obtain ⟨-, rfl⟩ := Prod.mk.inj h
        exact ⟨rfl, fun h => h.2.1 hlen⟩
      · obtain ⟨hfails, -, -, hmaps⟩ := of_new_eq_none (by omega) hfresh h
        exact ⟨hmaps, fun h => hfails h.2.2⟩

/-- One that succeeds adds a mapping, with the access it was asked for. -/
theorem of_new_some {a : SharedRenderCommandArray}
    (h : newSharedRenderCommandArray p name name_length access st k = (some a, k')) :
    (name.isSome ∧ name_length ≠ 0 ∧ st.Succeeds) ∧ st.mmap = some a.start
      ∧ a.current = a.start ∧ a.size = calcTotalShmSize
      ∧ ∃ object, k'.maps = Function.update k.maps p
        (Function.update (k.maps p) a.start (some ⟨object, access.prot⟩)) := by
  cases name with
  | none => cases (Prod.mk.inj h).1
  | some name =>
      by_cases hlen : name_length = 0
      · rw [newSharedRenderCommandArray, if_pos hlen] at h
        cases (Prod.mk.inj h).1
      · cases shmCourse_of_new (by omega) h with
        | @made fd addr hopen htruncate hmap hmalloc =>
            refine ⟨⟨rfl, hlen, by rw [hopen]; rfl, htruncate, by rw [hmap]; rfl, hmalloc⟩, hmap,
              rfl, rfl, k.opened name, ?_⟩
            simp only [Kernel.mmap, Kernel.shmOpen_fds, Kernel.shmOpen_maps, Option.map_some]

end

section
variable {s s' : ShmSystem} {accesses : List Access}

/-- **A construction** adds its access to the list, or nothing. -/
theorem follows_new {p : Pid} {name : Option ShmName} {name_length : Nat} {access : Access}
    {st : ShmSteps} (hs : s.Laid) (hfollows : s.Follows accesses)
    (h : arrayMachine.step s (.new p name name_length access st) = some s') :
    s'.Laid ∧ s'.Follows (accessAfter accesses (.new p name name_length access st)) := by
  simp only [arrayMachine] at h
  split_ifs at h with hunused
  have hfresh := fresh_of_unused hunused
  cases hnew : newSharedRenderCommandArray p name name_length access st s.kernel with
  | mk r k =>
      rw [hnew] at h
      cases r with
      | none =>
          obtain rfl := Option.some.inj h
          obtain ⟨hmaps, hfails⟩ := of_new_none hfresh hnew
          refine ⟨⟨hs.each, hs.apart⟩, ?_⟩
          rw [accessAfter, if_neg hfails]
          have hsame : ShmSystem.prot? ⟨k, s.live⟩ = s.prot? := by
            funext x
            exact prot?_congr (by rw [hmaps])
          show s.live.map _ = _
          rw [hsame]
          exact hfollows
      | some a =>
          obtain rfl := Option.some.inj h
          obtain ⟨hmade, hmap, hcurrent, hsize, object, hmaps⟩ := of_new_some hnew
          obtain ⟨hbound, hroom⟩ := room_of_unused hunused hmap
          obtain ⟨hfree, hstart⟩ := hfresh.addr _ hmap
          have hlaid : a.Laid := ⟨by omega, hcurrent, hsize, hbound⟩
          have hapart : ∀ x ∈ s.live, Apart x (p, a) := by
            intro x hx hp
            have hroom := hroom x hx hp
            rw [hsize]
            exact hroom
          refine ⟨⟨?_, ?_⟩, ?_⟩
          · intro x hx
            rcases List.mem_append.mp hx with hx | hx
            · exact hs.each x hx
            · rw [List.mem_singleton.mp hx]
              exact hlaid
          · refine List.pairwise_append.mpr ⟨hs.apart, List.pairwise_singleton .., ?_⟩
            intro x hx y hy
            rw [List.mem_singleton.mp hy]
            exact hapart x hx
          · rw [accessAfter, if_pos hmade]
            unfold ShmSystem.Follows
            have hnewprot : ShmSystem.prot? ⟨k, s.live ++ [(p, a)]⟩ (p, a) = some access.prot := by
              simp only [ShmSystem.prot?, hmaps, Function.update_self, Option.map_some]
            have hold : ∀ x ∈ s.live, ShmSystem.prot? ⟨k, s.live ++ [(p, a)]⟩ x = s.prot? x := by
              intro x hx
              refine prot?_congr ?_
              have hne := ne_of_apart (hs.each x hx) hlaid (hapart x hx)
              rw [hmaps]
              by_cases hp : x.1 = p
              · have haddr : x.2.start ≠ a.start := fun h => hne (Prod.ext hp h)
                rw [hp, Function.update_self, Function.update_of_ne haddr]
              · rw [Function.update_of_ne hp]
            rw [List.map_append, List.map_append, List.map_congr_left hold, hfollows,
              List.map_singleton, List.map_singleton, hnewprot]

/-- What `mprotect` leaves of the other mappings. -/
theorem mprotect_maps_of_ne {k : Kernel} {p q : Pid} {addr addr' : Nat} (prot : Nat)
    (h : (q, addr') ≠ (p, addr)) : (k.mprotect p addr prot).maps q addr' = k.maps q addr' := by
  by_cases hq : q = p
  · subst hq
    have haddr : addr' ≠ addr := fun heq => h (by rw [heq])
    simp only [Kernel.mprotect, Function.update_self, Function.update_of_ne haddr]
  · simp only [Kernel.mprotect, Function.update_of_ne hq]

/-- **A protection** sets one access of the list, if `mprotect` succeeds. -/
theorem follows_protect {i : Nat} {access : Access} {changed : Bool} (hs : s.Laid)
    (hfollows : s.Follows accesses)
    (h : arrayMachine.step s (.protect i access changed) = some s') :
    s'.Laid ∧ s'.Follows (accessAfter accesses (.protect i access changed)) := by
  simp only [arrayMachine] at h
  cases hi : s.live[i]? with
  | none =>
      rw [hi] at h
      cases h
  | some x =>
      rw [hi] at h
      obtain rfl := Option.some.inj h
      have hlaid := hs.each x (List.mem_of_getElem? hi)
      refine ⟨⟨hs.each, hs.apart⟩, ?_⟩
      have hset : ¬(x.2.start = 0 ∨ x.2.size = 0) := by
        have hstart := hlaid.start
        have hsize := hlaid.size
        have hpos : 0 < calcTotalShmSize := by decide
        omega
      simp only [sharedRenderCommandArrayProtect, if_neg hset]
      cases changed with
      | false => exact hfollows
      | true =>
          unfold ShmSystem.Follows
          simp only [accessAfter, if_true, List.map_set]
          rw [← hfollows]
          refine List.ext_getElem? fun j => ?_
          rw [List.getElem?_map, List.getElem?_set]
          by_cases hij : i = j
          · subst hij
            obtain ⟨hlt, -⟩ := List.getElem?_eq_some_iff.mp hi
            have hmapped : ∃ m, s.kernel.maps x.1 x.2.start = some m := by
              have hprot := congrArg (·[i]?) hfollows
              simp only [List.getElem?_map, hi, Option.map_some] at hprot
              cases hmap : s.kernel.maps x.1 x.2.start with
              | some m => exact ⟨m, rfl⟩
              | none =>
                  rw [ShmSystem.prot?, hmap] at hprot
                  cases haccess : accesses[i]? with
                  | none =>
                      rw [haccess] at hprot
                      cases hprot
                  | some access' =>
                      rw [haccess] at hprot
                      cases hprot
            obtain ⟨m, hm⟩ := hmapped
            rw [if_pos rfl, if_pos (by rwa [List.length_map]), hi]
            simp only [ShmSystem.prot?, Kernel.mprotect, Function.update_self, hm,
              Option.map_some]
          · rw [if_neg hij, List.getElem?_map]
            cases hj : s.live[j]? with
            | none => rfl
            | some y =>
                have hne := ne_of_apart (hs.each y (List.mem_of_getElem? hj)) hlaid
                  (apart_of_ne hs.apart hj hi fun h => hij h.symm)
                exact congrArg some (prot?_congr (mprotect_maps_of_ne _ hne))

/-- **A free** takes an access off the list. -/
theorem follows_free {i : Nat} (hs : s.Laid) (hfollows : s.Follows accesses)
    (h : arrayMachine.step s (.free i) = some s') :
    s'.Laid ∧ s'.Follows (accessAfter accesses (.free i)) := by
  simp only [arrayMachine] at h
  cases hi : s.live[i]? with
  | none =>
      rw [hi] at h
      cases h
  | some x =>
      rw [hi] at h
      obtain rfl := Option.some.inj h
      have hlaid := hs.each x (List.mem_of_getElem? hi)
      refine ⟨⟨fun y hy => hs.each y (List.mem_of_mem_eraseIdx hy),
        hs.apart.sublist (List.eraseIdx_sublist ..)⟩, ?_⟩
      have hothers : ∀ y ∈ s.live.eraseIdx i, ShmSystem.prot?
          ⟨sharedRenderCommandArrayFree x.1 (some x.2) s.kernel, s.live.eraseIdx i⟩ y
            = s.prot? y := by
        intro y hy
        obtain ⟨j, hji, hj⟩ := List.mem_eraseIdx_iff_getElem?.mp hy
        have hne := ne_of_apart (hs.each y (List.mem_of_getElem? hj)) hlaid
          (apart_of_ne hs.apart hj hi hji)
        refine prot?_congr ?_
        rw [sharedRenderCommandArrayFree_maps]
        split_ifs
        · by_cases hp : y.1 = x.1
          · have haddr : y.2.start ≠ x.2.start := fun h => hne (Prod.ext hp h)
            simp only [Kernel.munmap, hp, Function.update_self, Function.update_of_ne haddr]
          · simp only [Kernel.munmap, Function.update_of_ne hp]
        · rfl
      show (s.live.eraseIdx i).map _ = (accesses.eraseIdx i).map _
      rw [List.map_congr_left hothers, ← List.eraseIdx_map, ← List.eraseIdx_map, hfollows]

theorem follows_step {e : ArrayEvent} (hs : s.Laid) (hfollows : s.Follows accesses)
    (h : arrayMachine.step s e = some s') : s'.Laid ∧ s'.Follows (accessAfter accesses e) := by
  cases e with
  | new p name name_length access st => exact follows_new hs hfollows h
  | protect i access changed => exact follows_protect hs hfollows h
  | free i => exact follows_free hs hfollows h

/-! ## Runs of the list -/

theorem follows_exec {es : List ArrayEvent} (hs : s.Laid) (hfollows : s.Follows accesses)
    (h : arrayMachine.exec s es = some s') :
    s'.Laid ∧ s'.Follows (es.foldl accessAfter accesses) := by
  induction es generalizing s accesses with
  | nil =>
      obtain rfl := Option.some.inj h
      exact ⟨hs, hfollows⟩
  | cons e es ih =>
      obtain ⟨s₁, he, hrest⟩ := Option.bind_eq_some_iff.mp h
      obtain ⟨hs₁, hfollows₁⟩ := follows_step hs hfollows he
      exact ih hs₁ hfollows₁ hrest

end

/-- A laid array's addresses, and what a call on it returns. -/
structure Answers (p : Pid) (a : SharedRenderCommandArray) (k : Kernel) : Prop where
  starting : sharedRenderCommandArrayGetStartingAddress (some a) = a.start
  nonzero : a.start ≠ 0
  current : sharedRenderCommandArrayGetCurrentAddress (some a) = a.start
  ending : sharedRenderCommandArrayGetEndingAddress (some a) = a.start + calcTotalShmSize
  granted : ∀ access changed, (sharedRenderCommandArrayProtect p (some a) access changed k).1

theorem SharedRenderCommandArray.Laid.answers {a : SharedRenderCommandArray} (h : a.Laid) (p : Pid)
    (k : Kernel) : Answers p a k := by
  have hstart := h.start
  have hbound := h.bound
  have hsize := h.size
  have hpos : 0 < calcTotalShmSize := by decide
  have hset : ¬(a.start = 0 ∨ a.size = 0) := by omega
  refine ⟨?_, by omega, ?_, ?_, ?_⟩
  · show a.start % 2 ^ 64 = a.start
    exact Nat.mod_eq_of_lt (by omega)
  · show a.current % 2 ^ 64 = a.start
    rw [h.current]
    exact Nat.mod_eq_of_lt (by omega)
  · show (a.start + a.size) % 2 ^ 64 = _
    rw [hsize]
    exact Nat.mod_eq_of_lt hbound
  · intro access changed
    rw [sharedRenderCommandArrayProtect, if_neg hset]

/-- **The list of accesses tells all.** After every run, of any processes and with any
outcomes: each live array has the protection it was last given, by its creation or
by a call whose `mprotect` succeeded, whatever was done to others; arrays of one
process do not overlap; and every array answers with its own addresses, and with
`true` to every protection. -/
theorem protections_follow {es : List ArrayEvent} {s s' : ShmSystem} (hs : arrayMachine.init s)
    (h : arrayMachine.exec s es = some s') :
    s'.live.map s'.prot? = (es.foldl accessAfter []).map (fun a => some a.prot)
      ∧ s'.live.Pairwise Apart ∧ ∀ x ∈ s'.live, Answers x.1 x.2 s'.kernel := by
  have hlive : s.live = [] := hs
  have hlaid : s.Laid := ⟨by simp [hlive], by simp [hlive]⟩
  have hfollows : s.Follows [] := by simp [ShmSystem.Follows, hlive]
  obtain ⟨hlaid', hfollows'⟩ := follows_exec hlaid hfollows h
  exact ⟨hfollows', hlaid'.apart, fun x hx => (hlaid'.each x hx).answers x.1 s'.kernel⟩

/-- Two arrays of one segment, one of them set to read only. -/
theorem one_of_two_protected : ∃ s', arrayMachine.exec freshSystem
    [.new 1 (some [47, 97]) 2 .kReadWrite ⟨some 3, true, some 4096, true⟩,
      .new 2 (some [47, 97]) 2 .kReadWrite ⟨some 3, true, some 4096, true⟩,
      .protect 0 .kReadOnly true, .protect 1 .kNone false] = some s'
    ∧ s'.live.map s'.prot? = [some 1, some 3] := by
  obtain ⟨s', hs'⟩ : ∃ s', arrayMachine.exec freshSystem
    [.new 1 (some [47, 97]) 2 .kReadWrite ⟨some 3, true, some 4096, true⟩,
      .new 2 (some [47, 97]) 2 .kReadWrite ⟨some 3, true, some 4096, true⟩,
      .protect 0 .kReadOnly true, .protect 1 .kNone false] = some s' := ⟨_, rfl⟩
  have hinit : arrayMachine.init freshSystem := rfl
  exact ⟨s', hs', (protections_follow hinit hs').1⟩

end Vespa
