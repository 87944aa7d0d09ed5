import Vespa.SharedArray

/-!
# Does a shared array leave the system as it was?

`NewSharedRenderCommandArray` takes a descriptor and a mapping, and may make the
name it opens; where a step fails it gives back what it took, and otherwise
`SharedRenderCommandArrayFree` does.

Descriptors and mappings come back, but for a descriptor 0, which is taken for
none. The name does not: it is unlinked whether the call made it or found it,
and after a failed `shm_open` too, while the name recorded for the free is cut
to `name_length` bytes. So nothing is left behind exactly where the name is
new, recorded whole, and opened at a descriptor other than 0.
-/

namespace Vespa

/-! ## What is compared -/

/-- The names, descriptors and mappings are those of `k`. -/
structure Kernel.Same (k' k : Kernel) : Prop where
  names : k'.names = k.names
  fds : k'.fds = k.fds
  maps : k'.maps = k.maps

/-- A construction that fails leaves nothing behind, and the free of one that succeeds
unlinks the name that was opened and leaves nothing behind. -/
structure LeavesNoTrace (p : Pid) (name : ShmName) (name_length : Nat) (access : Access)
    (st : ShmSteps) (k : Kernel) : Prop where
  failed : ∀ k', newSharedRenderCommandArray p (some name) name_length access st k = (none, k') →
    k'.Same k
  freed : ∀ a k', newSharedRenderCommandArray p (some name) name_length access st k
    = (some a, k') → a.name = name ∧ (sharedRenderCommandArrayFree p (some a) k').Same k

/-- What the kernel hands out is not in use, and no mapping is at address 0. -/
structure ShmSteps.Fresh (st : ShmSteps) (p : Pid) (k : Kernel) : Prop where
  fd : ∀ fd, st.shmOpen = some fd → k.fds p fd = none
  addr : ∀ addr, st.mmap = some addr → k.maps p addr = none ∧ addr ≠ 0

def ShmSteps.Succeeds (st : ShmSteps) : Prop :=
  st.shmOpen.isSome ∧ st.ftruncate ∧ st.mmap.isSome ∧ st.malloc

/-! ## Taking and giving back -/

section
variable {α β γ : Type} [DecidableEq α] [DecidableEq β]

/-- What one process sets and clears again is as before. -/
theorem update_update_none {f : α → β → Option γ} {a : α} {b : β} (h : f a b = none)
    (c : Option γ) :
    Function.update (Function.update f a (Function.update (f a) b c)) a
      (Function.update (Function.update f a (Function.update (f a) b c) a) b none) = f := by
  rw [Function.update_self, Function.update_idem, Function.update_idem, ← h,
    Function.update_eq_self, Function.update_eq_self]

/-- Clearing where nothing is set does nothing, and only there. -/
theorem update_none_eq_self {f : α → Option γ} {a : α} :
    Function.update f a none = f ↔ f a = none := by
  rw [Function.update_eq_self_iff, eq_comm]

end

namespace Kernel

variable {k : Kernel} {p : Pid} {name : ShmName} {fd addr : Nat}

theorem close_shmOpen_fds (hfd : k.fds p fd = none) :
    ((k.shmOpen p name fd).close p (some fd)).fds = k.fds := by
  simp only [close, shmOpen_fds_eq]
  exact update_update_none hfd _

theorem munmap_mmap_maps (haddr : k.maps p addr = none) (prot : Nat) :
    (((k.shmOpen p name fd).mmap p addr prot fd).munmap p addr).maps = k.maps := by
  simp only [munmap, mmap, shmOpen_maps]
  exact update_update_none haddr _

/-- Opened and unlinked, a name is gone. -/
theorem unlink_shmOpen_names (k : Kernel) (p : Pid) (name : ShmName) (fd : Nat) :
    ((k.shmOpen p name fd).shmUnlink name).names = Function.update k.names name none := by
  simp only [shmUnlink, shmOpen_names, Function.update_idem]

end Kernel

/-! ## A construction and its free -/

section
variable {p : Pid} {name : ShmName} {name_length : Nat} {access : Access} {st : ShmSteps}
  {k k' : Kernel}

/-- **A construction that fails** gives back what it took, and unlinks the name. -/
theorem of_new_eq_none (hlen : 1 ≤ name_length) (hfresh : st.Fresh p k)
    (h : newSharedRenderCommandArray p (some name) name_length access st k = (none, k')) :
    ¬st.Succeeds ∧ k'.names = Function.update k.names name none ∧ k'.fds = k.fds
      ∧ k'.maps = k.maps := by
  cases shmCourse_of_new hlen h with
  | notOpened hopen => exact ⟨by simp [ShmSteps.Succeeds, hopen], rfl, rfl, rfl⟩
  | @notMapped fd hopen hfail =>
      refine ⟨?_, k.unlink_shmOpen_names p name fd, Kernel.close_shmOpen_fds (hfresh.fd fd hopen),
        k.shmOpen_maps p name fd⟩
      rintro ⟨-, htruncate, hmap, -⟩
      rcases hfail with hfail | hfail
      · rw [htruncate] at hfail
        cases hfail
      · rw [hfail] at hmap
        cases hmap
  | @noMemory fd addr hopen hmap hfail =>
      exact ⟨by simp [ShmSteps.Succeeds, hfail], k.unlink_shmOpen_names p name fd,
        Kernel.close_shmOpen_fds (hfresh.fd fd hopen),
        Kernel.munmap_mmap_maps (hfresh.addr addr hmap).1 access.prot⟩

/-- **A construction that succeeds**, and the free of its array: the mapping is given
back and, unless the descriptor is 0, so is it and the recorded name. -/
theorem of_new_eq_some {a : SharedRenderCommandArray} (hlen : 1 ≤ name_length)
    (hfresh : st.Fresh p k)
    (h : newSharedRenderCommandArray p (some name) name_length access st k = (some a, k')) :
    st.Succeeds ∧ st.shmOpen = some a.shm ∧ a.name = name.take name_length
      ∧ (sharedRenderCommandArrayFree p (some a) k').maps = k.maps
      ∧ (a.shm = 0 → (sharedRenderCommandArrayFree p (some a) k').fds ≠ k.fds)
      ∧ (a.shm ≠ 0 → (sharedRenderCommandArrayFree p (some a) k').fds = k.fds
        ∧ (sharedRenderCommandArrayFree p (some a) k').names = Function.update
          (Function.update k.names name (some (k.opened name))) a.name none) := by
  cases shmCourse_of_new hlen h with
  | @made fd addr hopen htruncate hmap hmalloc =>
      have hfd := hfresh.fd fd hopen
      obtain ⟨haddr, hstart⟩ := hfresh.addr addr hmap
      refine ⟨⟨by rw [hopen]; rfl, htruncate, by rw [hmap]; rfl, hmalloc⟩, hopen, rfl, ?_, ?_, ?_⟩
      · rw [sharedRenderCommandArrayFree_maps, if_pos hstart]
        exact Kernel.munmap_mmap_maps haddr access.prot
      · intro hzero hsame
        rw [sharedRenderCommandArrayFree_fds, if_neg (not_not.mpr hzero)] at hsame
        have hopened := k.shmOpen_fds p name fd
        have hleft : (k.shmOpen p name fd).fds = k.fds := hsame
        rw [hleft, hfd] at hopened
        cases hopened
      · intro hne
        rw [sharedRenderCommandArrayFree_fds, sharedRenderCommandArrayFree_names, if_pos hne,
          if_pos hne, ← k.shmOpen_names p name fd]
        exact ⟨Kernel.close_shmOpen_fds hfd, rfl⟩

/-- What a construction that failed is asked. -/
theorem leavesNoTrace_iff_of_none
    (hnew : newSharedRenderCommandArray p (some name) name_length access st k = (none, k')) :
    LeavesNoTrace p name name_length access st k ↔ k'.Same k := by
  refine ⟨fun h => h.failed k' hnew, fun hsame => ⟨fun k'' h => ?_, fun a k'' h => ?_⟩⟩
  · obtain ⟨-, rfl⟩ := Prod.mk.inj (hnew.symm.trans h)
    exact hsame
  · cases (Prod.mk.inj (hnew.symm.trans h)).1

/-- What a construction that succeeded is asked. -/
theorem leavesNoTrace_iff_of_some {a : SharedRenderCommandArray}
    (hnew : newSharedRenderCommandArray p (some name) name_length access st k = (some a, k')) :
    LeavesNoTrace p name name_length access st k ↔
      a.name = name ∧ (sharedRenderCommandArrayFree p (some a) k').Same k := by
  refine ⟨fun h => h.freed a k' hnew, fun hsame => ⟨fun k'' h => ?_, fun a' k'' h => ?_⟩⟩
  · cases (Prod.mk.inj (hnew.symm.trans h)).1
  · obtain ⟨ha, rfl⟩ := Prod.mk.inj (hnew.symm.trans h)
    obtain rfl := Option.some.inj ha
    exact hsame

end

/-! ## The law -/

/-- **When nothing is left behind**: exactly when the name is new and, if the array is
made, recorded whole and opened at a descriptor other than 0. -/
theorem leavesNoTrace_iff {p : Pid} {name : ShmName} {name_length : Nat} {access : Access}
    {st : ShmSteps} {k : Kernel} (hlen : 1 ≤ name_length) (hname : name_length ≤ name.length)
    (hfresh : st.Fresh p k) :
    LeavesNoTrace p name name_length access st k ↔
      k.names name = none
        ∧ (st.Succeeds → st.shmOpen ≠ some 0 ∧ name_length = name.length) := by
  cases hnew : newSharedRenderCommandArray p (some name) name_length access st k with
  | mk r k' =>
      cases r with
      | none =>
          obtain ⟨hfails, hnames, hfds, hmaps⟩ := of_new_eq_none hlen hfresh hnew
          rw [leavesNoTrace_iff_of_none hnew]
          constructor
          · intro hsame
            have hcleared := hsame.names
            rw [hnames] at hcleared
            exact ⟨update_none_eq_self.mp hcleared, fun hs => absurd hs hfails⟩
          · rintro ⟨hnone, -⟩
            exact ⟨hnames.trans (update_none_eq_self.mpr hnone), hfds, hmaps⟩
      | some a =>
          obtain ⟨hs, hopen, hrecorded, hmaps, hzero, hrest⟩ := of_new_eq_some hlen hfresh hnew
          rw [leavesNoTrace_iff_of_some hnew]
          constructor
          · rintro ⟨hwhole, hsame⟩
            have hfd : a.shm ≠ 0 := fun h0 => hzero h0 hsame.fds
            have hcleared := (hrest hfd).2
            rw [hsame.names, hwhole, Function.update_idem] at hcleared
            have htake : (name.take name_length).length = name.length :=
              congrArg List.length (hrecorded.symm.trans hwhole)
            rw [List.length_take_of_le hname] at htake
            exact ⟨update_none_eq_self.mp hcleared.symm,
              fun _ => ⟨fun h0 => hfd (Option.some.inj (hopen.symm.trans h0)), htake⟩⟩
          · rintro ⟨hnone, hgood⟩
            obtain ⟨hfd, hwhole⟩ := hgood hs
            have hwhole : a.name = name := by rw [hrecorded, hwhole, List.take_length]
            obtain ⟨hfds, hnames⟩ := hrest fun h0 => hfd (by rw [hopen, h0])
            refine ⟨hwhole, ?_, hfds, hmaps⟩
            rw [hnames, hwhole, Function.update_idem, update_none_eq_self.mpr hnone]

/-- Another process's segment `/a`, and nothing open here. -/
def otherSegment : Kernel :=
  ⟨fun name => if name = [47, 97] then some 0 else none, 1, fun _ _ => none, fun _ _ => none⟩

theorem new_segment_leaves_no_trace :
    LeavesNoTrace 1 [47, 98] 2 .kReadWrite ⟨some 3, true, some 4096, true⟩ otherSegment :=
  (leavesNoTrace_iff (by decide) (by decide) ⟨fun _ _ => rfl, fun addr h =>
    ⟨rfl, by rw [← Option.some.inj h]; decide⟩⟩).mpr ⟨rfl, fun _ => ⟨by decide, rfl⟩⟩

/-- A process that cannot open the segment, for it has no descriptor left, unlinks it. -/
theorem segment_unlinked_unopened :
    ¬∀ (p : Pid) (name : ShmName) (name_length : Nat) (access : Access) (st : ShmSteps)
      (k : Kernel), 1 ≤ name_length → name_length ≤ name.length → st.Fresh p k →
      LeavesNoTrace p name name_length access st k := by
  intro hall
  have htrace := hall 1 [47, 97] 2 .kReadWrite ⟨none, true, some 4096, true⟩ otherSegment
    (by decide) (by decide) ⟨fun _ h => (by cases h), fun addr h =>
      ⟨rfl, by rw [← Option.some.inj h]; decide⟩⟩
  have hnames := congrFun (htrace.failed _ rfl).names [47, 97]
  cases hnames

end Vespa
